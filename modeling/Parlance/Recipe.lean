import Parlance.Job.Schedule
import Parlance.Text.Words

/-
  Recipes: jobs that are put together from ready and pending results by mapping, chaining,
  sequences and groups, and that keep a log of what started and ended. A recipe is data, so that
  what it costs and gives can be read off it without running it.
-/

namespace Parlance

/-- An entry of the log of a recipe. -/
inductive Recipe.Event where
  /-- The step was started. -/
  | started (label : String)
  /-- The nap of the step was over at this time. -/
  | ended (label : String) (time : Nat)
  deriving DecidableEq, Repr

/-- How a job is put together. `V` is the type of the values in lists. -/
inductive Recipe (V : Type) : Type → Type 1 where
  /-- A result that is there at once; with a label the step is logged. -/
  | now {R : Type} (label : Option String) (result : Except Error R) : Recipe V R
  /-- A result that is there after a nap. -/
  | later {R : Type} (label : String) (delay : Nat) (result : Except Error R) : Recipe V R
  | map {A R : Type} (f : A → R) (r : Recipe V A) : Recipe V R
  | andThen {A R : Type} (r : Recipe V A) (f : A → Recipe V R) : Recipe V R
  | sequence (rs : List (Recipe V V)) : Recipe V (List V)
  | join (rs : List (Recipe V V)) : Recipe V (List V)

namespace Recipe

variable {V : Type}

/-- Adds an entry to the log. -/
def record (e : Event) : Job (List Event) V Unit := Job.update (· ++ [e])

mutual

/-- The job that a recipe describes. -/
def job {R : Type} : Recipe V R → Job (List Event) V R
  | now none result => .done result
  | now (some label) result => (record (.started label)).bind fun _ => .done result
  | later label delay result =>
    (record (.started label)).bind fun _ =>
      (Job.sleep delay).bind fun time =>
        (record (.ended label time)).bind fun _ => .done result
  | map f r => r.job.map f
  | andThen r f => r.job.bind fun value => (f value).job
  | sequence rs => Job.sequence (jobAll rs)
  | join rs => Job.together (jobAll rs)
termination_by structural r => r

/-- The jobs of a list of recipes. -/
def jobAll : List (Recipe V V) → List (Job (List Event) V V)
  | [] => []
  | r :: rest => r.job :: jobAll rest
termination_by structural rs => rs

end

/-- The log entry as a line. -/
def Event.text : Event → String
  | started label => "run " ++ label
  | ended label time => "end " ++ label ++ " @" ++ time.repr

/-- What can be seen of a run. -/
structure Report (R : Type) where
  /-- The result was there as soon as the job was launched. -/
  ready : Bool
  /-- The log of the launch. -/
  before : List Event
  /-- The log of the rest. -/
  after : List Event
  clock : Nat
  result : Except Error R

/-- Runs a recipe on a fresh clock, or on a frozen one. -/
def rehearse {R : Type} (frozen : Bool) (r : Recipe V R) : Report R :=
  let (launched, before) := r.job.launch []
  let (result, m) := r.job.run { world := [], frozen := frozen }
  ⟨launched.isReady, before, m.world.drop before.length, m.now, result⟩

end Recipe

end Parlance
