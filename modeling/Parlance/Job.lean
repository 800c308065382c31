import Parlance.Error

/-
  Deferred work. A job is a tree of what is to be done: it can change the world, nap, or start a
  group of members and wait for all of them, and it ends with a value or a failure. Nothing
  happens until a job is launched, which is the matter of `Parlance.Job.Launch`.

  `W` is the world that jobs change, `V` the values that the members of a group produce, and the
  last parameter the value of the job itself. Jobs form a monad, with equations and not only up
  to observation: `bind_assoc`, `bind_pure`.
-/

namespace Parlance

/-- Work that is still to be done. -/
inductive Job (W V : Type) : Type → Type 1 where
  /-- The work is over. -/
  | done {R : Type} (result : Except Error R) : Job W V R
  /-- Changes the world at once; what follows may look at the world before the change. -/
  | act {R : Type} (update : W → W) (next : W → Job W V R) : Job W V R
  /-- Naps for `delay` units of time; what follows is told the time at which the nap is over. -/
  | nap {R : Type} (delay : Nat) (next : Nat → Job W V R) : Job W V R
  /-- Starts every member and waits for all of them; what follows gets their values in order. If
  a member fails, the job fails once all members have ended. -/
  | join {R : Type} (members : List (Job W V V)) (next : List V → Job W V R) : Job W V R

namespace Job

variable {W V α β γ : Type}

/-- The job that ends at once with a value. -/
def pure (value : α) : Job W V α := done (.ok value)

/-- The job that ends at once with a failure. -/
def fail (error : Error) : Job W V α := done (.error error)

/-- Goes on with `f` once the value is there; a failure ends the whole. -/
def bind : Job W V α → (α → Job W V β) → Job W V β
  | done (.ok value), f => f value
  | done (.error error), _ => done (.error error)
  | act update next, f => act update fun w => (next w).bind f
  | nap delay next, f => nap delay fun now => (next now).bind f
  | join members next, f => join members fun values => (next values).bind f

/-- Changes the value of a job. -/
def map (f : α → β) (j : Job W V α) : Job W V β := j.bind fun value => pure (f value)

/-- Changes the world. -/
def update (f : W → W) : Job W V Unit := act f fun _ => pure ()

/-- Does something to the world that has a result. -/
def perform (f : W → Except Error α × W) : Job W V α :=
  act (fun w => (f w).2) fun w => done (f w).1

/-- Naps, and gives the time at which the nap is over. -/
def sleep (delay : Nat) : Job W V Nat := nap delay pure

/-! ## Lists of jobs -/

/-- Does the jobs one after the other, each started once the one before has its value, and adds
their values to `values`. The first failure ends the whole. -/
def sequenceFrom (values : List V) : List (Job W V V) → Job W V (List V)
  | [] => pure values
  | j :: rest => j.bind fun value => sequenceFrom (values ++ [value]) rest

/-- Does the jobs one after the other and gives their values in order. -/
def sequence (jobs : List (Job W V V)) : Job W V (List V) := sequenceFrom [] jobs

/-- The arguments of a call: each argument is appended to the job of the arguments before it. -/
def arguments (jobs : List (Job W V V)) : Job W V (List V) :=
  jobs.foldl (fun init last => init.bind fun head => last.map fun value => head ++ [value])
    (pure [])

/-- Starts all the jobs, waits for all of them, and gives their values in order. -/
def together (jobs : List (Job W V V)) : Job W V (List V) := join jobs pure

/-! ## Monad laws -/

@[simp] theorem bind_ok (value : α) (f : α → Job W V β) : (done (.ok value)).bind f = f value := by
  rw [bind]

@[simp] theorem bind_error (error : Error) (f : α → Job W V β) :
    (done (.error error)).bind f = done (.error error) := by
  rw [bind]

theorem pure_bind (value : α) (f : α → Job W V β) : (pure value).bind f = f value :=
  bind_ok value f

theorem bind_pure (j : Job W V α) : j.bind pure = j := by
  match j with
  | done (.ok _) => simp [pure]
  | done (.error _) => simp
  | act update next => rw [bind]; congr; funext w; exact bind_pure (next w)
  | nap delay next => rw [bind]; congr; funext now; exact bind_pure (next now)
  | join members next => rw [bind]; congr; funext values; exact bind_pure (next values)

theorem bind_assoc (j : Job W V α) (f : α → Job W V β) (g : β → Job W V γ) :
    (j.bind f).bind g = j.bind fun value => (f value).bind g := by
  match j with
  | done (.ok _) => simp
  | done (.error _) => simp
  | act update next =>
    simp only [bind]; congr; funext w; exact bind_assoc (next w) f g
  | nap delay next =>
    simp only [bind]; congr; funext now; exact bind_assoc (next now) f g
  | join members next =>
    simp only [bind]; congr; funext values; exact bind_assoc (next values) f g

end Job

end Parlance
