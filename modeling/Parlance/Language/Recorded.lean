import Parlance.Job.Schedule
import Parlance.Language.Vocabulary

/-
  Recorded rules. The result of a recorded rule is a function of its arguments, and it is there at
  once or after a nap. Every call is logged when it is made, and a call that naps is logged again
  when its nap is over, so that the order of calls can be seen.
-/

namespace Parlance.Recorded

/-- When the result of a call is there. -/
inductive Binding (V : Type) where
  | immediate
  /-- After a nap, whose length may depend on the arguments. -/
  | delayed (delay : List V → Nat)

/-- An entry of the log. -/
inductive Event (V : Type) where
  | called (keyword : String) (args : List V)
  | finished (keyword : String) (time : Nat)
  | failed (keyword : String) (time : Nat)

/-- A rule that records its calls. -/
structure Rule (ι V : Type) where
  keyword : String
  args : List (Expr ι V)
  result : List V → Except Error V
  binding : Binding V

variable {ι V : Type}

/-- Adds an entry to the log. -/
def record (e : Event V) : Job (List (Event V)) V Unit := Job.update (· ++ [e])

/-- The log entry for the end of a nap. -/
def Event.ofResult (keyword : String) (time : Nat) : Except Error V → Event V
  | .ok _ => finished keyword time
  | .error _ => failed keyword time

/-- Logs the call and gives the result, at once or after a nap. -/
def Rule.handler (rule : Rule ι V) (args : List V) : Job (List (Event V)) V V :=
  (record (.called rule.keyword args)).bind fun _ =>
    match rule.binding with
    | .immediate => .done (rule.result args)
    | .delayed delay =>
      (Job.sleep (delay args)).bind fun time =>
        (record (.ofResult rule.keyword time (rule.result args))).bind fun _ =>
          .done (rule.result args)

/-- The rule with other names for the types of its arguments. -/
def Rule.rename? {κ : Type} (f : ι → Option κ) (rule : Rule ι V) : Option (Rule κ V) :=
  (rule.args.mapM (Expr.rename? f)).map fun args => ⟨rule.keyword, args, rule.result, rule.binding⟩

/-- The rule of a vocabulary. -/
def Rule.toRule (rule : Rule ι V) : Parlance.Rule ι (List (Event V)) V :=
  ⟨rule.keyword, rule.args, rule.handler⟩

/-- What can be seen of a run. -/
structure Report (V : Type) where
  /-- The result was there as soon as the job was launched. -/
  ready : Bool
  result : Except Error V
  log : List (Event V)
  clock : Nat

/-- Runs a job on an empty log and a fresh clock, or on a frozen one. -/
def rehearse (frozen : Bool) (j : Job (List (Event V)) V V) : Report V :=
  let (result, m) := j.run { world := [], frozen := frozen }
  ⟨(j.launch []).1.isReady, result, m.world, m.now⟩

end Parlance.Recorded
