import Parlance.Proofs.Running.CallByValue

/-
  What holds of a program because it holds of its calls. The value of a program does not mention the
  modes of its repetitions: the results of items are collected from left to right, up to the first
  failure, whether they run one after the other or all at once. A relation between jobs and results
  that is kept by chains and by groups therefore holds of every program and its value if it holds of
  the calls and their results (`Job.Composes.value`).
-/

namespace Parlance

variable {ι W V α β : Type}

/-- The values of all the results in order, or the first failure. -/
def collect : List (Except Error α) → Except Error (List α)
  | [] => .ok []
  | x :: xs => x.bind fun value => (collect xs).map fun values => value :: values

theorem collect_eq_ok_iff {xs : List (Except Error α)} {values : List α} :
    collect xs = .ok values ↔ xs = values.map .ok := by
  induction xs generalizing values with
  | nil => simp [collect, eq_comm]
  | cons x xs ih =>
    rw [collect]
    cases x with
    | error error => cases values <;> simp [Except.bind]
    | ok value =>
      cases values with
      | nil => cases collect xs <;> simp [Except.bind, Except.map]
      | cons value' values =>
        rw [List.map_cons, List.cons.injEq, ← ih]
        cases collect xs <;> simp [Except.bind, Except.map]

namespace Program

theorem valueAll_eq_collect (result : Rule ι W V → List V → Except Error V)
    (ps : List (Program ι W V)) : valueAll result ps = collect (ps.map (value result)) := by
  induction ps with
  | nil => rfl
  | cons p ps ih => rw [valueAll, ih, List.map_cons, collect]

/-- The first value goes behind those before it, and the others behind the first. -/
theorem map_valueAll_cons (result : Rule ι W V → List V → Except Error V) (p : Program ι W V)
    (ps : List (Program ι W V)) (before : List V) :
    (valueAll result (p :: ps)).map (before ++ ·) =
      (p.value result).bind fun value =>
        (valueAll result ps).map ((before ++ [value]) ++ ·) := by
  rw [valueAll]
  cases p.value result with
  | error error => rfl
  | ok value =>
    cases valueAll result ps with
    | error error => rfl
    | ok values => simp [Except.bind, Except.map]

end Program

/-- What jobs have to do with results, kept when jobs are put together. -/
structure Job.Composes (D : {α : Type} → Job W V α → Except Error α → Prop) : Prop where
  done {α : Type} (x : Except Error α) : D (.done x) x
  bind {α β : Type} {j : Job W V α} {f : α → Job W V β} {x : Except Error α}
    {g : α → Except Error β} : D j x → (∀ value, D (f value) (g value)) → D (j.bind f) (x.bind g)
  together {jobs : List (Job W V V)} {xs : List (Except Error V)} :
    List.Forall₂ D jobs xs → D (Job.together jobs) (collect xs)

theorem Job.Composes.map {D : {α : Type} → Job W V α → Except Error α → Prop}
    (hD : Job.Composes D) {j : Job W V α} {x : Except Error α} (hj : D j x) (g : α → β) :
    D (j.map g) (x.map g) := by
  have h := hD.bind hj fun value => hD.done (.ok (g value))
  cases x <;> exact h

section

variable {D : {α : Type} → Job W V α → Except Error α → Prop}

mutual

/-- What calls have to do with their results, a program has to do with its value. -/
theorem Job.Composes.value (hD : Job.Composes D)
    (result : Rule ι W V → List V → Except Error V) (p : Program ι W V)
    (h : ∀ call ∈ p.calls, ∀ args, D (call.rule.handler args) (result call.rule args)) :
    D p.job (p.value result) := by
  match p with
  | .literal tag token value =>
    rw [Program.job, Program.jobWith, Program.value]
    exact hD.done _
  | .call tag keyword rule args =>
    rw [Program.calls] at h
    rw [Program.job, Program.jobWith, Job.arguments_eq_sequence, Program.value,
      ← Program.map_nil_append (Program.valueAll _ _)]
    apply hD.bind (hD.sequence result args (fun c hc => h c (List.mem_append_left _ hc)) [])
    exact h ⟨keyword, rule, args⟩ (by simp)
  | .list tag r items exit =>
    rw [Program.calls] at h
    rw [Program.job, Program.jobWith, Program.value]
    cases r.mode with
    | sequential =>
      rw [← Program.map_nil_append (Program.valueAll _ _)]
      exact hD.map (hD.sequence result items h []) _
    | joined =>
      rw [Program.valueAll_eq_collect]
      exact hD.map (hD.together (hD.items result items h)) _
termination_by structural p

theorem Job.Composes.sequence (hD : Job.Composes D)
    (result : Rule ι W V → List V → Except Error V) (ps : List (Program ι W V))
    (h : ∀ call ∈ Program.callsAll ps, ∀ args,
      D (call.rule.handler args) (result call.rule args)) (before : List V) :
    D (Job.sequenceFrom before (Program.jobAllWith (fun _ rule => rule.handler) ps))
      ((Program.valueAll result ps).map (before ++ ·)) := by
  match ps with
  | [] =>
    rw [Program.jobAllWith, Job.sequenceFrom, Program.valueAll, Except.map, List.append_nil]
    exact hD.done _
  | p :: rest =>
    rw [Program.callsAll] at h
    rw [Program.jobAllWith, Job.sequenceFrom, Program.map_valueAll_cons]
    apply hD.bind (hD.value result p fun c hc => h c (List.mem_append_left _ hc))
    intro value
    exact hD.sequence result rest (fun c hc => h c (List.mem_append_right _ hc)) (before ++ [value])
termination_by structural ps

theorem Job.Composes.items (hD : Job.Composes D)
    (result : Rule ι W V → List V → Except Error V) (ps : List (Program ι W V))
    (h : ∀ call ∈ Program.callsAll ps, ∀ args,
      D (call.rule.handler args) (result call.rule args)) :
    List.Forall₂ D (Program.jobAllWith (fun _ rule => rule.handler) ps)
      (ps.map (Program.value result)) := by
  match ps with
  | [] => exact .nil
  | p :: rest =>
    rw [Program.callsAll] at h
    exact .cons (hD.value result p fun c hc => h c (List.mem_append_left _ hc))
      (hD.items result rest fun c hc => h c (List.mem_append_right _ hc))
termination_by structural ps

end

end

end Parlance
