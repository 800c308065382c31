import Parlance.Proofs.Running.Endings
import Parlance.Proofs.Running.Readiness

/-
  What the mode of a repetition changes. Two languages are the same up to modes if they differ only
  in whether the items of their repetitions run one after the other or all at once. They read the
  same words, into traces that differ in the marks of tags only. And if the result of every rule is
  a function of its arguments, the programs that they read have the same value on every schedule of
  either.

  The value of a program does not mention modes. What is kept by chains and by groups and holds of
  calls and their results holds of the program and its value (`Job.Composes.value`): that the job
  ends with the value on every schedule, or with some failure if there is none
  (`Job.composes_endsAs`), and that it has the value, or the first failure from left to right, at
  once (`Job.composes_gives`).
-/

namespace Parlance

variable {ι W V α β : Type}

/-! ## On every schedule, and at once -/

namespace Job

theorem composes_endsAs : Composes (EndsAs (W := W) (V := V)) :=
  ⟨endsAs_done, EndsAs.bind, EndsAs.together⟩

/-- Wherever the job is launched, it has the result at once. -/
def Gives (j : Job W V α) (r : Except Error α) : Prop := ∀ w, (j.launch w).1.result? = some r

/-- A job that never waits and ends with one result only has it at once. -/
theorem Prompt.gives {j : Job W V α} (hj : j.Prompt) {r : Except Error α} (hr : j.EndsIn (· = r)) :
    j.Gives r := by
  intro w
  have hready := hj w
  have hends := hr w
  generalize (j.launch w).1 = l at hready hends
  cases l with
  | settled r' =>
    have hsame : r' = r := (hends { world := w }).result rfl
    exact congrArg some hsame
  | suspended poll => cases hready

theorem Gives.bind {j : Job W V α} {f : α → Job W V β} {r : Except Error α}
    {g : α → Except Error β} (hj : j.Gives r) (hf : ∀ value, (f value).Gives (g value)) :
    (j.bind f).Gives (r.bind g) := by
  intro w
  rw [launch_bind]
  have hl := hj w
  generalize j.launch w = launched at hl ⊢
  obtain ⟨l, w'⟩ := launched
  cases l with
  | settled r' =>
    cases hl
    cases r with
    | ok value => exact hf value w'
    | error error => rfl
  | suspended poll => cases hl

/-- Jobs that have their results at once have them one after the other. -/
theorem Gives.starts {jobs : List (Job W V V)} {xs : List (Except Error V)}
    (h : List.Forall₂ Gives jobs xs) (w : W) :
    (Job.starts jobs w).map Launch.result? = xs.map some := by
  induction h generalizing w with
  | nil => rfl
  | cons hj _ ih => rw [starts_cons, List.map_cons, List.map_cons, hj w, ih]

/-- The first failure among what has settled is the first of the results. -/
theorem collect_launched {started : List (Launch W V V)} {xs : List (Except Error V)}
    (h : started.map Launch.result? = xs.map some) :
    (match Launch.failure? started with
      | some error => .error error
      | none => .ok (Launch.values started)) = collect xs := by
  induction xs generalizing started with
  | nil =>
    rw [List.map_nil, List.map_eq_nil_iff] at h
    subst h
    rfl
  | cons x xs ih =>
    obtain ⟨l, rest, rfl, hl, hrest⟩ := List.map_eq_cons_iff.mp h
    rw [collect, ← ih hrest]
    cases l with
    | suspended poll => cases hl
    | settled r =>
      obtain rfl := Option.some.inj hl
      cases r with
      | error error => rfl
      | ok value =>
        have hfailure : Launch.failure? (.settled (.ok value) :: rest) = Launch.failure? rest := rfl
        rw [hfailure, Launch.values]
        cases Launch.failure? rest with
        | some error => rfl
        | none => rfl

theorem Gives.together {jobs : List (Job W V V)} {xs : List (Except Error V)}
    (h : List.Forall₂ Gives jobs xs) : (together jobs).Gives (collect xs) := by
  intro w
  have hstarts := Gives.starts h w
  have hready : (Job.starts jobs w).all (·.isReady) = true := by
    have hsome := congrArg (fun results => results.all Option.isSome) hstarts
    simp only [List.all_map] at hsome
    rw [Launch.isReady_eq, hsome]
    simp
  rw [← collect_launched hstarts, Job.together, launch, launchAll_eq]
  dsimp only
  rw [if_pos hready]
  cases Launch.failure? (Job.starts jobs w) with
  | some error => rfl
  | none => rfl

theorem composes_gives : Composes (Gives (W := W) (V := V)) :=
  ⟨fun _ _ => rfl, Gives.bind, Gives.together⟩

/-- What has its result at once has no other, on any schedule. -/
theorem Gives.scheduled {j : Job W V α} {r : Except Error α} (hj : j.Gives r) (m : Machine W)
    (schedule : List (Nat × Nat)) : (j.scheduled m schedule).1 = .done r := by
  have henter : (j.enter m).1 = .done r := by
    have hl := hj m.world
    unfold enter
    generalize j.launch m.world = launched at hl ⊢
    obtain ⟨l, w'⟩ := launched
    cases l with
    | settled r' =>
      cases hl
      rfl
    | suspended poll => cases hl
  unfold Job.scheduled
  generalize j.enter m = s at henter
  obtain ⟨t, m'⟩ := s
  cases henter
  induction schedule with
  | nil => rfl
  | cons firing schedule ih => exact ih

end Job

/-! ## Rules whose results are functions of their arguments -/

/-- However a call of the rule is made and goes on, its result is the one for its arguments. -/
def Rule.Functional (rule : Rule ι W V) : Prop :=
  ∀ args, ∃ r, (rule.handler args).EndsIn (· = r)

/-- What a call of the rule gives when it is run on the machine. -/
def Rule.resultOn (m : Machine W) (rule : Rule ι W V) (args : List V) : Except Error V :=
  ((rule.handler args).run m).1

theorem Rule.Functional.endsIn {rule : Rule ι W V} (h : rule.Functional) (m : Machine W)
    (args : List V) : (rule.handler args).EndsIn (· = rule.resultOn m args) := by
  obtain ⟨r, hr⟩ := h args
  have hrun : rule.resultOn m args = r := hr.run m
  rwa [hrun]

theorem Recorded.Rule.functional (rule : Recorded.Rule ι V) : rule.toRule.Functional := by
  intro args
  refine ⟨rule.result args, ?_⟩
  show (rule.handler args).EndsIn (· = rule.result args)
  have hrecord (e : Event V) (j : Job (List (Event V)) V V)
      (hj : j.EndsIn (· = rule.result args)) :
      ((record e).bind fun _ => j).EndsIn (· = rule.result args) := by
    intro w
    exact hj _
  unfold handler
  apply hrecord
  cases rule.binding with
  | immediate => exact Job.endsIn_done rfl
  | delayed delay =>
    apply Job.endsIn_nap
    intro now
    exact hrecord _ _ (Job.endsIn_done rfl)

/-! ## Languages that differ in modes -/

/-- The repetitions differ in their modes at most. -/
structure Repetition.Remodes (r r' : Repetition V) : Prop where
  exit_eq : r'.exit = r.exit
  gather_eq : r'.gather = r.gather

/-- The languages differ in the modes of their repetitions at most. -/
def Language.Remodes (l l' : Language ι W V) : Prop :=
  l.Varies (fun rule rule' => rule'.handler = rule.handler) Repetition.Remodes l'

/-- The expression with all its repetitions in one mode. -/
def Expr.inMode (mode : Mode) : Expr ι V → Expr ι V
  | prim p => prim p
  | type name => type name
  | rep r child => rep { r with mode := mode } (child.inMode mode)

/-- The language with all its repetitions in one mode. -/
def Language.inMode (mode : Mode) (l : Language ι W V) : Language ι W V where
  name := l.name
  root := l.root.inMode mode
  vocabulary :=
    { l.vocabulary with
      table := fun name => (l.vocabulary.table name).map fun t =>
        { rules := t.rules.map fun rule => { rule with args := rule.args.map (Expr.inMode mode) }
          fallback := t.fallback.map (Expr.inMode mode)
          nodup_keywords := by rw [List.map_map]; exact t.nodup_keywords }
      mem_names := fun i h => l.vocabulary.mem_names i (by simpa using h) }

theorem Expr.varies_inMode (mode : Mode) (e : Expr ι V) :
    Expr.Varies Repetition.Remodes e (e.inMode mode) := by
  induction e with
  | prim p => exact .prim
  | type name => exact .type
  | rep r child ih => exact .rep ⟨rfl, rfl⟩ ih

theorem Language.remodes_inMode (mode : Mode) (l : Language ι W V) :
    l.Remodes (l.inMode mode) := by
  refine ⟨rfl, l.root.varies_inMode mode, rfl, rfl, fun name => ?_, fun h => h.exit_eq⟩
  show Option.Rel _ _ ((l.vocabulary.table name).map _)
  cases l.vocabulary.table name with
  | none => exact .none
  | some t =>
    refine .some ⟨?_, ?_⟩
    · rw [List.forall₂_map_right_iff, List.forall₂_same]
      intro rule _
      refine ⟨rfl, ?_, rfl⟩
      rw [List.forall₂_map_right_iff, List.forall₂_same]
      exact fun e _ => e.varies_inMode mode
    · dsimp only
      cases t.fallback with
      | none => exact .none
      | some e => exact .some (e.varies_inMode mode)

/-! ## Traces that differ in marks -/

namespace Trace

/-- The tags differ in the marks of repetitions at most. -/
inductive TagAlike : String → String → Prop where
  | refl (tag : String) : TagAlike tag tag
  | marked (mode mode' : Mode) {tag tag' : String} :
      TagAlike tag tag' → TagAlike (mode.mark ++ "." ++ tag) (mode'.mark ++ "." ++ tag')
  | exit {tag tag' : String} : TagAlike tag tag' → TagAlike (tag ++ ".exit") (tag' ++ ".exit")

mutual

/-- The traces have the same shape and the same tokens, under tags that differ in marks at most. -/
inductive Alike : Trace → Trace → Prop where
  | leaf {tag tag' : String} {token : Token} :
      TagAlike tag tag' → Alike (.leaf tag token) (.leaf tag' token)
  | branch {tag tag' : String} {children children' : List Trace} :
      TagAlike tag tag' → AlikeAll children children' →
      Alike (.branch tag children) (.branch tag' children')

/-- The traces are alike one by one. -/
inductive AlikeAll : List Trace → List Trace → Prop where
  | nil : AlikeAll [] []
  | cons {t t' : Trace} {ts ts' : List Trace} :
      Alike t t' → AlikeAll ts ts' → AlikeAll (t :: ts) (t' :: ts')

end

theorem AlikeAll.append {ts ts' us us' : List Trace} (hts : AlikeAll ts ts')
    (hus : AlikeAll us us') : AlikeAll (ts ++ us) (ts' ++ us') := by
  match hts with
  | .nil => exact hus
  | .cons ht hrest => exact .cons ht (hrest.append hus)

end Trace

theorem Expr.Varies.tagAlike {S : Repetition V → Repetition V → Prop} {e e' : Expr ι V}
    (h : Expr.Varies S e e') (typeTag : ι → String) :
    Trace.TagAlike (e.tag typeTag) (e'.tag typeTag) := by
  induction h with
  | prim => exact .refl _
  | type => exact .refl _
  | rep _ _ ih => exact .marked _ _ ih

section

variable {tag : ι → String} {R : Rule ι W V → Rule ι W V → Prop}
  {S : Repetition V → Repetition V → Prop}

mutual

theorem Program.Varies.trace_alike {p p' : Program ι W V} (h : Program.Varies tag R S p p') :
    p.trace.Alike p'.trace := by
  match h with
  | .literal => exact .leaf (.refl _)
  | .call _ _ hargs =>
    rw [trace, trace]
    exact .branch (.refl _) (.cons (.leaf (.refl _)) hargs.trace_alike)
  | @Program.Varies.list _ _ _ _ _ _ _ r r' child child' items items' exit hrep hitems =>
    rw [trace, trace]
    have htag := hrep.tagAlike tag
    apply Trace.Alike.branch htag
    apply hitems.trace_alike.append
    cases exit with
    | none => exact .nil
    | some token => exact .cons (.leaf (.exit htag)) .nil

theorem Program.VariesAll.trace_alike {ps ps' : List (Program ι W V)}
    (h : Program.VariesAll tag R S ps ps') : Trace.AlikeAll (traceAll ps) (traceAll ps') := by
  match h with
  | .nil => exact .nil
  | .cons hp hps => exact .cons hp.trace_alike hps.trace_alike

end

end

/-! ## Programs that differ in modes -/

section

variable {tag : ι → String}

mutual

/-- The calls are made of rules with the same handlers. -/
theorem Program.Varies.handlers {p p' : Program ι W V}
    (h : Program.Varies tag (fun rule rule' => rule'.handler = rule.handler)
      Repetition.Remodes p p') :
    p'.calls.map (·.rule.handler) = p.calls.map (·.rule.handler) := by
  match h with
  | .literal => rfl
  | .call _ hrule hargs =>
    rw [calls, calls, List.map_append, List.map_append, hargs.handlers, List.map_singleton,
      List.map_singleton, hrule.related]
  | .list _ hitems =>
    rw [calls, calls]
    exact hitems.handlers

theorem Program.VariesAll.handlers {ps ps' : List (Program ι W V)}
    (h : Program.VariesAll tag (fun rule rule' => rule'.handler = rule.handler)
      Repetition.Remodes ps ps') :
    (callsAll ps').map (·.rule.handler) = (callsAll ps).map (·.rule.handler) := by
  match h with
  | .nil => rfl
  | .cons hp hps =>
    rw [callsAll, callsAll, List.map_append, List.map_append, hp.handlers, hps.handlers]

end

/-- What holds of the handlers of all calls of one program holds of those of the other. -/
theorem Program.Varies.forall_handlers {p p' : Program ι W V}
    (h : Program.Varies tag (fun rule rule' => rule'.handler = rule.handler)
      Repetition.Remodes p p') {P : (List V → Job W V V) → Prop}
    (hp : ∀ call ∈ p.calls, P call.rule.handler) : ∀ call ∈ p'.calls, P call.rule.handler := by
  intro call hcall
  have hmem : call.rule.handler ∈ p'.calls.map (·.rule.handler) :=
    List.mem_map.mpr ⟨call, hcall, rfl⟩
  rw [h.handlers] at hmem
  obtain ⟨call', hcall', e⟩ := List.mem_map.mp hmem
  rw [← e]
  exact hp call' hcall'

mutual

/-- The value of a program does not depend on modes. -/
theorem Program.Varies.value_eq {p p' : Program ι W V}
    (h : Program.Varies tag (fun rule rule' => rule'.handler = rule.handler)
      Repetition.Remodes p p') (m : Machine W) :
    p'.value (Rule.resultOn m) = p.value (Rule.resultOn m) := by
  match h with
  | .literal => rfl
  | @Program.Varies.call _ _ _ _ _ _ _ _ _ rule rule' _ _ _ hrule hargs =>
    have hresult : rule'.resultOn m = rule.resultOn m := by
      funext args
      rw [Rule.resultOn, Rule.resultOn, hrule.related]
    rw [value, value, hargs.valueAll_eq m, hresult]
  | .list (.rep hr _) hitems => rw [value, value, hitems.valueAll_eq m, hr.gather_eq]

theorem Program.VariesAll.valueAll_eq {ps ps' : List (Program ι W V)}
    (h : Program.VariesAll tag (fun rule rule' => rule'.handler = rule.handler)
      Repetition.Remodes ps ps') (m : Machine W) :
    valueAll (Rule.resultOn m) ps' = valueAll (Rule.resultOn m) ps := by
  match h with
  | .nil => rfl
  | .cons hp hps => rw [valueAll, valueAll, hp.value_eq m, hps.valueAll_eq m]

end

end

namespace Program

/-- On every schedule, a program of functional rules ends with its value, or with some failure if
it has none. -/
theorem endsAs_value {p : Program ι W V} (h : ∀ call ∈ p.calls, call.rule.Functional)
    (m : Machine W) : p.job.EndsAs (p.value (Rule.resultOn m)) := by
  apply Job.composes_endsAs.value
  intro call hcall args
  exact ((h call hcall).endsIn m args).endsAs

/-- Without waiting it has its value at once, or the first failure from left to right. -/
theorem gives_value {p : Program ι W V} (h : ∀ call ∈ p.calls, call.rule.Functional)
    (hprompt : ∀ call ∈ p.calls, call.rule.Prompt) (m : Machine W) :
    p.job.Gives (p.value (Rule.resultOn m)) := by
  apply Job.composes_gives.value
  intro call hcall args
  exact (hprompt call hcall args).gives ((h call hcall).endsIn m args)

end Program

/-- Modes change the schedule and nothing else. Let two languages differ in the modes of their
repetitions at most, and read the same words. Both refuse them with the same error at the same
cursor, or both accept them there, with traces that differ in the marks of tags at most. Every
schedule of the two programs can be led to an end. If the results of the rules that are called are
functions of their arguments, then on every two schedules, one of each program, either both end with
the same value or both fail; and if no rule that is called waits, they fail with the same error. -/
theorem modes_change_schedule_only (l l' : Language ι W V) (h : l.Remodes l')
    (words : List String) :
    (l.parse words).Agrees
      (fun p p' =>
        (l.trace p).Alike (l'.trace p') ∧
        (∀ (m : Machine W) (schedule : List (Nat × Nat)),
          (∃ more, (p.job.scheduled m (schedule ++ more)).1.result?.isSome) ∧
          ∃ more, (p'.job.scheduled m (schedule ++ more)).1.result?.isSome) ∧
        ((∀ call ∈ p.calls, call.rule.Functional) →
          ∀ (m m' : Machine W) (schedule schedule' : List (Nat × Nat)) (r r' : Except Error V),
            (p.job.scheduled m schedule).1.result? = some r →
            (p'.job.scheduled m' schedule').1.result? = some r' →
            (∀ value, r = .ok value ↔ r' = .ok value) ∧
            ((∀ call ∈ p.calls, call.rule.Prompt) → r = r')))
      (l'.parse words) := by
  apply (h.parse words).mono
  intro p p' hp
  refine ⟨?_, ?_, ?_⟩
  · unfold Language.trace Language.tag
    rw [h.name_eq]
    exact .branch (.refl _) (.cons hp.trace_alike .nil)
  · intro m schedule
    exact ⟨p.job.exists_ending m schedule, p'.job.exists_ending m schedule⟩
  · intro hfunctional m m' schedule schedule' r r' hr hr'
    have hfunctional' : ∀ call ∈ p'.calls, call.rule.Functional := by
      exact hp.forall_handlers (P := fun handler => ∀ args, ∃ r, (handler args).EndsIn (· = r))
        hfunctional
    -- both values are taken with the results on one machine, where they are equal
    have hvalue := hp.value_eq m
    have hends := (Program.endsAs_value hfunctional m).scheduled hr
    have hends' := (Program.endsAs_value hfunctional' m).scheduled hr'
    refine ⟨?_, ?_⟩
    · intro value
      rw [← toOption_eq_some_iff, ← toOption_eq_some_iff, hends, hends', hvalue]
    · intro hprompt
      have hprompt' : ∀ call ∈ p'.calls, call.rule.Prompt :=
        hp.forall_handlers (P := fun handler => ∀ args, (handler args).Prompt) hprompt
      rw [(Program.gives_value hfunctional hprompt m).scheduled] at hr
      rw [(Program.gives_value hfunctional' hprompt' m).scheduled, hvalue] at hr'
      exact Option.some.inj (hr.symm.trans hr')

namespace Demo.Sleep

theorem functional_restless (words : List String)
    {p : Program Name (List (Recorded.Event Value)) Value} {c : Cursor}
    (h : restless.parse words = .accepted p c) : ∀ call ∈ p.calls, call.rule.Functional := by
  intro call hcall
  obtain ⟨name, rule, e⟩ := Language.calls_recorded h call hcall
  rw [e]
  exact Recorded.Rule.functional _

end Demo.Sleep

/-- Two naps that are refused fail alike, whether they are taken at once or in a row. -/
theorem modes_change_schedule_only_naps :
    ∃ p p',
      Demo.Sleep.restless.parse ["parallel", "sleep", "sleep"] =
        .accepted p ⟨["parallel", "sleep", "sleep"], 3⟩ ∧
      (Demo.Sleep.restless.inMode .sequential).parse ["parallel", "sleep", "sleep"] =
        .accepted p' ⟨["parallel", "sleep", "sleep"], 3⟩ ∧
      (∀ call ∈ p.calls, call.rule.Functional) ∧ (∀ call ∈ p.calls, call.rule.Prompt) ∧
      (p.job.scheduled { world := [] } []).1.result? =
        some (.error (.handler "no time to sleep")) ∧
      ∀ m schedule r, (p'.job.scheduled m schedule).1.result? = some r →
        r = .error (.handler "no time to sleep") := by
  have hfunctional := Demo.Sleep.functional_restless ["parallel", "sleep", "sleep"] rfl
  have hprompt := Demo.Sleep.prompt_restless ["parallel", "sleep", "sleep"] rfl
  have h := modes_change_schedule_only Demo.Sleep.restless (Demo.Sleep.restless.inMode .sequential)
    (Demo.Sleep.restless.remodes_inMode .sequential) ["parallel", "sleep", "sleep"]
  obtain ⟨p', hp', -, -, hsame⟩ := h.accepted_eq
  refine ⟨_, p', rfl, hp', hfunctional, hprompt, rfl, ?_⟩
  intro m schedule r hr
  exact ((hsame hfunctional { world := [] } m [] schedule _ r rfl hr).2 hprompt).symm

end Parlance
