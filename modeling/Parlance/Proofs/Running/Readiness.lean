import Parlance.Demo.Sleep
import Parlance.Proofs.Running.Barrier
import Parlance.Proofs.Running.Composition

/-
  When a launch has to wait. A job in a chain waits if its first part does, or has a value with
  which the second part waits (`Job.suspended_bind_iff`). A sequence waits at the first job that
  does, unless one before it has failed, and has then started none of those behind it
  (`Job.suspended_sequence_iff`, `Job.world_sequence`). A group waits if one of its members does,
  and has then started all of them (`Job.launch_together`).

  `Job.Prompt` is a job that never waits. Chains, sequences and groups of prompt jobs are prompt,
  so that a program is prompt if the rules that it calls are (`Program.prompt`).
-/

namespace Parlance

variable {ι W V α β : Type}

namespace Job

/-! ## Chains -/

theorem suspended_bind_iff (j : Job W V α) (f : α → Job W V β) (w : W) :
    ((j.bind f).launch w).1.isReady = false ↔
      (j.launch w).1.isReady = false ∨
        ∃ value w', j.launch w = (.settled (.ok value), w') ∧
          ((f value).launch w').1.isReady = false := by
  rw [launch_bind]
  obtain ⟨l, w'⟩ := j.launch w
  match l with
  | .settled (.ok value) =>
    constructor
    · intro h
      exact .inr ⟨value, w', rfl, h⟩
    · rintro (h | ⟨value', w'', e, h⟩)
      · cases h
      · cases e
        exact h
  | .settled (.error error) =>
    constructor
    · intro h
      cases h
    · rintro (h | ⟨value', w'', e, -⟩)
      · cases h
      · cases e
  | .suspended poll =>
    constructor
    · intro _
      exact .inl rfl
    · intro _
      rfl

/-! ## Sequences -/

theorem starts_cons (j : Job W V V) (jobs : List (Job W V V)) (w : W) :
    starts (j :: jobs) w = (j.launch w).1 :: starts jobs (j.launch w).2 := by
  unfold starts
  rw [List.mapIdx_cons]
  rfl

/-- The job at the index waits when it is launched, and those before it have their values. -/
def WaitsAt (jobs : List (Job W V V)) (w : W) (i : Nat) : Prop :=
  (∃ poll, (starts jobs w)[i]? = some (.suspended poll)) ∧
    ∀ k < i, ∃ value, (starts jobs w)[k]? = some (.settled (.ok value))

theorem waitsAt_cons_zero {j : Job W V V} {jobs : List (Job W V V)} {w : W} :
    WaitsAt (j :: jobs) w 0 ↔ (j.launch w).1.isReady = false := by
  unfold WaitsAt
  rw [starts_cons]
  cases (j.launch w).1 <;> simp [Launch.isReady]

/-- What stands behind the first job is launched where that job has left the world. -/
theorem waitsAt_cons_succ {j : Job W V V} {jobs : List (Job W V V)} {w : W} {i : Nat} :
    WaitsAt (j :: jobs) w (i + 1) ↔
      (∃ value, (j.launch w).1 = .settled (.ok value)) ∧ WaitsAt jobs (j.launch w).2 i := by
  unfold WaitsAt
  rw [starts_cons]
  constructor
  · rintro ⟨hi, hbefore⟩
    obtain ⟨value, hvalue⟩ := hbefore 0 (by omega)
    refine ⟨⟨value, Option.some.inj hvalue⟩, hi, fun k hk => ?_⟩
    exact hbefore (k + 1) (by omega)
  · rintro ⟨⟨value, hvalue⟩, hi, hbefore⟩
    refine ⟨hi, fun k hk => ?_⟩
    cases k with
    | zero => exact ⟨value, congrArg some hvalue⟩
    | succ k => exact hbefore k (by omega)

theorem suspended_sequenceFrom_iff (values : List V) (jobs : List (Job W V V)) (w : W) :
    ((sequenceFrom values jobs).launch w).1.isReady = false ↔ ∃ i, WaitsAt jobs w i := by
  induction jobs generalizing values w with
  | nil =>
    rw [sequenceFrom, pure, launch]
    constructor
    · intro h
      cases h
    · rintro ⟨i, ⟨poll, hi⟩, -⟩
      cases hi
  | cons j jobs ih =>
    rw [sequenceFrom, suspended_bind_iff]
    constructor
    · rintro (h | ⟨value, w', e, h⟩)
      · exact ⟨0, waitsAt_cons_zero.mpr h⟩
      · obtain ⟨i, hi⟩ := (ih _ _).mp h
        refine ⟨i + 1, waitsAt_cons_succ.mpr ?_⟩
        rw [e]
        exact ⟨⟨value, rfl⟩, hi⟩
    · rintro ⟨i, hi⟩
      cases i with
      | zero => exact .inl (waitsAt_cons_zero.mp hi)
      | succ i =>
        obtain ⟨⟨value, hvalue⟩, hrest⟩ := waitsAt_cons_succ.mp hi
        exact .inr ⟨value, (j.launch w).2, Prod.ext hvalue rfl, (ih _ _).mpr ⟨i, hrest⟩⟩

theorem suspended_sequence_iff (jobs : List (Job W V V)) (w : W) :
    ((sequence jobs).launch w).1.isReady = false ↔ ∃ i, WaitsAt jobs w i :=
  suspended_sequenceFrom_iff [] jobs w

theorem world_sequenceFrom {values : List V} {jobs : List (Job W V V)} {w : W} {i : Nat}
    (h : WaitsAt jobs w i) :
    ((sequenceFrom values jobs).launch w).2 = worldAfter (jobs.take (i + 1)) w := by
  induction jobs generalizing values w i with
  | nil =>
    obtain ⟨⟨poll, hi⟩, -⟩ := h
    cases hi
  | cons j jobs ih =>
    rw [sequenceFrom, launch_bind, List.take_succ_cons, worldAfter, List.foldl_cons]
    cases i with
    | zero =>
      have hwaits := waitsAt_cons_zero.mp h
      rw [List.take_zero, List.foldl_nil]
      cases hl : (j.launch w).1 with
      | settled result =>
        rw [hl] at hwaits
        cases hwaits
      | suspended poll => rfl
    | succ i =>
      obtain ⟨⟨value, hvalue⟩, hrest⟩ := waitsAt_cons_succ.mp h
      rw [hvalue]
      exact ih hrest

/-- A sequence that waits has launched the jobs up to the one that waits, and no other. -/
theorem world_sequence {jobs : List (Job W V V)} {w : W} {i : Nat} (h : WaitsAt jobs w i) :
    ((sequence jobs).launch w).2 = worldAfter (jobs.take (i + 1)) w :=
  world_sequenceFrom h

/-! ## Jobs that never wait -/

/-- Wherever the job is launched, its result is there at once. -/
def Prompt (j : Job W V α) : Prop := ∀ w, (j.launch w).1.isReady = true

theorem prompt_done (result : Except Error α) : (done result : Job W V α).Prompt := by
  intro w
  rw [launch]
  rfl

theorem Prompt.bind {j : Job W V α} {f : α → Job W V β} (hj : j.Prompt)
    (hf : ∀ value, (f value).Prompt) : (j.bind f).Prompt := by
  intro w
  rw [← Bool.not_eq_false, suspended_bind_iff]
  rintro (h | ⟨value, w', -, h⟩)
  · rw [hj w] at h
    cases h
  · rw [hf value w'] at h
    cases h

theorem prompt_together {jobs : List (Job W V V)} (h : ∀ j ∈ jobs, j.Prompt) :
    (together jobs).Prompt := by
  intro w
  rw [(launch_together jobs w).2, List.all_eq_true]
  intro l hl
  unfold starts at hl
  obtain ⟨i, hi, rfl⟩ := List.mem_mapIdx.mp hl
  exact h _ (List.getElem_mem hi) _

theorem composes_prompt : Composes (W := W) (V := V) fun j _ => j.Prompt where
  done := prompt_done
  bind := Prompt.bind
  together h := by
    apply prompt_together
    intro j hj
    induction h with
    | nil => cases hj
    | cons hfirst _ ih =>
      rcases List.mem_cons.mp hj with rfl | hj
      · exact hfirst
      · exact ih hj

end Job

/-- Every call of the rule has its result at once. -/
def Rule.Prompt (rule : Rule ι W V) : Prop := ∀ args, (rule.handler args).Prompt

/-- A program that calls prompt rules only is prompt. -/
theorem Program.prompt (p : Program ι W V) (h : ∀ call ∈ p.calls, call.rule.Prompt) :
    p.job.Prompt := by
  -- the relation does not look at results, so that any will do
  exact Job.composes_prompt.value (fun _ _ => .error (.handler "")) p h

/-! ## Recorded rules -/

/-- A recorded rule is prompt if and only if its result is bound to be there at once. -/
theorem Recorded.Rule.prompt_iff (rule : Recorded.Rule ι V) :
    rule.toRule.Prompt ↔ rule.binding = .immediate := by
  constructor
  · intro h
    have hready := h [] []
    unfold toRule handler at hready
    cases hb : rule.binding with
    | immediate => rfl
    | delayed delay =>
      rw [hb] at hready
      cases hready
  · intro hb args w
    unfold toRule handler
    rw [hb]
    rfl

mutual

/-- Every rule that a program calls is one of the vocabulary. -/
theorem Vocabulary.Builds.mem_rules {v : Vocabulary ι W V} {e : Expr ι V} {p : Program ι W V}
    (h : v.Builds e p) {call : Call ι W V} (hcall : call ∈ p.calls) :
    ∃ name table, v.table name = some table ∧ call.rule ∈ table.rules := by
  match h with
  | .literal _ => cases hcall
  | .call ht hl hargs =>
    rw [Program.calls] at hcall
    rcases List.mem_append.mp hcall with hcall | hcall
    · exact hargs.mem_rules hcall
    · rw [List.mem_singleton.mp hcall]
      exact ⟨_, _, ht, List.mem_of_find?_eq_some hl⟩
  | .fallback _ _ hp => exact hp.mem_rules hcall
  | .list hitems =>
    rw [Program.calls] at hcall
    exact hitems.mem_rules hcall

theorem Vocabulary.BuildsAll.mem_rules {v : Vocabulary ι W V} {es : List (Expr ι V)}
    {ps : List (Program ι W V)} (h : v.BuildsAll es ps) {call : Call ι W V}
    (hcall : call ∈ Program.callsAll ps) :
    ∃ name table, v.table name = some table ∧ call.rule ∈ table.rules := by
  match h with
  | .nil => cases hcall
  | .cons hp hps =>
    rw [Program.callsAll] at hcall
    rcases List.mem_append.mp hcall with hcall | hcall
    · exact hp.mem_rules hcall
    · exact hps.mem_rules hcall

end

/-- The rules that a program of a recorded language calls are recorded ones. -/
theorem Language.calls_recorded {l : Language ι W V}
    {result : Rule ι W V → List V → Except Error V} {binding : ι → Rule ι W V → Recorded.Binding V}
    {words : List String} {p : Program ι (List (Recorded.Event V)) V} {c : Cursor}
    (h : (l.recorded result binding).parse words = .accepted p c) :
    ∀ call ∈ p.calls, ∃ name, ∃ rule : Rule ι W V,
      call.rule = rule.recorded (result rule) (binding name rule) := by
  intro call hcall
  obtain ⟨name, table, htable, hrule⟩ := (Language.builds_of_parse h).mem_rules hcall
  obtain ⟨t, -, rfl⟩ := Option.map_eq_some_iff.mp htable
  obtain ⟨rule, -, hrule⟩ := List.mem_map.mp hrule
  exact ⟨name, rule, hrule.symm⟩

/-- A launch waits exactly where it has to. A program none of whose keywords calls a rule that waits
has its result at once, be it a value or a failure. A chain waits if and only if its first part
does, or has a value with which the second part waits. A sequence waits if and only if one of its
jobs does and those before it have their values; then the world is as the jobs up to that one have
left it, and no job behind it was launched. A group waits if and only if one of its jobs does, and
all of them were launched. -/
theorem launch_waits_only_if_needed :
    (∀ (l : Language ι W V) (words : List String) (p : Program ι W V) (c : Cursor),
      l.parse words = .accepted p c → (∀ call ∈ p.calls, call.rule.Prompt) →
      ∀ w, ∃ result w', p.job.launch w = (.settled result, w')) ∧
    (∀ (α β : Type) (j : Job W V α) (f : α → Job W V β) (w : W),
      ((j.bind f).launch w).1.isReady = false ↔
        (j.launch w).1.isReady = false ∨
          ∃ value w', j.launch w = (.settled (.ok value), w') ∧
            ((f value).launch w').1.isReady = false) ∧
    (∀ (jobs : List (Job W V V)) (w : W),
      (((Job.sequence jobs).launch w).1.isReady = false ↔ ∃ i, Job.WaitsAt jobs w i) ∧
      ∀ i, Job.WaitsAt jobs w i →
        ((Job.sequence jobs).launch w).2 = Job.worldAfter (jobs.take (i + 1)) w) ∧
    ∀ (jobs : List (Job W V V)) (w : W),
      (((Job.together jobs).launch w).1.isReady = false ↔
        ∃ l ∈ Job.starts jobs w, l.isReady = false) ∧
      ((Job.together jobs).launch w).2 = Job.worldAfter jobs w := by
  refine ⟨?_, fun α β j f w => Job.suspended_bind_iff j f w, ?_, ?_⟩
  · intro l words p c _ hprompt w
    have hready := p.prompt hprompt w
    cases hl : (p.job.launch w).1 with
    | settled result => exact ⟨result, (p.job.launch w).2, Prod.ext hl rfl⟩
    | suspended poll =>
      rw [hl] at hready
      cases hready
  · intro jobs w
    exact ⟨Job.suspended_sequence_iff jobs w, fun i => Job.world_sequence⟩
  · intro jobs w
    obtain ⟨hworld, hready⟩ := Job.launch_together jobs w
    refine ⟨?_, hworld⟩
    rw [hready]
    simp

namespace Demo.Sleep

/-- Naps are refused. -/
def refuseNaps (rule : Rule Name Unit Value) (_ : List Value) : Except Error Value :=
  if rule.keyword = "sleep" then .error (.handler "no time to sleep") else .ok .rested

/-- The language without waiting, in which naps are refused. -/
def restless : Language Name (List (Recorded.Event Value)) Value :=
  (language 1).recorded refuseNaps fun _ _ => .immediate

theorem prompt_restless (words : List String) {p : Program Name (List (Recorded.Event Value)) Value}
    {c : Cursor} (h : restless.parse words = .accepted p c) :
    ∀ call ∈ p.calls, call.rule.Prompt := by
  intro call hcall
  obtain ⟨name, rule, e⟩ := Language.calls_recorded h call hcall
  rw [e]
  exact (Recorded.Rule.prompt_iff _).mpr rfl

end Demo.Sleep

/-- Two naps at once are both refused at once, and the first refusal is the result. -/
theorem launch_waits_only_if_needed_naps :
    ∃ p, Demo.Sleep.restless.parse ["parallel", "sleep", "sleep"] =
        .accepted p ⟨["parallel", "sleep", "sleep"], 3⟩ ∧
      (∀ call ∈ p.calls, call.rule.Prompt) ∧
      ∃ w, p.job.launch [] = (.settled (.error (.handler "no time to sleep")), w) := by
  have hprompt := Demo.Sleep.prompt_restless ["parallel", "sleep", "sleep"] rfl
  refine ⟨_, rfl, hprompt, ?_⟩
  obtain ⟨result, w, h⟩ := launch_waits_only_if_needed.1 Demo.Sleep.restless
    ["parallel", "sleep", "sleep"] _ _ rfl hprompt []
  obtain rfl : result = .error (.handler "no time to sleep") := by
    have hresult := congrArg (fun launched => launched.1.result?) h
    exact (Option.some.inj hresult).symm
  exact ⟨w, h⟩

end Parlance
