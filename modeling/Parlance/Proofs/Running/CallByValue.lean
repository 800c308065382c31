import Parlance.Demo.Toolbox
import Parlance.Language.Recorded
import Parlance.Proofs.Reading.Variation
import Parlance.Proofs.Running.Calls
import Parlance.Proofs.Running.Chain

/-
  Running a program is to evaluate it from left to right, arguments before calls. The rules of a
  language are made to record their calls and to give results that are functions of the arguments,
  at once or after naps, in any mixture. `run_is_call_by_value` says that then the recorded calls
  are those of the program in post-order, up to the first that fails, that the result is the value
  of the program, and that neither depends on the naps.

  Without a joined repetition there is nothing that runs side by side, so that `Job.run_bind`
  takes every run apart into the runs of its calls.
-/

namespace Parlance

variable {ι W V : Type}

/-! ## Recorded languages -/

namespace Recorded

/-- The keyword and the arguments of a call that was logged. -/
def Event.call? : Event V → Option (String × List V)
  | called keyword args => some (keyword, args)
  | finished .. | failed .. => none

/-- The calls in a log, in order. -/
def calls (log : List (Event V)) : List (String × List V) := log.filterMap Event.call?

theorem calls_append (log log' : List (Event V)) : calls (log ++ log') = calls log ++ calls log' :=
  List.filterMap_append

theorem call?_ofResult (keyword : String) (time : Nat) (result : Except Error V) :
    (Event.ofResult keyword time result).call? = none := by
  cases result <;> rfl

theorem run_record (e : Event V) (m : Machine (List (Event V))) :
    (record e).run m = (.ok (), { m with world := m.world ++ [e] }) :=
  Job.run_update _ m

/-- Whatever the binding, a handler logs one call, and gives the result. -/
theorem Rule.run_handler (rule : Rule ι V) (args : List V) (m : Machine (List (Event V))) :
    ∃ m', (rule.handler args).run m = (rule.result args, m') ∧
      calls m'.world = calls m.world ++ [(rule.keyword, args)] := by
  have hcalled : ∀ log : List (Event V),
      calls (log ++ [.called rule.keyword args]) = calls log ++ [(rule.keyword, args)] := by
    intro log
    rw [calls_append]
    rfl
  unfold Rule.handler
  rw [Job.run_bind, run_record]
  cases rule.binding with
  | immediate => exact ⟨_, Job.run_done _ _, hcalled _⟩
  | delayed delay =>
    dsimp only
    obtain ⟨time, m₁, hrun, hworld⟩ := Job.run_sleep (V := V) (delay args)
      { m with world := m.world ++ [.called rule.keyword args] }
    rw [Job.run_bind, hrun]
    dsimp only
    rw [Job.run_bind, run_record]
    refine ⟨_, Job.run_done _ _, ?_⟩
    have hended : calls [Event.ofResult rule.keyword time (rule.result args)] = [] := by
      rw [calls, List.filterMap_cons, call?_ofResult, List.filterMap_nil]
    rw [calls_append, hended, List.append_nil, hworld]
    exact hcalled _

end Recorded

/-- The rule with its calls recorded, and with another result. -/
def Rule.recorded (result : List V → Except Error V) (binding : Recorded.Binding V)
    (rule : Rule ι W V) : Rule ι (List (Recorded.Event V)) V :=
  Recorded.Rule.toRule ⟨rule.keyword, rule.args, result, binding⟩

/-- The vocabulary with recorded rules. The result of a call depends on its rule, and when it is
there on the type and the rule. -/
def Vocabulary.recorded (result : Rule ι W V → List V → Except Error V)
    (binding : ι → Rule ι W V → Recorded.Binding V) (v : Vocabulary ι W V) :
    Vocabulary ι (List (Recorded.Event V)) V where
  tag := v.tag
  table := fun name => (v.table name).map fun t =>
    { rules := t.rules.map fun rule => rule.recorded (result rule) (binding name rule)
      fallback := t.fallback
      nodup_keywords := by rw [List.map_map]; exact t.nodup_keywords }
  names := v.names
  mem_names := fun i h => v.mem_names i (by simpa using h)

/-- The language with recorded rules. -/
def Language.recorded (result : Rule ι W V → List V → Except Error V)
    (binding : ι → Rule ι W V → Recorded.Binding V) (l : Language ι W V) :
    Language ι (List (Recorded.Event V)) V :=
  ⟨l.name, l.root, l.vocabulary.recorded result binding⟩

/-- The second rule is the first, recorded with some binding. -/
def Rule.Records (result : Rule ι W V → List V → Except Error V) (rule : Rule ι W V)
    (rule' : Rule ι (List (Recorded.Event V)) V) : Prop :=
  ∃ binding, rule' = rule.recorded (result rule) binding

theorem Expr.Varies.eq {e e' : Expr ι V} (h : Expr.Varies Eq e e') : e' = e := by
  induction h with
  | prim => rfl
  | type => rfl
  | rep hr _ ih => rw [← hr, ih]

theorem Language.varies_recorded (result : Rule ι W V → List V → Except Error V)
    (binding : ι → Rule ι W V → Recorded.Binding V) (l : Language ι W V) :
    l.Varies (Rule.Records result) Eq (l.recorded result binding) := by
  refine ⟨rfl, .refl l.root, rfl, rfl, fun name => ?_, fun h => by rw [h]⟩
  show Option.Rel _ _ ((l.vocabulary.table name).map _)
  cases l.vocabulary.table name with
  | none => exact .none
  | some t =>
    refine .some ⟨?_, ?_⟩
    · rw [List.forall₂_map_right_iff, List.forall₂_same]
      exact fun rule _ => ⟨rfl, List.forall₂_same.mpr fun e _ => .refl e, _, rfl⟩
    · dsimp only
      cases t.fallback with
      | none => exact .none
      | some e => exact .some (.refl e)

/-! ## Running what is recorded -/

section

variable {tag : ι → String} {result : Rule ι W V → List V → Except Error V}
  {T : String → Prop}

mutual

theorem Program.Varies.trace_eq {p : Program ι W V}
    {p' : Program ι (List (Recorded.Event V)) V}
    (h : Program.Varies tag (Rule.Records result) Eq p p') : p'.trace = p.trace := by
  match h with
  | .literal => rfl
  | .call _ _ hargs => rw [trace, trace, hargs.traceAll_eq]
  | .list hrep hitems =>
    cases hrep.eq
    rw [trace, trace, hitems.traceAll_eq]

theorem Program.VariesAll.traceAll_eq {ps : List (Program ι W V)}
    {ps' : List (Program ι (List (Recorded.Event V)) V)}
    (h : Program.VariesAll tag (Rule.Records result) Eq ps ps') : traceAll ps' = traceAll ps := by
  match h with
  | .nil => rfl
  | .cons hp hps => rw [traceAll, traceAll, hp.trace_eq, hps.traceAll_eq]

end

theorem Program.map_nil_append (values : Except Error (List V)) :
    values.map ([] ++ ·) = values := by
  cases values <;> rfl

mutual

/-- A recorded program runs to its value, and logs its calls up to the first that fails. -/
theorem Program.Varies.run {p : Program ι W V} {p' : Program ι (List (Recorded.Event V)) V}
    (h : Program.Varies tag (Rule.Records result) Eq p p')
    (hp : p.Every T (·.mode = .sequential)) (m : Machine (List (Recorded.Event V))) :
    ∃ entries m', p'.job.run m = (p.value result, m') ∧
      Recorded.calls m'.world = Recorded.calls m.world ++ entries ∧
      List.Forall₂ (Call.Logs result) (Call.made result p.calls) entries := by
  match h with
  | .literal => exact ⟨[], m, by rw [job, jobWith, value, Job.run_pure], by simp, .nil⟩
  | @Program.Varies.call _ _ _ _ _ _ _ _ keyword rule rule' args args' hk hrule hargs =>
    obtain ⟨entries, m₁, hrun, hlog, hmade⟩ := hargs.run hp [] m
    have hends := ends_valueAll result args
    rw [Program.map_nil_append] at hrun
    rw [job, jobWith, Job.arguments_eq_sequence, Job.run_bind, Job.sequence, hrun, value, calls]
    cases hv : valueAll result args with
    | error error =>
      rw [hv] at hends
      exact ⟨entries, m₁, rfl, hlog, by rwa [hends.made_append_error]⟩
    | ok values =>
      rw [hv] at hends
      obtain ⟨-, -, binding, rfl⟩ := hrule
      obtain ⟨m₂, hcall, hlog₂⟩ := Recorded.Rule.run_handler
        ⟨rule.keyword, rule.args, result rule, binding⟩ values m₁
      refine ⟨entries ++ [(rule.keyword, values)], m₂, hcall, ?_, ?_⟩
      · rw [hlog₂, hlog, List.append_assoc]
      · rw [hends.made_append, Call.made_singleton]
        exact List.rel_append hmade (.cons ⟨hk.symm, hv⟩ .nil)
  | @Program.Varies.list _ _ _ _ _ _ _ r _ _ _ items items' _ hrep hitems =>
    cases hrep.eq
    obtain ⟨entries, m₁, hrun, hlog, hmade⟩ := hitems.run hp.2 [] m
    refine ⟨entries, m₁, ?_, hlog, by rwa [calls]⟩
    rw [Program.map_nil_append] at hrun
    rw [job, jobWith]
    simp only [hp.1]
    rw [Job.run_map, Job.sequence, hrun, value]

/-- Programs that are done in sequence run to their values, which come behind those before. -/
theorem Program.VariesAll.run {ps : List (Program ι W V)}
    {ps' : List (Program ι (List (Recorded.Event V)) V)}
    (h : Program.VariesAll tag (Rule.Records result) Eq ps ps')
    (hps : EveryAll T (·.mode = .sequential) ps) (before : List V)
    (m : Machine (List (Recorded.Event V))) :
    ∃ entries m',
      (Job.sequenceFrom before (jobAllWith (fun _ rule => rule.handler) ps')).run m =
        ((valueAll result ps).map (before ++ ·), m') ∧
      Recorded.calls m'.world = Recorded.calls m.world ++ entries ∧
      List.Forall₂ (Call.Logs result) (Call.made result (callsAll ps)) entries := by
  match h with
  | .nil =>
    refine ⟨[], m, ?_, by simp, .nil⟩
    rw [jobAllWith, Job.sequenceFrom, Job.run_pure, valueAll]
    simp [Except.map]
  | @Program.VariesAll.cons _ _ _ _ _ _ _ p p' ps ps' hp hrest =>
    obtain ⟨entries, m₁, hrun, hlog, hmade⟩ := hp.run hps.1 m
    have hends := ends_value result p
    rw [job] at hrun
    rw [jobAllWith, Job.sequenceFrom, Job.run_bind, hrun, valueAll, callsAll]
    cases hv : p.value result with
    | error error =>
      rw [hv] at hends
      exact ⟨entries, m₁, rfl, hlog, by rwa [hends.made_append_error]⟩
    | ok value =>
      rw [hv] at hends
      obtain ⟨entries₂, m₂, hrun₂, hlog₂, hmade₂⟩ := hrest.run hps.2 (before ++ [value]) m₁
      refine ⟨entries ++ entries₂, m₂, ?_, ?_, ?_⟩
      · refine hrun₂.trans ?_
        cases valueAll result ps with
        | ok values => simp [Except.bind, Except.map]
        | error error => rfl
      · rw [hlog₂, hlog, List.append_assoc]
      · rw [hends.made_append]
        exact List.rel_append hmade hmade₂

end

end

/-- No repetition of the language is joined. -/
def Language.Sequential (l : Language ι W V) : Prop :=
  ∀ r child, l.vocabulary.Reachable l.root (.rep r child) → r.mode = .sequential

/-- Running a program of a language without joined repetitions is to evaluate it from left to
right, by value, whatever waits. Let the results of its rules be any functions of the arguments,
and let a list of words be accepted. There is one program that is read, whose calls in post-order
are the keywords of the trace unless a primitive poses as a keyword; and however results are bound
and whether the clock is frozen or not, the same calls are logged, with the values of their
arguments, up to the first that fails, and the result is that failure or the value. -/
theorem run_is_call_by_value (l : Language ι W V) (hl : l.Sequential)
    (result : Rule ι W V → List V → Except Error V)
    (binding : ι → Rule ι W V → Recorded.Binding V) (words : List String)
    (p : Program ι (List (Recorded.Event V)) V) (c : Cursor)
    (h : (l.recorded result binding).parse words = .accepted p c) :
    ∃ q, l.parse words = .accepted q c ∧
      ((∀ prim, l.vocabulary.Reachable l.root (.prim prim) → prim.tag ≠ "fn") →
        (l.trace q).keywords = q.calls.map Call.keyword) ∧
      Call.Ends result q.calls (q.value result) ∧
      ∀ (binding' : ι → Rule ι W V → Recorded.Binding V) (frozen : Bool), ∃ p',
        (l.recorded result binding').parse words = .accepted p' c ∧
        (l.recorded result binding').trace p' = l.trace q ∧
        List.Forall₂ (Call.Logs result) (Call.made result q.calls)
          (Recorded.calls (Recorded.rehearse frozen p'.job).log) ∧
        (Recorded.rehearse frozen p'.job).result = q.value result := by
  have hagree := (l.varies_recorded result binding).parse words
  rw [h] at hagree
  obtain ⟨q, hq, -⟩ := hagree.eq_accepted
  have hbuilds := Language.builds_of_parse hq
  refine ⟨q, hq, ?_, q.ends_value result, ?_⟩
  · intro hprim
    have hevery : q.Every (· ≠ "fn") (·.mode = .sequential) := hbuilds.every hprim hl (.refl _ _)
    have hall : Program.EveryAll (· ≠ "fn") (·.mode = .sequential) [q] := ⟨hevery, trivial⟩
    have htop : Trace.keyword? [q.trace] = none := Program.keyword?_traceAll hall "" none
    rw [Language.trace, Trace.keywords, htop, Trace.keywordsAll, Trace.keywordsAll,
      q.keywords_trace hevery]
    simp
  · intro binding' frozen
    have hagree' := (l.varies_recorded result binding').parse words
    rw [hq] at hagree'
    obtain ⟨p', hp', hvaries⟩ := hagree'.accepted_eq
    have hevery : q.Every (fun _ => True) (·.mode = .sequential) :=
      hbuilds.every (fun _ _ => trivial) hl (.refl _ _)
    obtain ⟨entries, m, hrun, hlog, hmade⟩ := hvaries.run hevery { world := [], frozen := frozen }
    refine ⟨p', hp', ?_, ?_, ?_⟩
    · rw [Language.trace, Language.trace, hvaries.trace_eq]
      rfl
    · rw [Recorded.rehearse, hrun]
      dsimp only
      rwa [hlog]
    · rw [Recorded.rehearse, hrun]

namespace Demo.Toolbox

/-- The expressions of the language. -/
theorem reachable_cases {e : Expr Name Value} (h : vocabulary.Reachable (.type .command) e) :
    e = .type .command ∨ e = .type .source ∨ e = word ∨ e = words := by
  induction h with
  | refl => exact .inl rfl
  | tail _ hs ih =>
    cases hs with
    | argument ht hr he =>
      rcases ih with h | h | h | h <;> cases h <;> cases ht
      · have hrule := List.mem_singleton.mp (show _ ∈ commandRules FileStore.files from hr)
        rw [hrule] at he
        simp only [List.mem_cons, List.not_mem_nil, or_false] at he
        rcases he with rfl | rfl <;> simp
      · have hrule : _ ∈ sourceRules FileStore.files := hr
        simp only [sourceRules, List.mem_cons, List.not_mem_nil, or_false] at hrule
        rcases hrule with rfl | rfl | rfl <;>
          simp only [List.mem_cons, List.not_mem_nil, or_false] at he
        · simp [he]
        · simp [he]
        · rcases he with rfl | rfl <;> simp
    | silent hs =>
      cases hs with
      | fallback ht hf => rcases ih with h | h | h | h <;> cases h <;> cases ht <;> cases hf
      | item =>
        rcases ih with h | h | h | h <;> cases h
        exact .inr (.inr (.inl rfl))

theorem sequential_language : language.Sequential := by
  intro r child h
  rcases reachable_cases h with h | h | h | h
  · cases h
  · cases h
  · cases h
  · cases h
    rfl

/-- Joining gives its words, and writing is refused. -/
def refuseWriting (rule : Rule Name FileStore Value) (args : List Value) : Except Error Value :=
  if rule.keyword = "join" then .ok (gather args) else .error (.handler "refused")

end Demo.Toolbox

/-- The join is called, and then the writing, which is refused, whatever naps before its result. -/
theorem run_is_call_by_value_toolbox :
    ∃ q, Demo.Toolbox.language.parse ["writeFile", "out.txt", "join", ",", "a", "b"] =
        .accepted q ⟨["writeFile", "out.txt", "join", ",", "a", "b"], 6⟩ ∧
      ∀ (binding : Demo.Toolbox.Name → Rule Demo.Toolbox.Name FileStore Demo.Toolbox.Value →
          Recorded.Binding Demo.Toolbox.Value) (frozen : Bool), ∃ p,
        (Demo.Toolbox.language.recorded Demo.Toolbox.refuseWriting binding).parse
            ["writeFile", "out.txt", "join", ",", "a", "b"] =
          .accepted p ⟨["writeFile", "out.txt", "join", ",", "a", "b"], 6⟩ ∧
        List.Forall₂ (Call.Logs Demo.Toolbox.refuseWriting)
          (Call.made Demo.Toolbox.refuseWriting q.calls)
          (Recorded.calls (Recorded.rehearse frozen p.job).log) ∧
        (Recorded.rehearse frozen p.job).result = q.value Demo.Toolbox.refuseWriting := by
  obtain ⟨q, hq, -, -, hrun⟩ := run_is_call_by_value Demo.Toolbox.language
    Demo.Toolbox.sequential_language Demo.Toolbox.refuseWriting
    (fun _ _ => .delayed fun args => args.length)
    ["writeFile", "out.txt", "join", ",", "a", "b"] _ _ rfl
  refine ⟨q, hq, fun binding frozen => ?_⟩
  obtain ⟨p, hp, -, hlog, hresult⟩ := hrun binding frozen
  exact ⟨p, hp, hlog, hresult⟩

end Parlance
