import Parlance.Demo.Sleep
import Parlance.Proofs.Reading.Tree
import Parlance.Proofs.Running.Causality

/-
  How programs end. The value of a program that has one is put together from the values that its
  calls have in the log (`Program.value_of_has`), and when a run is over no call is still under way
  (`Program.finished_of_has`). In an accepted program no two calls share a keyword, since a keyword
  has its position (`Language.nodup_keywords`).

  `calls_keep_their_order` puts this together with what is known of logs, for every schedule.
-/

namespace Parlance

variable {ι W V : Type}

namespace Program

/-! ## Values of programs -/

/-- In the log, the values of the calls are those that `result` gives for their arguments. -/
def Agrees (result : Rule ι W V → List V → Except Error V) (calls : List (Call ι W V))
    (log : List (Note V)) : Prop :=
  ∀ call ∈ calls, ∀ args value, .called call.keyword args ∈ log →
    .returned call.keyword value ∈ log → result call.rule args = .ok value

section

variable {result : Rule ι W V → List V → Except Error V}

theorem Agrees.mono {calls calls' : List (Call ι W V)} {log log' : List (Note V)}
    (h : Agrees result calls log) (hcalls : calls' ⊆ calls) (hlog : log' ⊆ log) :
    Agrees result calls' log' :=
  fun call hcall args value hc hr =>
    h call (hcalls hcall) args value (hlog hc) (hlog hr)

mutual

/-- A program that has a value has the value that its calls give it. -/
theorem value_of_has (p : Program ι W V) {log : List (Note V)} {value : V}
    (h : p.observed.Has log (some (.ok value))) (hlog : Agrees result p.calls log) :
    p.value result = .ok value := by
  match p with
  | literal tag token value =>
    obtain ⟨-, hvalue⟩ := Job.has_pure h
    cases hvalue
    rw [Program.value]
  | call tag keyword rule args =>
    rw [calls] at hlog
    rw [observed, jobWith, Job.arguments_eq_sequence] at h
    cases Job.has_bind h with
    | @next values log₁ log₂ _ hargs hcall =>
      obtain ⟨values', hvalues, rfl⟩ := valueAll_of_sequence args hargs
        (hlog.mono (List.subset_append_left _ _) (List.subset_append_left _ _))
      rw [Program.value, hvalues]
      cases Rule.has_observed hcall with
      | ok => exact hlog ⟨keyword, rule, args⟩ List.mem_append_cons_self _ _ (by simp) (by simp)
  | list tag r items exit =>
    rw [calls] at hlog
    rw [observed, jobWith] at h
    cases hmode : r.mode with
    | sequential =>
      rw [hmode] at h
      obtain ⟨values, hitems, rfl⟩ := Job.has_map_ok h
      obtain ⟨values', hvalues, rfl⟩ := valueAll_of_sequence items hitems hlog
      rw [Program.value, hvalues]
      rfl
    | joined =>
      rw [hmode] at h
      obtain ⟨values, hitems, rfl⟩ := Job.has_map_ok h
      obtain ⟨results, hresults, hend⟩ := Job.has_together hitems
      rcases hend with hend | ⟨error, hend, -, -⟩ | ⟨values', hend, rfl⟩ <;> cases hend
      rw [Program.value, valueAll_of_hasAll items hresults hlog]
      rfl
termination_by structural p

/-- Programs one after the other have the values that their calls give them, behind the values that
were there before. -/
theorem valueAll_of_sequence (ps : List (Program ι W V)) {log : List (Note V)}
    {before values : List V}
    (h : (Job.sequenceFrom before (jobAllWith Rule.observed ps)).Has log (some (.ok values)))
    (hlog : Agrees result (callsAll ps) log) :
    ∃ values', valueAll result ps = .ok values' ∧ values = before ++ values' := by
  match ps with
  | [] =>
    obtain ⟨-, hvalues⟩ := Job.has_pure h
    cases hvalues
    exact ⟨[], by rw [valueAll], (List.append_nil _).symm⟩
  | p :: rest =>
    rw [callsAll] at hlog
    rw [jobAllWith, Job.sequenceFrom] at h
    cases Job.has_bind h with
    | @next value log₁ log₂ _ hp hrest =>
      have hvalue := value_of_has p hp
        (hlog.mono (List.subset_append_left _ _) (List.subset_append_left _ _))
      obtain ⟨values', hvalues, rfl⟩ := valueAll_of_sequence rest hrest
        (hlog.mono (List.subset_append_right _ _) (List.subset_append_right _ _))
      refine ⟨value :: values', ?_, by rw [List.append_assoc, List.singleton_append]⟩
      rw [valueAll, hvalue, hvalues]
      rfl
termination_by structural ps

/-- Programs side by side have the values that their calls give them. -/
theorem valueAll_of_hasAll (ps : List (Program ι W V)) {log : List (Note V)} {values : List V}
    (h : Job.HasAll (jobAllWith Rule.observed ps) log
      (values.map fun value => some (.ok value)))
    (hlog : Agrees result (callsAll ps) log) : valueAll result ps = .ok values := by
  match ps with
  | [] =>
    obtain ⟨ts, hr, hvalues⟩ := h
    cases hr
    rw [valueAll, List.map_eq_nil_iff.mp hvalues.symm]
  | p :: rest =>
    rw [callsAll] at hlog
    obtain ⟨log₁, log₂, outcome, outcomes, hs, hp, hrest, hvalues⟩ := Job.hasAll_cons h
    obtain ⟨value, values', rfl, rfl, rfl⟩ := List.map_eq_cons_iff.mp hvalues
    have hvalue := value_of_has p hp
      (hlog.mono (List.subset_append_left _ _) hs.left_subset)
    have hrestValues := valueAll_of_hasAll rest hrest
      (hlog.mono (List.subset_append_right _ _) hs.right_subset)
    rw [valueAll, hvalue, hrestValues]
    rfl
termination_by structural ps

end

end

/-! ## Runs that are over -/

/-- Every call that was made has its value, or its handler may fail. -/
def Finished (calls : List (Call ι W V)) (log : List (Note V)) : Prop :=
  ∀ keyword args, .called keyword args ∈ log → keyword ∈ returnsIn log ∨
    ∃ call ∈ calls, call.keyword = keyword ∧ call.rule.MayFail args

theorem Finished.mono {calls calls' : List (Call ι W V)} {log : List (Note V)}
    (h : Finished calls log) (hcalls : calls ⊆ calls') : Finished calls' log := by
  intro keyword args hc
  rcases h keyword args hc with hr | ⟨call, hcall, hfail⟩
  · exact .inl hr
  · exact .inr ⟨call, hcalls hcall, hfail⟩

theorem Finished.shuffle {calls₁ calls₂ : List (Call ι W V)} {log₁ log₂ log : List (Note V)}
    (h₁ : Finished calls₁ log₁) (h₂ : Finished calls₂ log₂) (hs : Shuffle log₁ log₂ log) :
    Finished (calls₁ ++ calls₂) log := by
  intro keyword args hc
  have hreturns := hs.returnsIn_perm.symm.subset
  rcases List.mem_append.mp (hs.perm.subset hc) with hc | hc
  · rcases h₁ keyword args hc with hr | ⟨call, hcall, hfail⟩
    · exact .inl (hreturns (List.mem_append_left _ hr))
    · exact .inr ⟨call, List.mem_append_left _ hcall, hfail⟩
  · rcases h₂ keyword args hc with hr | ⟨call, hcall, hfail⟩
    · exact .inl (hreturns (List.mem_append_right _ hr))
    · exact .inr ⟨call, List.mem_append_right _ hcall, hfail⟩

theorem finished_call {keyword : Token} {rule : Rule ι W V} {args : List V}
    {progs : List (Program ι W V)} {log : List (Note V)} {r : Except Error V}
    (h : (Rule.observed keyword rule args).Has log (some r)) :
    Finished [⟨keyword, rule, progs⟩] log := by
  intro keyword' args' hc
  cases Rule.has_observed h with
  | failed hfail =>
    cases List.mem_singleton.mp hc
    exact .inr ⟨_, List.mem_singleton_self _, rfl, hfail⟩
  | ok =>
    simp only [List.mem_cons, List.not_mem_nil, or_false, reduceCtorEq] at hc
    cases hc
    exact .inl List.mem_cons_self

mutual

/-- When the run of a program is over, none of its calls is still under way. -/
theorem finished_of_has (p : Program ι W V) {log : List (Note V)} {r : Except Error V}
    (h : p.observed.Has log (some r)) : Finished p.calls log := by
  match p with
  | literal tag token value =>
    obtain ⟨rfl, -⟩ := Job.has_pure h
    intro keyword args hc
    cases hc
  | call tag keyword rule args =>
    rw [calls]
    rw [observed, jobWith, Job.arguments_eq_sequence] at h
    cases Job.has_bind h with
    | failed hargs => exact (finished_of_sequence args hargs).mono (List.subset_append_left _ _)
    | next hargs hcall =>
      exact (finished_of_sequence args hargs).shuffle (finished_call hcall) (.in_turn _ _)
  | list tag r items exit =>
    rw [calls]
    rw [observed, jobWith] at h
    cases hmode : r.mode with
    | sequential =>
      rw [hmode] at h
      obtain ⟨r', hitems⟩ := Job.has_map_some h
      exact finished_of_sequence items hitems
    | joined =>
      rw [hmode] at h
      obtain ⟨r', hitems⟩ := Job.has_map_some h
      obtain ⟨results, hresults, hend⟩ := Job.has_together hitems
      refine finished_of_hasAll items hresults ?_
      rcases hend with hend | ⟨error, -, hnone, -⟩ | ⟨values, -, rfl⟩
      · cases hend
      · exact hnone
      · simp
termination_by structural p

theorem finished_of_sequence (ps : List (Program ι W V)) {log : List (Note V)} {before : List V}
    {r : Except Error (List V)}
    (h : (Job.sequenceFrom before (jobAllWith Rule.observed ps)).Has log (some r)) :
    Finished (callsAll ps) log := by
  match ps with
  | [] =>
    obtain ⟨rfl, -⟩ := Job.has_pure h
    intro keyword args hc
    cases hc
  | p :: rest =>
    rw [callsAll]
    rw [jobAllWith, Job.sequenceFrom] at h
    cases Job.has_bind h with
    | failed hp => exact (finished_of_has p hp).mono (List.subset_append_left _ _)
    | next hp hrest =>
      exact (finished_of_has p hp).shuffle (finished_of_sequence rest hrest) (.in_turn _ _)
termination_by structural ps

theorem finished_of_hasAll (ps : List (Program ι W V)) {log : List (Note V)}
    {results : List (Option (Except Error V))}
    (h : Job.HasAll (jobAllWith Rule.observed ps) log results) (hover : none ∉ results) :
    Finished (callsAll ps) log := by
  match ps with
  | [] =>
    obtain ⟨ts, hr, -⟩ := h
    cases hr
    intro keyword args hc
    cases hc
  | p :: rest =>
    rw [callsAll]
    obtain ⟨log₁, log₂, result, results', hs, hp, hrest, rfl⟩ := Job.hasAll_cons h
    rw [List.mem_cons, not_or] at hover
    obtain ⟨r, rfl⟩ := Option.ne_none_iff_exists'.mp (Ne.symm hover.1)
    exact (finished_of_has p hp).shuffle (finished_of_hasAll rest hrest hover.2) hs
termination_by structural ps

end

/-! ## Different calls have different keywords -/

mutual

theorem keywords_subperm (p : Program ι W V) : p.keywords.Subperm p.trace.tokens := by
  match p with
  | literal tag token value => exact List.nil_subperm
  | call tag keyword rule args =>
    have htokens : (call tag keyword rule args).trace.tokens =
        keyword :: Trace.tokensAll (traceAll args) := by
      rw [trace, Trace.prepend, Trace.tokens, Trace.tokensAll, Trace.tokens]
      rfl
    rw [htokens, keywords_call, List.perm_append_comm.subperm_right]
    exact (List.subperm_cons keyword).mpr (keywordsAll_subperm args)
  | list tag r items exit =>
    rw [keywords_list, trace, Trace.tokens, Trace.tokensAll_append]
    exact (keywordsAll_subperm items).trans (List.sublist_append_left _ _).subperm
termination_by structural p

theorem keywordsAll_subperm (ps : List (Program ι W V)) :
    (keywordsAll ps).Subperm (Trace.tokensAll (traceAll ps)) := by
  match ps with
  | [] => exact List.nil_subperm
  | p :: rest =>
    rw [keywordsAll_cons, traceAll, Trace.tokensAll]
    exact (keywords_subperm p).append (keywordsAll_subperm rest)
termination_by structural ps

end

end Program

theorem nodup_of_subperm {α : Type} {as bs : List α} (h : as.Subperm bs) (hbs : bs.Nodup) :
    as.Nodup := by
  obtain ⟨cs, hperm, hsub⟩ := h
  exact hperm.nodup_iff.mp (hsub.nodup hbs)

/-- The calls of an accepted program are told apart by the positions of their keywords. -/
theorem Language.nodup_keywords {l : Language ι W V} {words : List String} {p : Program ι W V}
    {c : Cursor} (h : l.parse words = .accepted p c) : p.keywords.Nodup := by
  obtain ⟨hread, -⟩ := Language.parse_eq_accepted.mp h
  obtain ⟨-, hcovers⟩ := hread.wellFormed (Cursor.within_ofTokens words) rfl
  have hpositions : (p.trace.tokens.map Token.position).Nodup := by
    rw [hcovers.spells.map_position]
    exact List.nodup_range'
  exact nodup_of_subperm p.keywords_subperm (List.Nodup.of_map _ hpositions)

/-- Unless a primitive poses as a keyword, the calls of an accepted program are the keywords of its
trace. -/
theorem Language.keywords_trace {l : Language ι W V} {words : List String} {p : Program ι W V}
    {c : Cursor} (h : l.parse words = .accepted p c)
    (hprim : ∀ prim, l.vocabulary.Reachable l.root (.prim prim) → prim.tag ≠ "fn") :
    (l.trace p).keywords = p.keywords := by
  have hevery : p.Every (· ≠ "fn") fun _ => True :=
    (Language.builds_of_parse h).every hprim (fun _ _ _ => trivial) (.refl _ _)
  have hall : Program.EveryAll (· ≠ "fn") (fun _ => True) [p] := ⟨hevery, trivial⟩
  have htop : Trace.keyword? [p.trace] = none := Program.keyword?_traceAll hall "" none
  rw [Language.trace, Trace.keywords, htop, Trace.keywordsAll, Trace.keywordsAll,
    p.keywords_trace hevery]
  simp [Program.keywords]

/-- A run that is over has a value if and only if every call that was made has one, and then all
calls were made. -/
theorem Settles.ok_iff {α : Type} {keywords : List Token} {order : Token → Token → Prop}
    {log : List (Note V)} {r : Except Error α} (h : Settles keywords log (some r))
    (hcausal : Causal keywords order log) (hnodup : (callsIn log).Nodup) :
    ((∃ value, r = .ok value) ↔ callsIn log ⊆ returnsIn log) ∧
      ∀ value, r = .ok value → (callsIn log).Perm keywords := by
  cases h with
  | @ok value hperm =>
    have hcalls : (callsIn log).Perm keywords := by
      refine hcausal.calls.perm_of_length_le ?_
      rw [← hperm.length_eq]
      exact hcausal.returns.length_le
    exact ⟨⟨fun _ => (hcalls.trans hperm.symm).subset, fun _ => ⟨value, rfl⟩⟩, fun _ _ => hcalls⟩
  | failed hlt =>
    refine ⟨⟨fun ⟨_, hr⟩ => (by cases hr), fun hsub => ?_⟩, fun _ hr => by cases hr⟩
    have hle := (hnodup.subperm hsub).length_le
    omega

/-- Every call is made at most once and in its order, on every schedule. Let a program be accepted.
Its calls are told apart by their keywords, and are those of the trace unless a primitive poses as
a keyword. Let it be run with the naps on which it waits ended in any order and at any times, as
`run` ends them in one order. From every moment on, the run can be led to its end. And at every
moment the program with notes is where the program is, and has a log in which no call is made
twice, and none before the calls that it waits for have their values.

When the run is over, no call is under way: those that were made have their values, unless their
handlers may fail. The run has a value if and only if all of them have. Then all calls were made;
and if the values of calls are functions of their arguments, the value is that of the program, which
does not depend on the schedule. -/
theorem calls_keep_their_order (l : Language ι W V) (words : List String) (p : Program ι W V)
    (c : Cursor) (h : l.parse words = .accepted p c) :
    p.keywords.Nodup ∧
    ((∀ prim, l.vocabulary.Reachable l.root (.prim prim) → prim.tag ≠ "fn") →
      (l.trace p).keywords = p.keywords) ∧
    (∀ m : Machine W, ∃ schedule,
      p.job.scheduled m schedule = (.done (p.job.run m).1, (p.job.run m).2)) ∧
    ∀ (m : Machine W) (schedule : List (Nat × Nat)),
      (∃ more, (p.job.scheduled m (schedule ++ more)).1.result?.isSome) ∧
      ∃ log,
        (p.observed.scheduled (m.withLog []) schedule).2 =
          (p.job.scheduled m schedule).2.withLog log ∧
        (p.observed.scheduled (m.withLog []) schedule).1.result? =
          (p.job.scheduled m schedule).1.result? ∧
        (callsIn log).Nodup ∧ callsIn log ⊆ p.keywords ∧
        (∀ first second, p.Precedes first second → Awaits log first second) ∧
        ∀ r, (p.job.scheduled m schedule).1.result? = some r →
          Program.Finished p.calls log ∧
          ((∃ value, r = .ok value) ↔ callsIn log ⊆ returnsIn log) ∧
          ∀ value, r = .ok value → (callsIn log).Perm p.keywords ∧
            ∀ result, Program.Agrees result p.calls log → p.value result = .ok value := by
  have hkeywords := Language.nodup_keywords h
  refine ⟨hkeywords, Language.keywords_trace h, p.job.exists_scheduled_eq_run, fun m schedule => ?_⟩
  refine ⟨p.job.exists_ending m schedule, ?_⟩
  obtain ⟨log, hmachine, hresult, hhas⟩ := p.observes.has_scheduled m schedule
  obtain ⟨hcausal, hsettles⟩ := p.keeps hkeywords _ _ hhas
  have hnodup := nodup_of_subperm hcausal.calls hkeywords
  refine ⟨log, hmachine, hresult, hnodup, hcausal.calls.subset, fun _ _ => hcausal.awaits, ?_⟩
  intro r hr
  rw [hr] at hhas hsettles
  obtain ⟨hok, hcalls⟩ := hsettles.ok_iff hcausal hnodup
  refine ⟨p.finished_of_has hhas, hok,
    fun value hvalue => ⟨hcalls value hvalue, fun result hagrees => ?_⟩⟩
  rw [hvalue] at hhas
  exact p.value_of_has hhas hagrees

namespace Demo.Sleep

/-- Two naps at once. -/
def twoNaps : Program Name Unit Value :=
  .call "run" ⟨"parallel", 0⟩
    ⟨"parallel", [naps .joined], fun args =>
      .pure (.report ((napCount args).repr ++ " naps at once"))⟩
    [.list "p.sleep" ⟨.joined, none, fun values => .naps values.length⟩
      [.call "sleep" ⟨"sleep", 1⟩ (napRule 1) [], .call "sleep" ⟨"sleep", 2⟩ (napRule 1) []] none]

/-- The log of two naps at once, of which the second is over first. -/
def twoNapsLog : List (Note Value) :=
  [.called ⟨"sleep", 1⟩ [], .called ⟨"sleep", 2⟩ [], .returned ⟨"sleep", 2⟩ .rested,
    .returned ⟨"sleep", 1⟩ .rested, .called ⟨"parallel", 0⟩ [.naps 2],
    .returned ⟨"parallel", 0⟩ (.report "2 naps at once")]

/-- What the rules give. -/
def outcome (rule : Rule Name Unit Value) (args : List Value) : Except Error Value :=
  if rule.keyword = "sleep" then .ok .rested
  else .ok (.report ((napCount args).repr ++ " naps at once"))

theorem agrees_twoNapsLog : Program.Agrees outcome twoNaps.calls twoNapsLog := by
  intro call hcall args value hcalled hreturned
  have hcalls : twoNaps.calls = [⟨⟨"sleep", 1⟩, napRule 1, []⟩, ⟨⟨"sleep", 2⟩, napRule 1, []⟩,
      ⟨⟨"parallel", 0⟩, _, _⟩] := rfl
  rw [hcalls] at hcall
  simp only [List.mem_cons, List.not_mem_nil, or_false] at hcall
  rcases hcall with rfl | rfl | rfl
  · obtain rfl : value = .rested := by simpa [twoNapsLog] using hreturned
    rfl
  · obtain rfl : value = .rested := by simpa [twoNapsLog] using hreturned
    rfl
  · obtain rfl : args = [.naps 2] := by simpa [twoNapsLog] using hcalled
    obtain rfl : value = .report "2 naps at once" := by simpa [twoNapsLog] using hreturned
    rfl

end Demo.Sleep

/-- Two naps side by side, of which the second ends first. -/
theorem calls_keep_their_order_naps :
    (Demo.Sleep.language 1).parse ["parallel", "sleep", "sleep"] =
        .accepted Demo.Sleep.twoNaps ⟨["parallel", "sleep", "sleep"], 3⟩ ∧
      (Demo.Sleep.twoNaps.observed.scheduled (({ world := () } : Machine Unit).withLog [])
          [(1, 1), (0, 1)]).2.world.2 = Demo.Sleep.twoNapsLog ∧
      (callsIn Demo.Sleep.twoNapsLog).Perm Demo.Sleep.twoNaps.keywords ∧
      Awaits Demo.Sleep.twoNapsLog ⟨"sleep", 1⟩ ⟨"parallel", 0⟩ ∧
      Demo.Sleep.twoNaps.value Demo.Sleep.outcome = .ok (.report "2 naps at once") := by
  have hparse : (Demo.Sleep.language 1).parse ["parallel", "sleep", "sleep"] =
      .accepted Demo.Sleep.twoNaps ⟨["parallel", "sleep", "sleep"], 3⟩ := rfl
  obtain ⟨-, -, -, hrun⟩ := calls_keep_their_order (Demo.Sleep.language 1) _ _ _ hparse
  obtain ⟨-, log, hmachine, -, -, -, hawaits, hend⟩ := hrun { world := () } [(1, 1), (0, 1)]
  have hlog : Demo.Sleep.twoNapsLog = log := congrArg (fun m => m.world.2) hmachine
  subst hlog
  obtain ⟨-, -, hok⟩ := hend (.ok (.report "2 naps at once")) rfl
  obtain ⟨hcalls, hvalue⟩ := hok _ rfl
  exact ⟨hparse, rfl, hcalls, hawaits _ _ (.own (by decide)),
    hvalue _ Demo.Sleep.agrees_twoNapsLog⟩

end Parlance
