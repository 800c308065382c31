import Mathlib.Data.List.Perm.Subperm
import Parlance.Proofs.Running.Calls
import Parlance.Proofs.Running.History

/-
  The order of calls. A program is observed by taking a note when a call is made and another when
  it has its value (`Program.observed`), and is run on any schedule. What must come before what is
  read off the program: the calls in the arguments of a call before the call, and of arguments, as
  of the items of a sequential list, the earlier before the later (`Program.Precedes`). The items
  of a joined list run side by side.

  A log is `Causal` if no call is made more often than the program has it, and none before its
  time. Logs that are causal stay so when they are put one behind the other or shuffled, as long as
  they are about different calls (`Causal.append`, `Causal.shuffle`). That is how programs are put
  together, so that whatever a program has logged is causal (`Program.keeps`).
-/

namespace Parlance

variable {ι W V : Type}

/-! ## Notes -/

/-- What is noted of a call: its arguments when it is made, and its value when it has one. -/
inductive Note (V : Type) where
  | called (keyword : Token) (args : List V)
  | returned (keyword : Token) (value : V)

/-- The keyword of a call that is made. -/
def Note.called? : Note V → Option Token
  | called keyword _ => some keyword
  | returned .. => none

/-- The keyword of a call that has its value. -/
def Note.returned? : Note V → Option Token
  | called .. => none
  | returned keyword _ => some keyword

/-- The keywords of the calls made, in order. -/
def callsIn (log : List (Note V)) : List Token := log.filterMap Note.called?

/-- The keywords of the calls that have their values, in order. -/
def returnsIn (log : List (Note V)) : List Token := log.filterMap Note.returned?

theorem mem_callsIn {log : List (Note V)} {keyword : Token} {args : List V}
    (h : .called keyword args ∈ log) : keyword ∈ callsIn log :=
  List.mem_filterMap.mpr ⟨_, h, rfl⟩

theorem mem_returnsIn {log : List (Note V)} {keyword : Token} :
    keyword ∈ returnsIn log ↔ ∃ value, .returned keyword value ∈ log := by
  rw [returnsIn, List.mem_filterMap]
  constructor
  · rintro ⟨note, hmem, hnote⟩
    cases note with
    | called _ _ => cases hnote
    | returned keyword' value =>
      cases hnote
      exact ⟨value, hmem⟩
  · rintro ⟨value, hmem⟩
    exact ⟨_, hmem, rfl⟩

namespace Shuffle

variable {log log₁ log₂ : List (Note V)}

theorem callsIn_perm (h : Shuffle log₁ log₂ log) :
    (callsIn log).Perm (callsIn log₁ ++ callsIn log₂) := by
  have hperm := h.perm.filterMap Note.called?
  rwa [List.filterMap_append] at hperm

theorem returnsIn_perm (h : Shuffle log₁ log₂ log) :
    (returnsIn log).Perm (returnsIn log₁ ++ returnsIn log₂) := by
  have hperm := h.perm.filterMap Note.returned?
  rwa [List.filterMap_append] at hperm

end Shuffle

/-! ## Causal logs -/

/-- Wherever the second call is made, the first has its value. -/
def Awaits (log : List (Note V)) (first second : Token) : Prop :=
  ∀ before args after, log = before ++ .called second args :: after →
    ∃ value, .returned first value ∈ before

/-- The calls in the log are some of those with the keywords, each at most as often as it is among
them; only calls that were made have values; and the order is kept. -/
structure Causal (keywords : List Token) (order : Token → Token → Prop) (log : List (Note V)) :
    Prop where
  calls : (callsIn log).Subperm keywords
  returns : (returnsIn log).Subperm (callsIn log)
  awaits {first second : Token} : order first second → Awaits log first second

/-- How the log of a run with a result looks: with a value, all of the calls have theirs; and with
a failure, there are calls without. -/
inductive Settles {α : Type} (keywords : List Token) (log : List (Note V)) :
    Option (Except Error α) → Prop where
  | waiting : Settles keywords log none
  | ok {value : α} : (returnsIn log).Perm keywords → Settles keywords log (some (.ok value))
  | failed {error : Error} : (returnsIn log).length < (callsIn log).length →
      Settles keywords log (some (.error error))

section

variable {keywords keywords₁ keywords₂ : List Token} {order order₁ order₂ : Token → Token → Prop}
  {log log₁ log₂ : List (Note V)}

theorem Causal.nil (keywords : List Token) (order : Token → Token → Prop) :
    Causal keywords order ([] : List (Note V)) := by
  refine ⟨List.nil_subperm, List.nil_subperm, fun _ before args after h => ?_⟩
  simp at h

theorem Causal.mem_of_called (h : Causal keywords order log) {keyword : Token} {args : List V}
    (hc : .called keyword args ∈ log) : keyword ∈ keywords :=
  h.calls.subset (mem_callsIn hc)

/-- Logs about different calls, shuffled. -/
theorem Causal.shuffle (h₁ : Causal keywords₁ order₁ log₁) (h₂ : Causal keywords₂ order₂ log₂)
    (hs : Shuffle log₁ log₂ log) (hdisjoint : keywords₁.Disjoint keywords₂)
    (horder : ∀ a b, order a b →
      (order₁ a b ∧ b ∈ keywords₁) ∨ (order₂ a b ∧ b ∈ keywords₂)) :
    Causal (keywords₁ ++ keywords₂) order log := by
  refine ⟨(hs.callsIn_perm.subperm_right).mpr (h₁.calls.append h₂.calls), ?_, ?_⟩
  · rw [hs.returnsIn_perm.subperm_right, hs.callsIn_perm.subperm_left]
    exact h₁.returns.append h₂.returns
  · intro a b hab before args after hlog
    rw [hlog] at hs
    rcases hs.split with ⟨before₁, after₁, rfl, hsub⟩ | ⟨before₂, after₂, rfl, hsub⟩
    · rcases horder a b hab with ⟨hab₁, -⟩ | ⟨-, hb⟩
      · obtain ⟨value, hv⟩ := h₁.awaits hab₁ _ _ _ rfl
        exact ⟨value, hsub hv⟩
      · exact absurd hb (hdisjoint (h₁.mem_of_called List.mem_append_cons_self))
    · rcases horder a b hab with ⟨-, hb⟩ | ⟨hab₂, -⟩
      · exact absurd (h₂.mem_of_called List.mem_append_cons_self) (hdisjoint hb)
      · obtain ⟨value, hv⟩ := h₂.awaits hab₂ _ _ _ rfl
        exact ⟨value, hsub hv⟩

/-- Logs about different calls, one behind the other: whatever is called in the second comes behind
all of the first, if those of the first have their values by then. -/
theorem Causal.append (h₁ : Causal keywords₁ order₁ log₁) (h₂ : Causal keywords₂ order₂ log₂)
    (hdisjoint : keywords₁.Disjoint keywords₂)
    (hcomplete : log₂ ≠ [] → (returnsIn log₁).Perm keywords₁)
    (horder : ∀ a b, order a b → ((order₁ a b ∧ b ∈ keywords₁) ∨ (order₂ a b ∧ b ∈ keywords₂)) ∨
      (a ∈ keywords₁ ∧ b ∈ keywords₂)) :
    Causal (keywords₁ ++ keywords₂) order (log₁ ++ log₂) := by
  have hsides : Causal (keywords₁ ++ keywords₂)
      (fun a b => (order₁ a b ∧ b ∈ keywords₁) ∨ (order₂ a b ∧ b ∈ keywords₂)) (log₁ ++ log₂) :=
    h₁.shuffle h₂ (.in_turn log₁ log₂) hdisjoint fun _ _ hab => hab
  refine ⟨hsides.calls, hsides.returns, fun {a b} hab => ?_⟩
  rcases horder a b hab with hside | ⟨ha, hb⟩
  · exact hsides.awaits hside
  · intro before args after hlog
    have hnot : .called b args ∉ log₁ := fun hmem => hdisjoint (h₁.mem_of_called hmem) hb
    have hmem : .called b args ∈ log₂ := by
      have hin : .called b args ∈ log₁ ++ log₂ := by
        rw [hlog]
        exact List.mem_append_cons_self
      exact (List.mem_append.mp hin).resolve_left hnot
    have hsub : log₁ ⊆ before := by
      rcases List.append_eq_append_iff.mp hlog with ⟨rest, hbefore, -⟩ | ⟨rest, hlog₁, hafter⟩
      · rw [hbefore]
        exact List.subset_append_left _ _
      · cases rest with
        | nil =>
          rw [hlog₁, List.append_nil]
          exact List.Subset.refl _
        | cons note rest =>
          rw [List.cons_append] at hafter
          rw [hlog₁, ← (List.cons.inj hafter).1] at hnot
          exact absurd List.mem_append_cons_self hnot
    have hreturned := (hcomplete (List.ne_nil_of_mem hmem)).symm.subset ha
    obtain ⟨value, hv⟩ := mem_returnsIn.mp hreturned
    exact ⟨value, hsub hv⟩

theorem Settles.append {α : Type} {result : Option (Except Error α)}
    (hcomplete : (returnsIn log₁).Perm keywords₁) (h₁ : Causal keywords₁ order₁ log₁)
    (h : Settles keywords₂ log₂ result) :
    Settles (keywords₁ ++ keywords₂) (log₁ ++ log₂) result := by
  have hs := Shuffle.in_turn log₁ log₂
  cases h with
  | waiting => exact .waiting
  | ok hperm => exact .ok (hs.returnsIn_perm.trans (hcomplete.append hperm))
  | failed hlt =>
    refine .failed ?_
    have hle := h₁.returns.length_le
    rw [hs.returnsIn_perm.length_eq, hs.callsIn_perm.length_eq, List.length_append,
      List.length_append]
    omega

theorem Settles.map {α β : Type} {result : Option (Except Error α)} (f : α → β)
    (h : Settles keywords log result) : Settles keywords log (result.map (Except.map f)) := by
  cases h with
  | waiting => exact .waiting
  | ok hperm => exact .ok hperm
  | failed hlt => exact .failed hlt

end

/-! ## Jobs that keep an order -/

namespace Job

/-- Whatever the job has logged is causal, and settles the calls if it has a result. -/
def Keeps {R : Type} (j : Job (W × List (Note V)) V R) (keywords : List Token)
    (order : Token → Token → Prop) : Prop :=
  ∀ log result, j.Has log result → Causal keywords order log ∧ Settles keywords log result

/-- Whatever the jobs have logged side by side is causal. If all of them have values, so have the
calls, and if one of them has failed, there are calls that have not. -/
def KeepsAll (js : List (Job (W × List (Note V)) V V)) (keywords : List Token)
    (order : Token → Token → Prop) : Prop :=
  ∀ log results, HasAll js log results → Causal keywords order log ∧
    ((∃ values : List V, results = values.map fun value => some (.ok value)) →
      (returnsIn log).Perm keywords) ∧
    ((∃ error, some (.error error) ∈ results) →
      (returnsIn log).length < (callsIn log).length)

section

variable {keywords keywords₁ keywords₂ : List Token} {order order₁ order₂ : Token → Token → Prop}

theorem keeps_pure {R : Type} (value : R) (order : Token → Token → Prop) :
    (pure value : Job (W × List (Note V)) V R).Keeps [] order := by
  intro log result h
  obtain ⟨rfl, rfl⟩ := has_pure h
  exact ⟨.nil _ _, .ok .rfl⟩

/-- A job keeps any order that asks for less. -/
theorem Keeps.mono {R : Type} {j : Job (W × List (Note V)) V R} (hj : j.Keeps keywords order)
    (hsub : ∀ a b, order₁ a b → order a b) : j.Keeps keywords order₁ := by
  intro log result h
  obtain ⟨hcausal, hsettles⟩ := hj log result h
  exact ⟨⟨hcausal.calls, hcausal.returns, fun hab => hcausal.awaits (hsub _ _ hab)⟩, hsettles⟩

theorem Keeps.map {R S : Type} {j : Job (W × List (Note V)) V R} (hj : j.Keeps keywords order)
    (f : R → S) : (j.map f).Keeps keywords order := by
  intro log result h
  obtain ⟨result', hr, rfl⟩ := has_map h
  obtain ⟨hcausal, hsettles⟩ := hj log result' hr
  exact ⟨hcausal, hsettles.map f⟩

theorem Keeps.bind {R S : Type} {j : Job (W × List (Note V)) V R}
    {f : R → Job (W × List (Note V)) V S} (hj : j.Keeps keywords₁ order₁)
    (hf : ∀ value, (f value).Keeps keywords₂ order₂) (hdisjoint : keywords₁.Disjoint keywords₂)
    (horder : ∀ a b, order a b → ((order₁ a b ∧ b ∈ keywords₁) ∨ (order₂ a b ∧ b ∈ keywords₂)) ∨
      (a ∈ keywords₁ ∧ b ∈ keywords₂)) :
    (j.bind f).Keeps (keywords₁ ++ keywords₂) order := by
  have hfirst : ∀ log : List (Note V), Causal keywords₁ order₁ log →
      Causal (keywords₁ ++ keywords₂) order log := by
    intro log hcausal
    have happend := hcausal.append (.nil keywords₂ order₂) hdisjoint (fun h => absurd rfl h) horder
    rwa [List.append_nil] at happend
  intro log result h
  cases has_bind h with
  | waiting hr => exact ⟨hfirst log (hj _ _ hr).1, .waiting⟩
  | failed hr =>
    obtain ⟨hcausal, hsettles⟩ := hj _ _ hr
    cases hsettles with
    | failed hlt => exact ⟨hfirst log hcausal, .failed hlt⟩
  | next hr hrest =>
    obtain ⟨hcausal, hsettles⟩ := hj _ _ hr
    obtain ⟨hcausal', hsettles'⟩ := hf _ _ _ hrest
    cases hsettles with
    | ok hcomplete =>
      exact ⟨hcausal.append hcausal' hdisjoint (fun _ => hcomplete) horder,
        .append hcomplete hcausal hsettles'⟩

theorem keepsAll_nil (order : Token → Token → Prop) :
    KeepsAll ([] : List (Job (W × List (Note V)) V V)) [] order := by
  rintro log results ⟨ts, hr, rfl⟩
  cases hr
  exact ⟨.nil _ _, fun _ => .rfl, fun ⟨_, h⟩ => by cases h⟩

theorem Keeps.cons {j : Job (W × List (Note V)) V V} {js : List (Job (W × List (Note V)) V V)}
    (hj : j.Keeps keywords₁ order₁) (hjs : KeepsAll js keywords₂ order₂)
    (hdisjoint : keywords₁.Disjoint keywords₂)
    (horder : ∀ a b, order a b →
      (order₁ a b ∧ b ∈ keywords₁) ∨ (order₂ a b ∧ b ∈ keywords₂)) :
    KeepsAll (j :: js) (keywords₁ ++ keywords₂) order := by
  intro log results h
  obtain ⟨log₁, log₂, result, rest, hs, hr, hrest, rfl⟩ := hasAll_cons h
  obtain ⟨hcausal, hsettles⟩ := hj _ _ hr
  obtain ⟨hcausal', hok, hfailed⟩ := hjs _ _ hrest
  refine ⟨hcausal.shuffle hcausal' hs hdisjoint horder, ?_, ?_⟩
  · rintro ⟨values, hvalues⟩
    cases values with
    | nil => cases hvalues
    | cons value values =>
      obtain ⟨rfl, hrestValues⟩ := List.cons.inj hvalues
      cases hsettles with
      | ok hcomplete => exact hs.returnsIn_perm.trans (hcomplete.append (hok ⟨values, hrestValues⟩))
  · rintro ⟨error, herror⟩
    have hle := hcausal.returns.length_le
    have hle' := hcausal'.returns.length_le
    rw [hs.returnsIn_perm.length_eq, hs.callsIn_perm.length_eq, List.length_append,
      List.length_append]
    rcases List.mem_cons.mp herror with rfl | herror
    · cases hsettles with
      | failed hlt => omega
    · have hlt := hfailed ⟨error, herror⟩
      omega

theorem KeepsAll.together {js : List (Job (W × List (Note V)) V V)}
    (hjs : KeepsAll js keywords order) : (together js).Keeps keywords order := by
  intro log result h
  obtain ⟨results, hr, hresult⟩ := has_together h
  obtain ⟨hcausal, hok, hfailed⟩ := hjs log results hr
  rcases hresult with rfl | ⟨error, rfl, -, herror⟩ | ⟨values, rfl, hvalues⟩
  · exact ⟨hcausal, .waiting⟩
  · exact ⟨hcausal, .failed (hfailed herror)⟩
  · exact ⟨hcausal, .ok (hok ⟨values, hvalues⟩)⟩

end

end Job

/-! ## Programs that are observed -/

/-- A call with notes: one when it is made, and one when it has its value. -/
def Rule.observed (keyword : Token) (rule : Rule ι W V) (args : List V) :
    Job (W × List (Note V)) V V :=
  (Job.note (.called keyword args)).bind fun _ =>
    ((rule.handler args).lift (Note V)).bind fun value =>
      (Job.note (.returned keyword value)).bind fun _ => .pure value

theorem Rule.observes (keyword : Token) (rule : Rule ι W V) (args : List V) :
    (Rule.observed keyword rule args).Observes (rule.handler args) := by
  have hrest : (((rule.handler args).lift (Note V)).bind fun value =>
      (Job.note (.returned keyword value)).bind fun _ => .pure value).Observes
        ((rule.handler args).bind .pure) :=
    (Job.observes_lift (rule.handler args)).bind fun value =>
      Job.observes_bind_note .done (Note.returned keyword value)
  rw [Job.bind_pure] at hrest
  exact Job.observes_bind_note hrest _

/-- Whatever the handler finds in the world, and whenever its naps end: it has a way to fail. -/
def Rule.MayFail (rule : Rule ι W V) (args : List V) : Prop :=
  ∃ error, ((rule.handler args).lift (Note V)).Has [] (some (.error error))

/-- What a call can have logged: that it is made, or that it is made and has its value. -/
inductive Rule.Logged (keyword : Token) (rule : Rule ι W V) (args : List V) :
    List (Note V) → Option (Except Error V) → Prop where
  | waiting : Logged keyword rule args [.called keyword args] none
  | failed {error : Error} : rule.MayFail args →
      Logged keyword rule args [.called keyword args] (some (.error error))
  | ok {value : V} :
      Logged keyword rule args [.called keyword args, .returned keyword value] (some (.ok value))

theorem Rule.has_observed {keyword : Token} {rule : Rule ι W V} {args : List V}
    {log : List (Note V)} {result : Option (Except Error V)}
    (h : (Rule.observed keyword rule args).Has log result) :
    Rule.Logged keyword rule args log result := by
  obtain ⟨log', rfl, h'⟩ := Job.has_note h
  cases Job.has_bind h' with
  | waiting hr =>
    cases Job.has_lift hr
    exact .waiting
  | @failed _ error hr =>
    cases Job.has_lift hr
    exact .failed ⟨error, hr⟩
  | @next value _ _ _ hr hrest =>
    obtain ⟨log'', rfl, hpure⟩ := Job.has_note hrest
    obtain ⟨rfl, rfl⟩ := Job.has_pure hpure
    cases Job.has_lift hr
    exact .ok

/-- A call by itself. -/
theorem Rule.keeps_observed (keyword : Token) (rule : Rule ι W V) (args : List V) :
    (Rule.observed keyword rule args).Keeps [keyword] fun _ _ => False := by
  intro log result h
  cases Rule.has_observed h with
  | waiting => exact ⟨⟨.refl _, List.nil_subperm, fun hab => hab.elim⟩, .waiting⟩
  | failed _ => exact ⟨⟨.refl _, List.nil_subperm, fun hab => hab.elim⟩, .failed Nat.zero_lt_one⟩
  | ok => exact ⟨⟨.refl _, .refl _, fun hab => hab.elim⟩, .ok .rfl⟩

namespace Program

/-- The program with notes of its calls. -/
def observed (p : Program ι W V) : Job (W × List (Note V)) V V := p.jobWith Rule.observed

mutual

theorem observes (p : Program ι W V) : p.observed.Observes p.job := by
  match p with
  | literal tag token value => exact .done
  | call tag keyword rule args =>
    rw [observed, job, jobWith, jobWith, Job.arguments_eq_sequence, Job.arguments_eq_sequence]
    exact (Job.observes_sequenceFrom (observesAll args) []).bind (Rule.observes keyword rule)
  | list tag r items exit =>
    rw [observed, job, jobWith, jobWith]
    cases r.mode with
    | sequential => exact (Job.observes_sequenceFrom (observesAll items) []).bind fun _ => .done
    | joined => exact (Job.observes_together (observesAll items)).bind fun _ => .done
termination_by structural p

theorem observesAll (ps : List (Program ι W V)) :
    Job.ObservesAll (jobAllWith Rule.observed ps) (jobAllWith (fun _ rule => rule.handler) ps) := by
  match ps with
  | [] => exact .nil
  | p :: rest => exact .cons (observes p) (observesAll rest)
termination_by structural ps

end

/-! ## The order of calls -/

/-- The keywords of the calls, in post-order. -/
def keywords (p : Program ι W V) : List Token := p.calls.map Call.keyword

/-- The keywords of the calls of a list of programs. -/
def keywordsAll (ps : List (Program ι W V)) : List Token := (callsAll ps).map Call.keyword

theorem keywords_call (tag : String) (keyword : Token) (rule : Rule ι W V)
    (args : List (Program ι W V)) :
    (call tag keyword rule args).keywords = keywordsAll args ++ [keyword] := by
  rw [keywords, calls, List.map_append]
  rfl

theorem keywords_list (tag : String) (r : Repetition V) (items : List (Program ι W V))
    (exit : Option Token) : (list tag r items exit).keywords = keywordsAll items := by
  rw [keywords, calls]
  rfl

theorem keywordsAll_cons (p : Program ι W V) (ps : List (Program ι W V)) :
    keywordsAll (p :: ps) = p.keywords ++ keywordsAll ps := by
  rw [keywordsAll, callsAll, List.map_append]
  rfl

mutual

/-- The first call must have its value before the second is made. -/
inductive Precedes : Program ι W V → Token → Token → Prop where
  /-- A call waits for the calls in its arguments. -/
  | own {tag : String} {keyword : Token} {rule : Rule ι W V} {args : List (Program ι W V)}
      {a : Token} : a ∈ keywordsAll args → Precedes (.call tag keyword rule args) a keyword
  | argument {tag : String} {keyword : Token} {rule : Rule ι W V} {args : List (Program ι W V)}
      {a b : Token} : InTurn args a b → Precedes (.call tag keyword rule args) a b
  | item {tag : String} {r : Repetition V} {items : List (Program ι W V)} {exit : Option Token}
      {a b : Token} :
      r.mode = .sequential → InTurn items a b → Precedes (.list tag r items exit) a b
  /-- Between the items of a joined list there is no order, but there is inside of each. -/
  | member {tag : String} {r : Repetition V} {items : List (Program ι W V)}
      {exit : Option Token} {p : Program ι W V} {a b : Token} :
      r.mode = .joined → p ∈ items → Precedes p a b → Precedes (.list tag r items exit) a b

/-- One program after the other. -/
inductive InTurn : List (Program ι W V) → Token → Token → Prop where
  /-- Everything inside of a later program waits for everything inside of an earlier one. -/
  | across {p : Program ι W V} {ps : List (Program ι W V)} {a b : Token} :
      a ∈ p.keywords → b ∈ keywordsAll ps → InTurn (p :: ps) a b
  | head {p : Program ι W V} {ps : List (Program ι W V)} {a b : Token} :
      Precedes p a b → InTurn (p :: ps) a b
  | tail {p : Program ι W V} {ps : List (Program ι W V)} {a b : Token} :
      InTurn ps a b → InTurn (p :: ps) a b

end

theorem mem_keywordsAll {ps : List (Program ι W V)} {p : Program ι W V} (hp : p ∈ ps)
    {keyword : Token} (h : keyword ∈ p.keywords) : keyword ∈ keywordsAll ps := by
  induction ps with
  | nil => cases hp
  | cons q ps ih =>
    rw [keywordsAll_cons, List.mem_append]
    rcases List.mem_cons.mp hp with rfl | hp
    · exact .inl h
    · exact .inr (ih hp)

mutual

theorem Precedes.mem {p : Program ι W V} {a b : Token} (h : p.Precedes a b) :
    b ∈ p.keywords := by
  match h with
  | .own _ =>
    rw [keywords_call]
    exact List.mem_append_right _ (List.mem_singleton_self _)
  | .argument hargs =>
    rw [keywords_call]
    exact List.mem_append_left _ hargs.mem
  | .item _ hitems =>
    rw [keywords_list]
    exact hitems.mem
  | .member _ hp hmember =>
    rw [keywords_list]
    exact mem_keywordsAll hp hmember.mem

theorem InTurn.mem {ps : List (Program ι W V)} {a b : Token} (h : InTurn ps a b) :
    b ∈ keywordsAll ps := by
  match h with
  | .across _ hb =>
    rw [keywordsAll_cons]
    exact List.mem_append_right _ hb
  | .head hp =>
    rw [keywordsAll_cons]
    exact List.mem_append_left _ hp.mem
  | .tail hps =>
    rw [keywordsAll_cons]
    exact List.mem_append_right _ hps.mem

end

/-! ## Programs keep their order -/

mutual

theorem keeps (p : Program ι W V) (hp : p.keywords.Nodup) :
    p.observed.Keeps p.keywords p.Precedes := by
  match p with
  | literal tag token value => exact Job.keeps_pure value _
  | call tag keyword rule args =>
    rw [keywords_call] at hp ⊢
    obtain ⟨hargs, -, hdisjoint⟩ := List.nodup_append'.mp hp
    rw [observed, jobWith, Job.arguments_eq_sequence]
    refine (keeps_sequence args hargs []).bind (Rule.keeps_observed keyword rule) hdisjoint ?_
    intro a b hab
    cases hab with
    | own ha => exact .inr ⟨ha, List.mem_singleton_self _⟩
    | argument hturn => exact .inl (.inl ⟨hturn, hturn.mem⟩)
  | list tag r items exit =>
    rw [keywords_list] at hp ⊢
    rw [observed, jobWith]
    cases hmode : r.mode with
    | sequential =>
      refine ((keeps_sequence items hp []).map r.gather).mono fun a b hab => ?_
      cases hab with
      | item _ hturn => exact hturn
      | member hjoined _ _ =>
        rw [hmode] at hjoined
        cases hjoined
    | joined =>
      refine ((keepsAll items hp).together.map r.gather).mono fun a b hab => ?_
      cases hab with
      | item hsequential _ =>
        rw [hmode] at hsequential
        cases hsequential
      | member _ hmem hab => exact ⟨_, hmem, hab⟩
termination_by structural p

/-- Programs that are done one after the other. -/
theorem keeps_sequence (ps : List (Program ι W V)) (hps : (keywordsAll ps).Nodup)
    (values : List V) :
    (Job.sequenceFrom values (jobAllWith Rule.observed ps)).Keeps (keywordsAll ps)
      (InTurn ps) := by
  match ps with
  | [] => exact Job.keeps_pure values _
  | p :: rest =>
    rw [keywordsAll_cons] at hps ⊢
    obtain ⟨hp, hrest, hdisjoint⟩ := List.nodup_append'.mp hps
    rw [jobAllWith, Job.sequenceFrom]
    refine (keeps p hp).bind (fun value => keeps_sequence rest hrest _) hdisjoint ?_
    intro a b hab
    cases hab with
    | across ha hb => exact .inr ⟨ha, hb⟩
    | head hp => exact .inl (.inl ⟨hp, hp.mem⟩)
    | tail hturn => exact .inl (.inr ⟨hturn, hturn.mem⟩)
termination_by structural ps

/-- Programs that are done side by side. -/
theorem keepsAll (ps : List (Program ι W V)) (hps : (keywordsAll ps).Nodup) :
    Job.KeepsAll (jobAllWith Rule.observed ps) (keywordsAll ps)
      fun a b => ∃ p ∈ ps, p.Precedes a b := by
  match ps with
  | [] => exact Job.keepsAll_nil _
  | p :: rest =>
    rw [keywordsAll_cons] at hps ⊢
    obtain ⟨hp, hrest, hdisjoint⟩ := List.nodup_append'.mp hps
    refine (keeps p hp).cons (keepsAll rest hrest) hdisjoint ?_
    rintro a b ⟨q, hq, hab⟩
    rcases List.mem_cons.mp hq with rfl | hq
    · exact .inl ⟨hab, hab.mem⟩
    · exact .inr ⟨⟨q, hq, hab⟩, mem_keywordsAll hq hab.mem⟩
termination_by structural ps

end

end Program

end Parlance
