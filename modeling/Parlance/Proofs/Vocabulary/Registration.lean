import Parlance.Proofs.Grammar.Derivation
import Parlance.Proofs.Vocabulary.Extension

/-
  Registering rules and freezing them. A rule that is registered under a keyword that is taken goes
  where the first rule of that keyword stands. So the keywords are distinct and in the order in
  which they first came up, and each stands for the rule that was registered under it last
  (`Table.registers_ofRules`); the induction is over the rules from the last one, because it is the
  last one that wins.

  A table that a type has been given is never replaced. What `Vocabulary.Settled` says of the type
  holds in every vocabulary that comes later, and in every later state of a workshop.
-/

namespace Parlance

variable {ι W V : Type}

namespace Table

/-! ## Registering one rule -/

/-- The rule that is registered is found from then on, and the others are found as before. -/
theorem find?_insertRule (rule : Rule ι W V) (rules : List (Rule ι W V)) (word : String) :
    (insertRule rule rules).find? (·.keyword == word) =
      if rule.keyword = word then some rule else rules.find? (·.keyword == word) := by
  induction rules with
  | nil =>
    rw [insertRule, List.find?_singleton]
    simp
  | cons first rules ih =>
    unfold insertRule
    by_cases hword : rule.keyword = word
    · split
      · simp [hword]
      · next hfirst =>
        rw [hword] at hfirst
        simp [hfirst, hword, ih]
    · split
      · next hfirst => simp [hfirst, hword]
      · simp only [List.find?_cons, ih, if_neg hword]

theorem ofRules_concat (rules : List (Rule ι W V)) (rule : Rule ι W V)
    (fallback : Option (Expr ι V)) :
    (ofRules (rules ++ [rule]) fallback).rules = insertRule rule (ofRules rules fallback).rules :=
  List.foldl_concat _ _ _ _

/-! ## Registering all of them -/

theorem eraseDups_concat (words : List String) (word : String) :
    (words ++ [word]).eraseDups =
      if word ∈ words then words.eraseDups else words.eraseDups ++ [word] := by
  rw [List.eraseDups_append]
  by_cases h : word ∈ words <;> simp [List.removeAll, List.eraseDups_cons, h]

/-- The keywords stand in the order in which they first came up. -/
theorem keywords_ofRules (rules : List (Rule ι W V)) (fallback : Option (Expr ι V)) :
    (ofRules rules fallback).keywords = (rules.map Rule.keyword).eraseDups := by
  induction rules using List.reverseRecOn with
  | nil => rfl
  | append_singleton rules rule ih =>
    unfold keywords at ih ⊢
    rw [ofRules_concat, map_keyword_insertRule, ih, List.map_append, List.map_singleton,
      eraseDups_concat]
    simp only [List.mem_eraseDups]

/-- A word stands for the rule that was registered under it last. -/
theorem lookup_ofRules (rules : List (Rule ι W V)) (fallback : Option (Expr ι V))
    (word : String) :
    (ofRules rules fallback).lookup word = rules.reverse.find? (·.keyword == word) := by
  induction rules using List.reverseRecOn with
  | nil => rfl
  | append_singleton rules rule ih =>
    rw [lookup, ofRules_concat, find?_insertRule, List.reverse_append, List.reverse_singleton,
      List.singleton_append]
    by_cases hword : rule.keyword = word
    · simp [hword]
    · rw [if_neg hword, List.find?_cons_of_neg (by simpa using hword)]
      exact ih

/-! ## Places -/

/-- The place of the last rule of a keyword. -/
def place? (t : Table ι W V) (word : String) : Option Nat :=
  (t.keywords.zipIdx.reverse.find? (·.1 == word)).map Prod.snd

theorem getElem?_of_place? {t : Table ι W V} {word : String} {place : Nat}
    (h : t.place? word = some place) : t.keywords[place]? = some word := by
  obtain ⟨⟨keyword, index⟩, hfind, rfl⟩ := Option.map_eq_some_iff.mp h
  have hword : keyword = word := by simpa using List.find?_some hfind
  have hmem := List.mem_reverse.mp (List.mem_of_find?_eq_some hfind)
  exact hword ▸ List.mem_zipIdx_iff_getElem?.mp hmem

theorem place?_eq_none_iff {t : Table ι W V} {word : String} :
    t.place? word = none ↔ word ∉ t.keywords := by
  rw [place?, Option.map_eq_none_iff, List.find?_eq_none]
  constructor
  · intro h hmem
    obtain ⟨index, hindex⟩ := List.mem_iff_getElem?.mp hmem
    refine h (word, index) (List.mem_reverse.mpr ?_) (beq_self_eq_true word)
    exact List.mem_zipIdx_iff_getElem?.mpr hindex
  · rintro h ⟨keyword, index⟩ hmem hword
    have hkeyword := List.mem_zipIdx_iff_getElem?.mp (List.mem_reverse.mp hmem)
    exact h (beq_iff_eq.mp hword ▸ List.mem_of_getElem? hkeyword)

/-- To look a word up is to go to its place. -/
theorem lookup_eq_place (t : Table ι W V) (word : String) :
    t.lookup word = (t.place? word).bind (t.rules[·]?) := by
  cases hplace : t.place? word with
  | none => exact lookup_eq_none_iff.mpr (place?_eq_none_iff.mp hplace)
  | some place =>
    have hword := getElem?_of_place? hplace
    rw [keywords, List.getElem?_map] at hword
    obtain ⟨rule, hrule, rfl⟩ := Option.map_eq_some_iff.mp hword
    rw [Option.bind_some, hrule, lookup_of_mem (List.mem_of_getElem? hrule)]

/-! ## What a table keeps -/

/-- What a table keeps of the rules that were registered, first to last. -/
structure Registers (t : Table ι W V) (registered : List (Rule ι W V)) : Prop where
  nodup_keywords : t.keywords.Nodup
  keywords_eq : t.keywords = (registered.map Rule.keyword).eraseDups
  lookup_eq : ∀ word, t.lookup word = registered.reverse.find? (·.keyword == word)
  lookup_eq_none_iff : ∀ word, t.lookup word = none ↔ ∀ rule ∈ registered, rule.keyword ≠ word
  place_lt : ∀ word place, t.place? word = some place → place < t.rules.length
  lookup_eq_place : ∀ word, t.lookup word = (t.place? word).bind (t.rules[·]?)
  rules_eq : t.rules = t.keywords.filterMap t.lookup
  alternatives_eq : ∀ v : Vocabulary ι W V, t.alternatives v =
    (t.keywords.filterMap t.lookup).map (Rule.alternative v) ++
      t.fallback.toList.map fun e => [.type (e.tag v.tag)]

/-- The rules are those that the keywords stand for. -/
theorem rules_eq_filterMap (t : Table ι W V) : t.rules = t.keywords.filterMap t.lookup := by
  have hself : ∀ rule ∈ t.rules, (t.lookup ∘ Rule.keyword) rule = some rule := fun rule hrule =>
    lookup_of_mem hrule
  rw [keywords, List.filterMap_map, List.filterMap_congr hself, List.filterMap_some]

theorem registers_ofRules (rules : List (Rule ι W V)) (fallback : Option (Expr ι V)) :
    (ofRules rules fallback).Registers rules := by
  refine
    { nodup_keywords := (ofRules rules fallback).nodup_keywords
      keywords_eq := keywords_ofRules rules fallback
      lookup_eq := lookup_ofRules rules fallback
      lookup_eq_none_iff := fun word => ?_
      place_lt := fun word place hplace => ?_
      lookup_eq_place := lookup_eq_place _
      rules_eq := rules_eq_filterMap _
      alternatives_eq := fun v => ?_ }
  · rw [lookup_ofRules, List.find?_eq_none]
    simp
  · obtain ⟨hlt, -⟩ := List.getElem?_eq_some_iff.mp (getElem?_of_place? hplace)
    simpa [keywords] using hlt
  · rw [← rules_eq_filterMap]
    rfl

end Table

/-! ## Freezing -/

namespace Vocabulary

/-- The type has its tag and its table for good: it shows the keywords and the fallback of the
table, publishes its alternatives, and takes no other table. -/
structure Settled [DecidableEq ι] (v : Vocabulary ι W V) (name : ι) (tag : String)
    (t : Table ι W V) : Prop where
  tag_eq : v.tag name = tag
  table_eq : v.table name = some t
  keywords_eq : v.keywords name = t.keywords
  hasFallback_eq : v.hasFallback name = t.fallback.isSome
  publishes : ∀ g : Grammar, ¬ g.contains tag = true → ∃ more,
    ((Expr.type name).grammar v g).productions = g.productions ++ ⟨tag, t.alternatives v⟩ :: more
  refuses : ∀ t', v.define name t' = .error (.alreadyDefined tag)

/-- A type whose tag is not listed is listed first. -/
theorem grammar_type {v : Vocabulary ι W V} {name : ι} {t : Table ι W V}
    (ht : v.table name = some t) {g : Grammar} (hg : ¬ g.contains (v.tag name) = true) :
    ∃ more, ((Expr.type name).grammar v g).productions =
      g.productions ++ ⟨v.tag name, t.alternatives v⟩ :: more := by
  obtain ⟨out, hout, hgrammar⟩ := v.grammar_walks (.type name) g
  cases hout with
  | skipped hs _ =>
    rcases hs with hprim | htag
    · cases hprim
    · exact absurd (Grammar.contains_iff.mpr (by simpa [listing, Expr.tag] using htag)) hg
  | entered _ hmid hdone =>
    cases hdone
    obtain ⟨more, rfl⟩ := hmid.exists_append
    rw [hgrammar]
    exact ⟨more.filterMap v.production?, by simp [listing, production?, ht]⟩

theorem settled_of_table [DecidableEq ι] {v : Vocabulary ι W V} {name : ι} {t : Table ι W V}
    (ht : v.table name = some t) : v.Settled name (v.tag name) t where
  tag_eq := rfl
  table_eq := ht
  keywords_eq := by simp [keywords, ht]
  hasFallback_eq := by simp [hasFallback, ht]
  publishes _ hg := grammar_type ht hg
  refuses := define_of_defined ht

/-- What is settled stays so. -/
theorem ExtendedBy.settled [DecidableEq ι] {v w : Vocabulary ι W V} (h : v.ExtendedBy w) {name : ι}
    {t : Table ι W V} (ht : v.table name = some t) : w.Settled name (v.tag name) t :=
  h.tag ht ▸ settled_of_table (h.table ht)

/-- What is closed reads and publishes the same from then on. -/
theorem ExtendedBy.unchanged {v w : Vocabulary ι W V} (h : v.ExtendedBy w) {e : Expr ι V}
    (he : v.Closed e) :
    (∀ words, e.parse w (.ofTokens words) = e.parse v (.ofTokens words)) ∧
      ∀ g, e.grammar w g = e.grammar v g :=
  ⟨fun words => (h.shares he).parse (Cursor.within_ofTokens words), (h.shares he).grammar⟩

end Vocabulary

/-- A rule is asked to read only where its keyword stands. -/
theorem Expr.parse_ne_mismatch (v : Vocabulary ι W V) (e : Expr ι V) {c : Cursor} (hc : c.Within)
    (expected found : String) (position : Nat) (c' : Cursor) :
    e.parse v c ≠ .rejected (.mismatch expected found position) c' := by
  intro h
  have hread : Reads v e c (.rejected (.mismatch expected found position) c') :=
    (reads_iff hc).mpr ⟨h, by simp⟩
  cases hread.fault hc rfl

/-- The last rule of a keyword wins, in the place of the first; and a table is final. A type that
has none takes one, and has it in all vocabularies that come later. Another table is refused, so
that the vocabulary stays as it is, and expressions that lead to defined types only read and publish
the same whatever else is defined. It is so in every workshop, where types are made and defined step
by step. No type asks a rule to read what does not start with its keyword. -/
theorem last_rule_wins_and_table_is_final [DecidableEq ι] (rules : List (Rule ι W V))
    (fallback : Option (Expr ι V)) :
    (Table.ofRules rules fallback).Registers rules ∧
    (∀ (v : Vocabulary ι W V) (name : ι), v.table name = none →
      ∃ v', v.define name (.ofRules rules fallback) = .ok v' ∧
        ∀ w, v'.Grows w → w.Settled name (v.tag name) (.ofRules rules fallback) ∧
          ∀ e, v'.Closed e →
            (∀ words, e.parse w (.ofTokens words) = e.parse v' (.ofTokens words)) ∧
              ∀ g, e.grammar w g = e.grammar v' g) ∧
    (∀ (before later : List Script.Step) (s s' : Script.Workshop),
      s = (Script.Workshop.steps {} before).2 → s' = (s.steps later).2 →
        (∀ name tag t, (s.introduce name tag t).2.lexicon.table s.made = some t) ∧
        (∀ key t, s.lexicon.table key = none →
          (s.define key t).2.lexicon.table key = some t) ∧
        (∀ key t, s.lexicon.table key = some t →
          s'.lexicon.Settled key (s.lexicon.tag key) t ∧
          ∀ t', s'.define key t' =
            (.type (s'.summary key) (some (.alreadyDefined (s.lexicon.tag key))), s')) ∧
        ∀ e, s.lexicon.Closed e →
          (∀ words, e.parse s'.lexicon (.ofTokens words) = e.parse s.lexicon (.ofTokens words)) ∧
            ∀ g, e.grammar s'.lexicon g = e.grammar s.lexicon g) ∧
    ∀ (v : Vocabulary ι W V) (e : Expr ι V) (words : List String) (expected found : String)
      (position : Nat) (c : Cursor),
      e.parse v (.ofTokens words) ≠ .rejected (.mismatch expected found position) c := by
  refine ⟨Table.registers_ofRules rules fallback, fun v name hname => ?_, ?_,
    fun v e words => e.parse_ne_mismatch v (Cursor.within_ofTokens words)⟩
  · obtain ⟨v', hdefine, htable, htag⟩ :=
      Vocabulary.define_of_undefined hname (Table.ofRules rules fallback)
    refine ⟨v', hdefine, fun w hw => ⟨?_, fun e he => hw.extendedBy.unchanged he⟩⟩
    exact htag ▸ hw.extendedBy.settled htable
  · rintro before later s s' rfl rfl
    have hs := (Script.Workshop.sound_new.leads_steps before).sound
    have hlater := (hs.leads_steps later).extendedBy
    refine ⟨fun name tag t => Script.Workshop.table_introduce hs name tag t,
      fun key t => (Script.Workshop.table_define · t), fun key t ht => ⟨hlater.settled ht, ?_⟩,
      fun e he => hlater.unchanged he⟩
    intro t'
    rw [Script.Workshop.define_of_defined (hlater.table ht), hlater.tag ht]

/-- A switch that is turned on in two ways, and a workshop that makes one. -/
theorem last_rule_wins_and_table_is_final_switch :
    ∃ (turn : String → Nat → Rule Unit Unit Nat) (v' : Vocabulary Unit Unit Nat)
      (s : Script.Workshop),
      let t := Table.ofRules [turn "on" 1, turn "off" 2, turn "on" 3] (some (.type ()))
      (Vocabulary.undefined fun _ => "switch").define () t = .ok v' ∧ v'.Closed (.type ()) ∧
      t.keywords = ["on", "off"] ∧ t.lookup "on" = some (turn "on" 3) ∧
      v'.Settled () "switch" t ∧
      s = (Script.Workshop.steps {} [.introduce "s" "switch" [] none]).2 ∧
      (∃ t', s.lexicon.table 0 = some t') ∧
      ∀ t', (s.define 0 t').2 = s := by
  let turn (word : String) (n : Nat) : Rule Unit Unit Nat := ⟨word, [], fun _ => Job.pure n⟩
  obtain ⟨htable, hfreeze, hworkshop, -⟩ := last_rule_wins_and_table_is_final
    [turn "on" 1, turn "off" 2, turn "on" 3] (some (.type ()))
  obtain ⟨v', hv', hlater⟩ := hfreeze (.undefined fun _ => "switch") () rfl
  obtain ⟨hsettled, -⟩ := hlater v' .refl
  have hclosed : v'.Closed (.type ()) := fun _ _ => hsettled.table_eq ▸ rfl
  obtain ⟨-, -, hfrozen, -⟩ := hworkshop [.introduce "s" "switch" [] none] [] _ _ rfl rfl
  obtain ⟨t', ht'⟩ : ∃ t', (Script.Workshop.steps {}
      [.introduce "s" "switch" [] none]).2.lexicon.table 0 = some t' := ⟨_, rfl⟩
  exact ⟨turn, v', _, hv', hclosed, htable.keywords_eq.trans rfl, (htable.lookup_eq _).trans rfl,
    hsettled, rfl, ⟨t', ht'⟩, fun t => congrArg Prod.snd ((hfrozen 0 t' ht').2 t)⟩

end Parlance
