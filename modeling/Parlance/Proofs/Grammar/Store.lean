import Mathlib.Data.List.Induction
import Mathlib.Data.List.Nodup
import Parlance.Grammar

/-
  Grammars as ordered write-once maps. What a grammar answers after any insertions can be read off
  the list of the insertions: a tag has the alternatives it was inserted with first
  (`Grammar.get?_insertAll`), and the tags stand in the order in which they first came up
  (`Grammar.pairwise_tags_insertAll`).

  A store has the place of every tag in a hash index beside the productions, so that nothing is
  searched for. It is stated with all that could go wrong: the index is a map of its own, and
  looking a tag up fails if the index leads to a place where no production is (`Store.get?`). An
  insertion keeps the index in step with the productions (`Indexed.insert`) and does what it does
  to the grammar (`Indexed.grammar_insert`). Hence all that is known of grammars holds of stores.
-/

namespace Parlance

/-- If keys differ, the entry with the key of a member is that member. -/
theorem find?_key_of_nodup {α : Type _} {key : α → String} {entries : List α}
    (h : (entries.map key).Nodup) {a : α} (ha : a ∈ entries) :
    entries.find? (key · == key a) = some a := by
  induction entries with
  | nil => cases ha
  | cons first entries ih =>
    rw [List.map_cons, List.nodup_cons] at h
    rcases List.mem_cons.mp ha with rfl | ha
    · simp
    · have hne : key first ≠ key a := fun e => h.1 (e ▸ List.mem_map_of_mem ha)
      rw [List.find?_cons_of_neg (by simpa using hne)]
      exact ih h.2 ha

theorem getElem?_concat_eq_some_iff {α : Type _} {entries : List α} {last a : α} {i : Nat} :
    (entries ++ [last])[i]? = some a ↔ entries[i]? = some a ∨ i = entries.length ∧ last = a := by
  rw [List.getElem?_append, List.getElem?_singleton]
  grind

namespace Grammar

/-! ## Tags and alternatives -/

theorem contains_iff {g : Grammar} {tag : String} : g.contains tag = true ↔ tag ∈ g.tags := by
  simp [contains, tags]

theorem isSome_get? (g : Grammar) (tag : String) : (g.get? tag).isSome = g.contains tag := by
  rw [get?, Option.isSome_map, List.isSome_find?]
  rfl

theorem get?_eq_some {g : Grammar} (hg : g.tags.Nodup) {p : Production}
    (hp : p ∈ g.productions) : g.get? p.tag = some p.alternatives := by
  rw [get?, find?_key_of_nodup hg hp]
  rfl

theorem exists_of_get? {g : Grammar} {tag : String} {alternatives : List (List Sym)}
    (h : g.get? tag = some alternatives) : ⟨tag, alternatives⟩ ∈ g.productions := by
  obtain ⟨p, hp, rfl⟩ := Option.map_eq_some_iff.mp h
  have htag : p.tag = tag := by simpa using List.find?_some hp
  exact htag ▸ List.mem_of_find?_eq_some hp

/-! ## Insertions -/

/-- Inserts one production after the other. -/
def insertAll (g : Grammar) (insertions : List Production) : Grammar :=
  insertions.foldl (fun g p => g.insert p.tag p.alternatives) g

theorem insertAll_concat (g : Grammar) (insertions : List Production) (p : Production) :
    g.insertAll (insertions ++ [p]) = (g.insertAll insertions).insert p.tag p.alternatives := by
  rw [insertAll, List.foldl_append]
  rfl

theorem tags_insert (g : Grammar) (tag : String) (alternatives : List (List Sym)) :
    (g.insert tag alternatives).tags = if tag ∈ g.tags then g.tags else g.tags ++ [tag] := by
  unfold insert
  by_cases h : tag ∈ g.tags
  · rw [if_pos (contains_iff.mpr h), if_pos h]
  · rw [if_neg (mt contains_iff.mp h), if_neg h, tags, List.map_append]
    rfl

/-- A tag that has alternatives keeps them, and of the others one is given some. -/
theorem get?_insert (g : Grammar) (tag : String) (alternatives : List (List Sym))
    (word : String) :
    (g.insert tag alternatives).get? word =
      (g.get? word).or (if tag = word then some alternatives else none) := by
  unfold insert
  split
  · next hold =>
    by_cases hword : tag = word
    · obtain ⟨old, hget⟩ := Option.isSome_iff_exists.mp ((isSome_get? g tag).trans hold)
      rw [← hword, hget, Option.some_or]
    · rw [if_neg hword, Option.or_none]
  · rw [get?, List.find?_append, Option.map_or, List.find?_singleton, get?]
    by_cases hword : tag = word <;> simp [hword]

/-- A tag has the alternatives that it had, or those that it was inserted with first. -/
theorem get?_insertAll (g : Grammar) (insertions : List Production) (tag : String) :
    (g.insertAll insertions).get? tag =
      (g.get? tag).or ((insertions.find? (·.tag == tag)).map Production.alternatives) := by
  induction insertions generalizing g with
  | nil => exact Option.or_none.symm
  | cons p insertions ih =>
    have hrest := ih (g.insert p.tag p.alternatives)
    rw [insertAll, List.foldl_cons, ← insertAll, hrest, get?_insert, Option.or_assoc]
    by_cases htag : p.tag = tag <;> simp [htag]

theorem mem_tags_insertAll {insertions : List Production} {tag : String} :
    tag ∈ (empty.insertAll insertions).tags ↔ tag ∈ insertions.map Production.tag := by
  rw [← contains_iff, ← isSome_get?, get?_insertAll]
  simp [get?, empty]

theorem contains_insertAll (insertions : List Production) (tag : String) :
    (empty.insertAll insertions).contains tag = decide (tag ∈ insertions.map Production.tag) := by
  rw [Bool.eq_iff_iff, contains_iff, mem_tags_insertAll, decide_eq_true_iff]

/-- The tags stand in the order in which they were first inserted. -/
theorem pairwise_tags_insertAll (insertions : List Production) :
    (empty.insertAll insertions).tags.Pairwise fun a b =>
      (insertions.map Production.tag).idxOf a < (insertions.map Production.tag).idxOf b := by
  induction insertions using List.reverseRecOn with
  | nil => exact .nil
  | append_singleton insertions p ih =>
    -- behind the insertions so far, another one does not move a first insertion
    have hfirst : ∀ {tag}, tag ∈ (empty.insertAll insertions).tags →
        ((insertions ++ [p]).map Production.tag).idxOf tag =
          (insertions.map Production.tag).idxOf tag := by
      intro tag htag
      rw [List.map_append, List.idxOf_append, if_pos (mem_tags_insertAll.mp htag)]
    have hold := ih.imp_of_mem fun {a b} ha hb hlt =>
      show ((insertions ++ [p]).map Production.tag).idxOf a <
          ((insertions ++ [p]).map Production.tag).idxOf b by
        rwa [hfirst ha, hfirst hb]
    rw [insertAll_concat, tags_insert]
    split
    · exact hold
    · next hnew =>
      refine List.pairwise_append.mpr ⟨hold, List.pairwise_singleton .., fun a ha b hb => ?_⟩
      obtain rfl := List.mem_singleton.mp hb
      have hlt := List.idxOf_lt_length_of_mem (mem_tags_insertAll.mp ha)
      rw [hfirst ha, List.map_append, List.idxOf_append, if_neg (mt mem_tags_insertAll.mpr hnew)]
      exact Nat.lt_of_lt_of_le hlt (Nat.le_add_left ..)

/-! ## Stores -/

/-- Productions in the order in which their tags were first inserted, and an index of places. -/
structure Store where
  productions : Array Production
  index : Std.HashMap String Nat

namespace Store

/-- The store of the grammar without productions. -/
def empty : Store := ⟨#[], ∅⟩

/-- The grammar that is stored. -/
def grammar (s : Store) : Grammar := ⟨s.productions.toList⟩

/-- The index has a place for the tag. -/
def contains (s : Store) (tag : String) : Bool := s.index.contains tag

/-- The alternatives of a tag. The place that the index has for it is the error if there is no
production. -/
def get? (s : Store) (tag : String) : Except Nat (Option (List (List Sym))) :=
  match s.index[tag]? with
  | none => .ok none
  | some place =>
    match s.productions[place]? with
    | some p => .ok (some p.alternatives)
    | none => .error place

/-- Adds a production at the end and notes its place, unless its tag has one already. The answer is
whether it was added. -/
def insert (s : Store) (tag : String) (alternatives : List (List Sym)) : Bool × Store :=
  if s.contains tag then (false, s)
  else (true, ⟨s.productions.push ⟨tag, alternatives⟩, s.index.insert tag s.productions.size⟩)

/-- Inserts one production after the other, and collects the answers. -/
def insertAll (s : Store) : List Production → List Bool × Store
  | [] => ([], s)
  | p :: insertions =>
    let (added, s) := s.insert p.tag p.alternatives
    let (answers, s) := s.insertAll insertions
    (added :: answers, s)

/-- The index leads from every tag to where it stands, and from nothing else anywhere. -/
def Indexed (s : Store) : Prop :=
  ∀ (tag : String) (place : Nat),
    s.index[tag]? = some place ↔ s.grammar.tags[place]? = some tag

/-- What is not added leaves the store as it is. -/
theorem insert_added_or_unchanged (s : Store) (tag : String) (alternatives : List (List Sym)) :
    (s.insert tag alternatives).1 = true ∨ (s.insert tag alternatives).2 = s := by
  unfold insert
  split
  · exact .inr rfl
  · exact .inl rfl

theorem indexed_empty : empty.Indexed := by
  intro tag place
  simp [empty, grammar, tags]

namespace Indexed

variable {s : Store}

theorem contains_eq (h : s.Indexed) (tag : String) : s.contains tag = s.grammar.contains tag := by
  rw [Bool.eq_iff_iff, Grammar.contains_iff, List.mem_iff_getElem?, Store.contains,
    Std.HashMap.contains_eq_isSome_getElem?, Option.isSome_iff_exists]
  exact exists_congr (h tag)

theorem mem_index_iff (h : s.Indexed) {tag : String} : tag ∈ s.index ↔ tag ∈ s.grammar.tags := by
  rw [← Grammar.contains_iff, ← h.contains_eq]
  exact Std.HashMap.mem_iff_contains

theorem index_eq_some_iff (h : s.Indexed) {tag : String} {place : Nat} :
    s.index[tag]? = some place ↔
      ∃ h : place < s.productions.size, s.productions[place].tag = tag := by
  rw [h tag place, tags, List.getElem?_map, Option.map_eq_some_iff]
  simp [grammar, Array.getElem?_eq_some_iff]

/-- No tag stands in two places. -/
theorem nodup_tags (h : s.Indexed) : s.grammar.tags.Nodup := by
  refine List.nodup_iff_getElem?_ne_getElem?.mpr fun i j hlt hj heq => ?_
  have hsecond := List.getElem?_eq_getElem hj
  have hplace := ((h _ i).mpr (heq.trans hsecond)).symm.trans ((h _ j).mpr hsecond)
  exact Nat.ne_of_lt hlt (Option.some.inj hplace)

theorem get?_eq (h : s.Indexed) (tag : String) : s.get? tag = .ok (s.grammar.get? tag) := by
  unfold Store.get?
  cases hplace : s.index[tag]? with
  | none =>
    have hnone : s.grammar.contains tag = false := by
      rw [← h.contains_eq, Store.contains, Std.HashMap.contains_eq_isSome_getElem?, hplace]
      rfl
    rw [← isSome_get?, Option.isSome_eq_false_iff, Option.isNone_iff_eq_none] at hnone
    rw [hnone]
  | some place =>
    obtain ⟨hlt, rfl⟩ := h.index_eq_some_iff.mp hplace
    rw [get?_eq_some h.nodup_tags (Array.getElem_mem_toList hlt)]
    simp only [Array.getElem?_eq_getElem hlt]

theorem insert_fst (h : s.Indexed) (tag : String) (alternatives : List (List Sym)) :
    (s.insert tag alternatives).1 = !s.grammar.contains tag := by
  rw [← h.contains_eq]
  unfold Store.insert
  split <;> simp [*]

/-- What is added to the store is added to the grammar. -/
theorem grammar_insert (h : s.Indexed) (tag : String) (alternatives : List (List Sym)) :
    (s.insert tag alternatives).2.grammar = s.grammar.insert tag alternatives := by
  unfold Store.insert Grammar.insert
  rw [h.contains_eq]
  split
  · rfl
  · exact congrArg Grammar.mk Array.toList_push

/-- A new tag stands behind the others, none of which moves. -/
protected theorem insert (h : s.Indexed) (tag : String) (alternatives : List (List Sym)) :
    (s.insert tag alternatives).2.Indexed := by
  intro word place
  rw [h.grammar_insert, tags_insert]
  unfold Store.insert
  rw [h.contains_eq]
  split
  · next hold => rw [if_pos (contains_iff.mp hold), h word place]
  · next hnew =>
    rw [contains_iff] at hnew
    have hsize : s.productions.size = s.grammar.tags.length := by simp [grammar, tags]
    rw [if_neg hnew, getElem?_concat_eq_some_iff, Std.HashMap.getElem?_insert, hsize]
    by_cases hword : tag = word
    · have hold : s.grammar.tags[place]? ≠ some tag := fun hsome =>
        hnew (List.mem_of_getElem? hsome)
      simp [← hword, hold, eq_comm]
    · simp [hword, h word place]

/-! ## Runs -/

theorem insertAll (h : s.Indexed) (insertions : List Production) :
    (s.insertAll insertions).2.Indexed ∧
      (s.insertAll insertions).2.grammar = s.grammar.insertAll insertions := by
  induction insertions generalizing s with
  | nil => exact ⟨h, rfl⟩
  | cons p insertions ih =>
    obtain ⟨hindexed, hgrammar⟩ := ih (h.insert p.tag p.alternatives)
    rw [h.grammar_insert] at hgrammar
    exact ⟨hindexed, hgrammar⟩

/-- Each answer is whether the tag was new. -/
theorem answers_eq (h : s.Indexed) (insertions : List Production) :
    (s.insertAll insertions).1 =
      insertions.mapIdx fun i p => !(s.grammar.insertAll (insertions.take i)).contains p.tag := by
  induction insertions generalizing s with
  | nil => rfl
  | cons p insertions ih =>
    have hrest := ih (h.insert p.tag p.alternatives)
    rw [h.grammar_insert] at hrest
    rw [List.mapIdx_cons]
    exact congrArg₂ List.cons (h.insert_fst p.tag p.alternatives) hrest

end Indexed

theorem answers_insertAll (insertions : List Production) :
    (empty.insertAll insertions).1 = insertions.mapIdx fun i p =>
      decide (p.tag ∉ (insertions.map Production.tag).take i) := by
  rw [indexed_empty.answers_eq]
  congr
  funext i p
  have hold : (empty.grammar.insertAll (insertions.take i)).contains p.tag =
      decide (p.tag ∈ (insertions.take i).map Production.tag) := contains_insertAll ..
  rw [hold, List.map_take, decide_not]

end Store

/-- A grammar is an ordered write-once map. Whatever is inserted into an empty store, one
production after the other, the store agrees with the grammar. The index has a place for the tags
that were inserted and for no others, and it is the one place where the production of the tag
stands. An insertion is answered with yes if the tag was not inserted before; otherwise it leaves
the store as it is. A tag has the alternatives with which it was inserted first, and looking it up
never leads behind the end. The tags are listed in the order of their first insertions. -/
theorem grammar_is_write_once (insertions : List Production) :
    let inserted := insertions.map Production.tag
    let g := empty.insertAll insertions
    let answers := (Store.empty.insertAll insertions).1
    let s := (Store.empty.insertAll insertions).2
    (s.grammar = g ∧ ∀ tag, s.contains tag = g.contains tag ∧ s.get? tag = .ok (g.get? tag)) ∧
    (∀ tag, tag ∈ s.index ↔ tag ∈ inserted) ∧
    (∀ tag place, s.index[tag]? = some place ↔
      ∃ h : place < s.productions.size, s.productions[place].tag = tag) ∧
    answers = insertions.mapIdx (fun i p => decide (p.tag ∉ inserted.take i)) ∧
    (∀ tag alternatives, ((s.insert tag alternatives).1 = true ↔ tag ∉ inserted) ∧
      ((s.insert tag alternatives).1 = true ∨ (s.insert tag alternatives).2 = s)) ∧
    (∀ tag, g.get? tag = (insertions.find? (·.tag == tag)).map Production.alternatives) ∧
    (∀ tag, tag ∈ g.tags ↔ tag ∈ inserted) ∧
    g.tags.Pairwise fun a b => inserted.idxOf a < inserted.idxOf b := by
  obtain ⟨hindexed, hgrammar⟩ := Store.indexed_empty.insertAll insertions
  refine ⟨⟨hgrammar, fun tag => ⟨?_, ?_⟩⟩, fun tag => ?_,
    fun tag place => hindexed.index_eq_some_iff, Store.answers_insertAll insertions,
    fun tag alternatives => ⟨?_, Store.insert_added_or_unchanged ..⟩, fun tag => ?_,
    fun tag => mem_tags_insertAll, pairwise_tags_insertAll insertions⟩
  · exact hgrammar ▸ hindexed.contains_eq tag
  · exact hgrammar ▸ hindexed.get?_eq tag
  · rw [hindexed.mem_index_iff, hgrammar]
    exact mem_tags_insertAll
  · have hadded : (((Store.empty.insertAll insertions).2).insert tag alternatives).1 =
        !(empty.insertAll insertions).contains tag := hgrammar ▸ hindexed.insert_fst ..
    rw [hadded, contains_insertAll, ← decide_not, decide_eq_true_iff]
  · rw [get?_insertAll]
    rfl

/-- A tag that is inserted again keeps its alternatives. -/
example : (empty.insertAll [⟨"value", [[.exact "pi"]]⟩, ⟨"value", []⟩]).get? "value" =
    some [[.exact "pi"]] := by
  decide

end Grammar

end Parlance
