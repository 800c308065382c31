import Parlance.Proofs.Grammar.Derivation

/-
  Which exit words a published grammar lists. The tag of a repetition is made of the tag of its
  child, and its exit word has no part in it; a tag is registered once. So repetitions over the
  same child share one production, and it is that of the one the walk meets first: the exit words
  of the others are read by the parser but appear nowhere. `exit_published_iff` says which word is
  published, for languages whose types and primitives have names of their own without dots; there
  the tag of a repetition belongs to repetitions alone, and every repetition has an entry.
-/

namespace Parlance

variable {ι W V : Type}

/-- The expression is a repetition, which has no name of its own. -/
def Expr.isRep : Expr ι V → Bool
  | .rep _ _ => true
  | .prim _ | .type _ => false

/-- The types and primitives that can be reached have distinct names, without dots. -/
structure Language.PlainNames (l : Language ι W V) : Prop where
  eq_of_tag {e e' : Expr ι V} : l.vocabulary.Reachable l.root e →
    l.vocabulary.Reachable l.root e' → ¬ e.isRep = true → ¬ e'.isRep = true →
    e.tag l.vocabulary.tag = e'.tag l.vocabulary.tag → e = e'
  no_dot {e : Expr ι V} : l.vocabulary.Reachable l.root e → ¬ e.isRep = true →
    '.' ∉ (e.tag l.vocabulary.tag).toList

/-- The alternative is listed under the tag. -/
def Grammar.Publishes (g : Grammar) (tag : String) (alternative : List Sym) : Prop :=
  ∃ alternatives, g.get? tag = some alternatives ∧ alternative ∈ alternatives

/-! ## The tags of repetitions -/

theorem Mode.length_mark (m : Mode) : m.mark.toList.length = 1 := by
  cases m <;> rfl

theorem Expr.toList_tag_rep (typeTag : ι → String) (r : Repetition V) (child : Expr ι V) :
    ((Expr.rep r child).tag typeTag).toList =
      r.mode.mark.toList ++ '.' :: (child.tag typeTag).toList := by
  simp only [Expr.tag, String.toList_append, List.append_assoc]
  rfl

/-- The tag of the child can be read off the tag of a repetition. -/
theorem Expr.tag_child_eq {typeTag : ι → String} {r r' : Repetition V} {child child' : Expr ι V}
    (h : (Expr.rep r child).tag typeTag = (Expr.rep r' child').tag typeTag) :
    child.tag typeTag = child'.tag typeTag := by
  have hchars := congrArg String.toList h
  rw [toList_tag_rep, toList_tag_rep] at hchars
  have hrest := (List.append_inj hchars (r.mode.length_mark.trans r'.mode.length_mark.symm)).2
  exact String.toList_injective (List.cons.inj hrest).2

theorem Expr.dot_mem_tag_rep (typeTag : ι → String) (r : Repetition V) (child : Expr ι V) :
    '.' ∈ ((Expr.rep r child).tag typeTag).toList := by
  rw [toList_tag_rep]
  exact List.mem_append_right _ List.mem_cons_self

namespace Language

variable {l : Language ι W V} {walk : List (Expr ι V)}

theorem toList_tag (l : Language ι W V) : l.tag.toList = ['l'] ++ '.' :: l.name.toList := by
  rw [tag, String.toList_append]
  rfl

theorem tag_rep_ne (l : Language ι W V) (r : Repetition V) (child : Expr ι V) :
    (Expr.rep r child).tag l.vocabulary.tag ≠ l.tag := by
  intro h
  have hchars := congrArg String.toList h
  rw [Expr.toList_tag_rep, toList_tag] at hchars
  have hmark := (List.append_inj hchars r.mode.length_mark).1
  cases hmode : r.mode <;> rw [hmode] at hmark <;> exact absurd hmark (by decide)

namespace PlainNames

theorem ne_tag (h : l.PlainNames) {e : Expr ι V} (he : l.vocabulary.Reachable l.root e) :
    e.tag l.vocabulary.tag ≠ l.tag := by
  cases e with
  | rep r child => exact l.tag_rep_ne r child
  | prim _ | type _ =>
    intro htag
    refine h.no_dot he (by simp [Expr.isRep]) ?_
    rw [htag, toList_tag]
    simp

/-- What has the tag of a repetition is a repetition, over a child with the same tag. -/
theorem eq_rep (h : l.PlainNames) {e : Expr ι V} (he : l.vocabulary.Reachable l.root e)
    {r : Repetition V} {child : Expr ι V}
    (htag : e.tag l.vocabulary.tag = (Expr.rep r child).tag l.vocabulary.tag) :
    ∃ r' child', e = .rep r' child' ∧
      child'.tag l.vocabulary.tag = child.tag l.vocabulary.tag := by
  cases e with
  | rep r' child' => exact ⟨r', child', rfl, Expr.tag_child_eq htag⟩
  | prim _ | type _ =>
    refine absurd ?_ (h.no_dot he (by simp [Expr.isRep]))
    rw [htag]
    exact Expr.dot_mem_tag_rep _ r child

/-- What has the name of a type or a primitive is that type or primitive. -/
theorem eq_named (h : l.PlainNames) {e e' : Expr ι V} (he : l.vocabulary.Reachable l.root e)
    (he' : l.vocabulary.Reachable l.root e') (hnamed : ¬ e'.isRep = true)
    (htag : e.tag l.vocabulary.tag = e'.tag l.vocabulary.tag) : e = e' := by
  refine h.eq_of_tag he he' (fun hrep => ?_) hnamed htag
  cases e with
  | rep r child =>
    obtain ⟨_, _, rfl, -⟩ := h.eq_rep he' htag.symm
    exact hnamed rfl
  | prim _ | type _ => cases hrep

/-! ## Every repetition has an entry -/

/-- What has the tag of a listed expression is listed. -/
theorem listed_of_tag (h : l.PlainNames) {e e' : Expr ι V}
    (he : l.vocabulary.Reachable l.root e) (he' : l.vocabulary.Reachable l.root e')
    (htag : e'.tag l.vocabulary.tag = e.tag l.vocabulary.tag)
    (hlisted : l.vocabulary.Listed [l.production] walk e) :
    l.vocabulary.Listed [l.production] walk e' := by
  rcases hlisted with hprim | hmem
  · have hnamed : ¬ e.isRep = true := by cases e <;> simp_all [Expr.isPrim, Expr.isRep]
    rw [h.eq_named he' he hnamed htag]
    exact .inl hprim
  · exact .inr (htag ▸ hmem)

/-- The walk has entered an expression with the tag of what is listed. -/
theorem exists_entered (h : l.PlainNames) {e : Expr ι V} (he : l.vocabulary.Reachable l.root e)
    (hprim : ¬ e.isPrim = true) (hlisted : l.vocabulary.Listed [l.production] walk e) :
    ∃ e₀ ∈ walk, e₀.tag l.vocabulary.tag = e.tag l.vocabulary.tag := by
  rcases Vocabulary.mem_tags_listing.mp (hlisted.resolve_left hprim) with
    ⟨p, hp, htag⟩ | ⟨e₀, he₀, -, htag⟩
  · cases List.mem_singleton.mp hp
    exact absurd htag.symm (h.ne_tag he)
  · exact ⟨e₀, he₀, htag⟩

/-- The walk leaves no tag out. What it passes over has the tag of something that it has entered;
if that is another expression, both are repetitions, and their children share a tag again. -/
theorem listed (h : l.PlainNames) (hw : l.Walk walk) {e : Expr ι V}
    (he : l.vocabulary.Reachable l.root e) : l.vocabulary.Listed [l.production] walk e := by
  induction he with
  | refl => exact hw.listed_root
  | @tail e e' he hr ih =>
    obtain ⟨e₀, he₀, htag⟩ := h.exists_entered he hr.not_isPrim ih
    have hreach₀ := hw.reachable he₀
    cases e with
    | prim p => exact absurd rfl hr.not_isPrim
    | type name =>
      cases h.eq_named hreach₀ he (by simp [Expr.isRep]) htag
      exact hw.listed_of_refers he₀ hr
    | rep r child =>
      obtain ⟨r₀, child₀, rfl, hchild⟩ := h.eq_rep hreach₀ htag
      cases hr with
      | silent hs =>
        cases hs
        -- The child of the repetition that was entered stands in for this child.
        have hitem : l.vocabulary.Refers (.rep r₀ child₀) child₀ := .silent .item
        exact h.listed_of_tag (hreach₀.tail hitem) (he.tail (.silent .item)) hchild.symm
          (hw.listed_of_refers he₀ hitem)

/-- Of the repetitions with one tag, the walk enters one. -/
theorem exists_entered_rep (h : l.PlainNames) (hw : l.Walk walk) {r : Repetition V}
    {child : Expr ι V} (he : l.vocabulary.Reachable l.root (.rep r child)) :
    ∃ r₀ child₀, .rep r₀ child₀ ∈ walk ∧
      (Expr.rep r₀ child₀).tag l.vocabulary.tag = (Expr.rep r child).tag l.vocabulary.tag ∧
      child₀.tag l.vocabulary.tag = child.tag l.vocabulary.tag := by
  obtain ⟨e₀, he₀, htag⟩ := h.exists_entered he (by simp [Expr.isPrim]) (h.listed hw he)
  obtain ⟨r₀, child₀, rfl, hchild⟩ := h.eq_rep (hw.reachable he₀) htag
  exact ⟨r₀, child₀, he₀, htag, hchild⟩

end PlainNames

/-- No two expressions with the same tag are entered. -/
theorem Walk.eq_of_tag (hw : l.Walk walk) {e e' : Expr ι V} (he : e ∈ walk) (he' : e' ∈ walk)
    (htag : e.tag l.vocabulary.tag = e'.tag l.vocabulary.tag) : e = e' := by
  have htags : (walk.filterMap l.vocabulary.production?).map Production.tag =
      walk.map (Expr.tag l.vocabulary.tag) := by
    rw [List.map_filterMap, ← List.filterMap_eq_map]
    refine List.filterMap_congr fun e he => ?_
    obtain ⟨p, hp, htag⟩ := l.vocabulary.exists_production? (hw.not_isPrim he)
    simp [hp, htag]
  have hnodup := hw.nodup_tags
  rw [Vocabulary.listing, Grammar.tags, List.map_append, htags] at hnodup
  exact List.inj_on_of_nodup_map (List.nodup_append.mp hnodup).2.1 he he' htag

/-- The endings that are listed under the tag of a repetition are those of the one entered. -/
theorem Walk.publishes_iff (hw : l.Walk walk)
    (hg : l.grammar = l.vocabulary.listing [l.production] walk) {r : Repetition V}
    {child : Expr ι V} (he : .rep r child ∈ walk) (word : String) :
    l.grammar.Publishes ((Expr.rep r child).tag l.vocabulary.tag)
      [.many (child.tag l.vocabulary.tag), .exact word] ↔ r.exit = some word := by
  have hget := hw.get?_tag he rfl
  rw [← hg] at hget
  constructor
  · rintro ⟨alternatives, hget', ha⟩
    cases hget.symm.trans hget'
    have hoffer : l.vocabulary.Offers (.rep r child) _ _ := Vocabulary.offers_iff.mpr ⟨rfl, ha⟩
    cases hoffer with
    | closed hx => exact hx
  · intro hx
    exact ⟨_, hget, (Vocabulary.offers_iff.mp (.closed hx)).2⟩

end Language

/-- Which endings are published for a list. Under its tag the walk enters one repetition, the
first one that it meets, and the exit word that is published there is the exit word of that one.
So the exit words of all lists with the tag are published if they agree, and only those that are
the same as that of the first. -/
theorem exit_published_iff (l : Language ι W V) (hl : l.PlainNames) {r : Repetition V}
    {child : Expr ι V} (he : l.vocabulary.Reachable l.root (.rep r child)) :
    ∃ walk r₀ child₀, (∀ walk', l.Walk walk' ↔ walk' = walk) ∧
      (∀ e, e ∈ walk ∧ e.tag l.vocabulary.tag = (Expr.rep r child).tag l.vocabulary.tag ↔
        e = .rep r₀ child₀) ∧
      (∀ word, l.grammar.Publishes ((Expr.rep r child).tag l.vocabulary.tag)
        [.many (child.tag l.vocabulary.tag), .exact word] ↔ r₀.exit = some word) ∧
      ((∀ r' child', l.vocabulary.Reachable l.root (.rep r' child') →
          (Expr.rep r' child').tag l.vocabulary.tag = (Expr.rep r child).tag l.vocabulary.tag →
          r'.exit = r.exit) →
        ∀ word, r.exit = some word →
          l.grammar.Publishes ((Expr.rep r child).tag l.vocabulary.tag)
            [.many (child.tag l.vocabulary.tag), .exact word]) := by
  obtain ⟨walk, hw, hg⟩ := l.exists_walk
  obtain ⟨r₀, child₀, he₀, htag, hchild⟩ := hl.exists_entered_rep hw he
  have hpublished := hw.publishes_iff hg he₀
  rw [htag, hchild] at hpublished
  refine ⟨walk, r₀, child₀, fun walk' => ⟨hw.unique, fun h => h ▸ hw⟩, fun e => ?_, hpublished,
    fun hsame word hx => (hpublished word).mpr ?_⟩
  · constructor
    · rintro ⟨he', htag'⟩
      exact hw.eq_of_tag he' he₀ (htag'.trans htag.symm)
    · rintro rfl
      exact ⟨he₀, htag⟩
  · rw [hsame r₀ child₀ (hw.reachable he₀) htag]
    exact hx

namespace Demo.Calc

theorem plainNames_language : language.PlainNames where
  eq_of_tag he he' _ _ htag := distinctTags_language.eq_of_tag he he' htag
  no_dot he hnamed := by
    cases part_of_reachable he with
    | type name => cases name <;> decide
    | number | bool => decide
    | numbers => exact absurd rfl hnamed

end Demo.Calc

/-- The calculator has one list of values, so that its exit word is published. -/
theorem exit_published_iff_calc :
    Demo.Calc.language.PlainNames ∧
      Demo.Calc.vocabulary.Reachable Demo.Calc.language.root Demo.Calc.numbers ∧
      Demo.Calc.language.grammar.Publishes "r.value" [.many "value", .exact "-"] := by
  refine ⟨Demo.Calc.plainNames_language, Demo.Calc.reachable_numbers, ?_⟩
  obtain ⟨walk, r₀, child₀, -, -, -, hagree⟩ :=
    exit_published_iff Demo.Calc.language Demo.Calc.plainNames_language
      Demo.Calc.reachable_numbers
  refine hagree (fun r' child' hr' _ => ?_) "-" rfl
  cases Demo.Calc.part_of_reachable hr'
  rfl

/-! ## Two lists over one child -/

namespace TwoLists

/-- A list of whole numbers. -/
def ints (exit : Option String) : Expr Unit Int :=
  .rep ⟨.sequential, exit, fun values => values.foldl (· + ·) 0⟩ (.prim Literal.int)

/-- One command takes all the words that are left, the other a list that is closed by `-`. -/
def rules : List (Rule Unit Unit Int) :=
  [⟨"rest", [ints none], fun _ => .pure 0⟩, ⟨"some", [ints (some "-")], fun _ => .pure 0⟩]

/-- Two commands on lists of whole numbers. -/
def language : Language Unit Unit Int where
  name := "lists"
  root := .type ()
  vocabulary :=
    { tag := fun _ => "cmd"
      table := fun _ => some (.ofRules rules none)
      names := [()]
      mem_names := by simp }

/-- What the language is made of. -/
inductive Part : Expr Unit Int → Prop where
  | command : Part (.type ())
  | list (exit : Option String) : Part (ints exit)
  | int : Part (.prim Literal.int)

theorem part_of_reachable {e : Expr Unit Int}
    (h : language.vocabulary.Reachable language.root e) : Part e := by
  induction h with
  | refl => exact .command
  | tail _ hr ih =>
    cases hr with
    | argument ht hrule harg =>
      cases ht
      have hargs : ∀ rule ∈ rules, ∀ e ∈ rule.args, ∃ exit, e = ints exit := by simp [rules]
      obtain ⟨exit, rfl⟩ := hargs _ (show _ ∈ rules from hrule) _ harg
      exact .list exit
    | silent hs =>
      cases hs with
      | fallback ht hf =>
        cases ht
        cases hf
      | item =>
        cases ih
        exact .int

theorem plainNames_language : language.PlainNames where
  eq_of_tag he he' hnamed hnamed' htag := by
    cases part_of_reachable he <;> cases part_of_reachable he' <;>
      first
      | rfl
      | exact absurd rfl hnamed
      | exact absurd rfl hnamed'
      | exact absurd htag (by decide)
  no_dot he hnamed := by
    cases part_of_reachable he with
    | command | int => decide
    | list _ => exact absurd rfl hnamed

theorem reachable_closed : language.vocabulary.Reachable language.root (ints (some "-")) :=
  .of_argument rfl (Table.lookup_mem (rfl : Table.lookup _ "some" = some _)) List.mem_cons_self

end TwoLists

/-- The second list ends at its exit word, and no alternative says so: the walk meets the list
without an exit word first. -/
theorem second_exit_not_published :
    TwoLists.language.PlainNames ∧
      TwoLists.language.vocabulary.Reachable TwoLists.language.root
        (TwoLists.ints (some "-")) ∧
      ¬ TwoLists.language.grammar.Publishes "r.int" [.many "int", .exact "-"] ∧
      ∃ p c, TwoLists.language.parse ["some", "1", "-"] = .accepted p c := by
  refine ⟨TwoLists.plainNames_language, TwoLists.reachable_closed, ?_, _, _, rfl⟩
  rintro ⟨alternatives, hget, hmem⟩
  have hopen : TwoLists.language.grammar.get? "r.int" = some [[.many "int", .endOfInput]] := by
    decide
  cases hopen.symm.trans hget
  exact absurd hmem (by decide)

end Parlance
