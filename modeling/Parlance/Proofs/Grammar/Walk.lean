import Parlance.Demo.Calc
import Parlance.Proofs.DepthFirst
import Parlance.Proofs.Grammar.Store
import Parlance.Proofs.Reading.Failures

/-
  Which productions a published grammar has. The derivation of a grammar is a depth-first walk of
  the expressions that goes by tags: an expression is passed over if its tag has a production
  already. `Language.exists_walk` says so of every language, with any cycles and with tags that
  collide; the bound on the depth to which types are opened is never reached, because a type that
  is opened has a name that was not listed before.

  From the walk alone follows that no tag has two productions and that all that is mentioned is
  published or a primitive (`Language.mentioned`). If tags tell the types and repetitions apart,
  going by tags is going by expressions, and the productions are those of everything that can be
  reached, in depth-first pre-order.
-/

namespace Parlance

variable {ι W V : Type}

/-! ## What one expression publishes -/

/-- The expression is a primitive, which has no production. -/
def Expr.isPrim : Expr ι V → Bool
  | .prim _ => true
  | .type _ | .rep _ _ => false

/-- The tag that a symbol refers to. -/
def Sym.tag? : Sym → Option String
  | .type tag | .many tag => some tag
  | .exact _ | .endOfInput => none

namespace Vocabulary

/-- The production of a type or a repetition. A type that is not defined has no alternatives. -/
def production? (v : Vocabulary ι W V) : Expr ι V → Option Production
  | .prim _ => none
  | .type name => some ⟨v.tag name, ((v.table name).map (Table.alternatives v)).getD []⟩
  | .rep r child => some ⟨(Expr.rep r child).tag v.tag, r.alternatives (child.tag v.tag)⟩

/-- What an expression refers to: the arguments of its rules as they were registered, then its
fallback; or the child. -/
def references (v : Vocabulary ι W V) : Expr ι V → List (Expr ι V)
  | .prim _ => []
  | .type name =>
    ((v.table name).map fun t => t.rules.flatMap Rule.args ++ t.fallback.toList).getD []
  | .rep _ child => [child]

theorem production?_eq_none_iff {v : Vocabulary ι W V} {e : Expr ι V} :
    v.production? e = none ↔ e.isPrim = true := by
  cases e <;> simp [production?, Expr.isPrim]

theorem production?_tag {v : Vocabulary ι W V} {e : Expr ι V} {p : Production}
    (h : v.production? e = some p) : p.tag = e.tag v.tag := by
  cases e with
  | prim _ => cases h
  | type _ | rep _ _ =>
    cases h
    rfl

theorem exists_production? (v : Vocabulary ι W V) {e : Expr ι V} (h : ¬ e.isPrim = true) :
    ∃ p, v.production? e = some p ∧ p.tag = e.tag v.tag := by
  obtain ⟨p, hp⟩ := Option.ne_none_iff_exists'.mp fun hn => h (production?_eq_none_iff.mp hn)
  exact ⟨p, hp, production?_tag hp⟩

/-- A primitive refers to nothing. -/
theorem Refers.not_isPrim {v : Vocabulary ι W V} {e e' : Expr ι V} (h : v.Refers e e') :
    ¬ e.isPrim = true := by
  intro hprim
  cases h with
  | argument _ _ _ => cases hprim
  | silent hs => cases hs <;> cases hprim

theorem mem_references {v : Vocabulary ι W V} {e e' : Expr ι V} :
    e' ∈ v.references e ↔ v.Refers e e' := by
  constructor
  · intro h
    cases e with
    | prim p => cases h
    | rep r child =>
      cases List.mem_singleton.mp h
      exact .silent .item
    | type name =>
      unfold references at h
      cases ht : v.table name with
      | none => simp [ht] at h
      | some table =>
        simp only [ht, Option.map_some, Option.getD_some, List.mem_append, List.mem_flatMap,
          Option.mem_toList] at h
        rcases h with ⟨rule, hrule, harg⟩ | hf
        · exact .argument ht hrule harg
        · exact .silent (.fallback ht hf)
  · rintro (⟨ht, hrule, harg⟩ | ⟨⟨ht, hf⟩ | _⟩)
    · simp only [references, ht, Option.map_some, Option.getD_some]
      exact List.mem_append_left _ (List.mem_flatMap.mpr ⟨_, hrule, harg⟩)
    · simp only [references, ht, Option.map_some, Option.getD_some]
      exact List.mem_append_right _ (by simp [hf])
    · exact List.mem_singleton.mpr rfl

/-- The expression has an alternative, among these: a rule, the fallback, or one of the two
endings of a list. -/
inductive Offers (v : Vocabulary ι W V) :
    Expr ι V → List (List Sym) → List Sym → Prop where
  | rule {name : ι} {table : Table ι W V} {rule : Rule ι W V} :
      v.table name = some table → rule ∈ table.rules →
      Offers v (.type name) (table.alternatives v) (rule.alternative v)
  | fallback {name : ι} {table : Table ι W V} {e : Expr ι V} :
      v.table name = some table → table.fallback = some e →
      Offers v (.type name) (table.alternatives v) [.type (e.tag v.tag)]
  | unclosed {r : Repetition V} {child : Expr ι V} :
      Offers v (.rep r child) (r.alternatives (child.tag v.tag))
        [.many (child.tag v.tag), .endOfInput]
  | closed {r : Repetition V} {child : Expr ι V} {word : String} : r.exit = some word →
      Offers v (.rep r child) (r.alternatives (child.tag v.tag))
        [.many (child.tag v.tag), .exact word]

theorem offers_iff {v : Vocabulary ι W V} {e : Expr ι V}
    {alternatives : List (List Sym)} {alternative : List Sym} :
    v.Offers e alternatives alternative ↔
      (v.production? e).map Production.alternatives = some alternatives ∧
        alternative ∈ alternatives := by
  constructor
  · rintro (⟨ht, hr⟩ | ⟨ht, hf⟩ | _ | hx)
    · simp only [production?, ht, Option.map_some, Option.getD_some, true_and]
      exact List.mem_append_left _ (List.mem_map_of_mem hr)
    · simp only [production?, ht, Option.map_some, Option.getD_some, true_and]
      exact List.mem_append_right _ (by simp [hf])
    · exact ⟨rfl, List.mem_cons_self⟩
    · exact ⟨rfl, List.mem_cons_of_mem _ (by simp [hx])⟩
  · rintro ⟨hp, ha⟩
    cases e with
    | prim p => cases hp
    | rep r child =>
      cases hp
      simp only [Repetition.alternatives, List.mem_cons, List.mem_map, Option.mem_toList] at ha
      rcases ha with rfl | ⟨word, hx, rfl⟩
      · exact .unclosed
      · exact .closed hx
    | type name =>
      cases hp
      cases ht : v.table name with
      | none => simp [ht] at ha
      | some table =>
        simp only [ht, Option.map_some, Option.getD_some] at ha ⊢
        simp only [Table.alternatives, List.mem_append, List.mem_map, Option.mem_toList] at ha
        rcases ha with ⟨rule, hr, rfl⟩ | ⟨e, hf, rfl⟩
        · exact .rule ht hr
        · exact .fallback ht hf

/-- The symbols of an alternative mention what the expression refers to. -/
theorem Offers.mentions {v : Vocabulary ι W V} {e : Expr ι V} {alternatives : List (List Sym)}
    {alternative : List Sym} (h : v.Offers e alternatives alternative) {s : Sym}
    (hs : s ∈ alternative) {tag : String} (ht : s.tag? = some tag) :
    ∃ e', v.Refers e e' ∧ e'.tag v.tag = tag := by
  cases h with
  | rule htable hr =>
    rcases List.mem_cons.mp hs with rfl | hs
    · cases ht
    · obtain ⟨e', he', rfl⟩ := List.mem_map.mp hs
      cases ht
      exact ⟨e', .argument htable hr he', rfl⟩
  | fallback htable hf =>
    cases List.mem_singleton.mp hs
    cases ht
    exact ⟨_, .silent (.fallback htable hf), rfl⟩
  | unclosed | closed _ =>
    simp only [List.mem_cons, List.not_mem_nil, or_false] at hs
    rcases hs with rfl | rfl <;> cases ht
    exact ⟨_, .silent .item, rfl⟩

end Vocabulary

/-! ## The walk -/

namespace Vocabulary

/-- The grammar that has `base`, and then the productions of what was entered. -/
def listing (v : Vocabulary ι W V) (base : List Production) (seen : List (Expr ι V)) : Grammar :=
  ⟨base ++ seen.filterMap v.production?⟩

/-- The walk passes over an expression: it has no production, or its tag has one. -/
def Listed (v : Vocabulary ι W V) (base : List Production) (seen : List (Expr ι V))
    (e : Expr ι V) : Prop :=
  e.isPrim = true ∨ e.tag v.tag ∈ (v.listing base seen).tags

variable {v : Vocabulary ι W V} {base : List Production}

theorem mem_tags_listing {seen : List (Expr ι V)} {tag : String} :
    tag ∈ (v.listing base seen).tags ↔
      (∃ p ∈ base, p.tag = tag) ∨ ∃ e ∈ seen, ¬ e.isPrim = true ∧ e.tag v.tag = tag := by
  unfold listing Grammar.tags
  rw [List.map_append, List.mem_append, List.mem_map, List.mem_map]
  refine or_congr Iff.rfl ?_
  constructor
  · rintro ⟨p, hp, rfl⟩
    obtain ⟨e, he, hep⟩ := List.mem_filterMap.mp hp
    refine ⟨e, he, fun hprim => ?_, (production?_tag hep).symm⟩
    rw [production?_eq_none_iff.mpr hprim] at hep
    cases hep
  · rintro ⟨e, he, hprim, rfl⟩
    obtain ⟨p, hp, htag⟩ := v.exists_production? hprim
    exact ⟨p, List.mem_filterMap.mpr ⟨e, he, hp⟩, htag⟩

theorem mem_tags_append {seen : List (Expr ι V)} (more : List (Expr ι V)) {tag : String}
    (h : tag ∈ (v.listing base seen).tags) : tag ∈ (v.listing base (seen ++ more)).tags := by
  refine mem_tags_listing.mpr ((mem_tags_listing.mp h).imp_right ?_)
  rintro ⟨e, he, h'⟩
  exact ⟨e, List.mem_append_left _ he, h'⟩

theorem marks_listed : DepthFirst.Marks (v.Listed base) where
  of_mem {seen e} he := by
    by_cases hprim : e.isPrim = true
    · exact .inl hprim
    · exact .inr (mem_tags_listing.mpr (.inr ⟨e, he, hprim, rfl⟩))
  append more h := h.imp_right (mem_tags_append more)

/-- Entering an expression adds its production at the end. -/
theorem listing_concat {seen : List (Expr ι V)} {e : Expr ι V} {p : Production}
    (hp : v.production? e = some p) (hn : p.tag ∉ (v.listing base seen).tags) :
    (v.listing base seen).insert p.tag p.alternatives = v.listing base (seen ++ [e]) := by
  rw [Grammar.insert, if_neg (mt Grammar.contains_iff.mp hn)]
  simp [listing, List.filterMap_append, hp]

/-- The defined names whose tags have no production. -/
def unlisted (v : Vocabulary ι W V) (g : Grammar) : List ι :=
  v.names.filter fun name => !g.contains (v.tag name)

theorem unlisted_append (seen more : List (Expr ι V)) :
    v.unlisted (v.listing base (seen ++ more)) =
      (v.unlisted (v.listing base seen)).filter
        fun name => !(v.listing base (seen ++ more)).contains (v.tag name) := by
  unfold unlisted
  rw [List.filter_filter]
  refine List.filter_congr fun name _ => ?_
  by_cases h : (v.listing base seen).contains (v.tag name) = true
  · have hmore := Grammar.contains_iff.mpr (mem_tags_append more (Grammar.contains_iff.mp h))
    simp [h, hmore]
  · simp [h]

theorem length_unlisted_append_le (seen more : List (Expr ι V)) :
    (v.unlisted (v.listing base (seen ++ more))).length ≤
      (v.unlisted (v.listing base seen)).length := by
  rw [unlisted_append]
  exact List.length_filter_le _ _

/-- A defined type that is entered is listed from then on. -/
theorem length_unlisted_concat_lt (base : List Production) {seen : List (Expr ι V)} {name : ι}
    (hname : name ∈ v.names) (hn : v.tag name ∉ (v.listing base seen).tags) :
    (v.unlisted (v.listing base (seen ++ [.type name]))).length <
      (v.unlisted (v.listing base seen)).length := by
  rw [unlisted_append, List.length_filter_lt_length_iff_exists]
  refine ⟨name, List.mem_filter.mpr ⟨hname, ?_⟩, ?_⟩
  · rw [Bool.not_eq_true', ← Bool.not_eq_true, Grammar.contains_iff]
    exact hn
  · have hmem : v.tag name ∈ (v.listing base (seen ++ [.type name])).tags :=
      mem_tags_listing.mpr (.inr ⟨.type name, by simp, by simp [Expr.isPrim], rfl⟩)
    simpa [Grammar.contains_iff] using hmem

/-- The walk from a stack ends, and its list has the productions of the grammar. -/
def Walks (v : Vocabulary ι W V) (base : List Production) (seen stack : List (Expr ι V))
    (g : Grammar) : Prop :=
  ∃ out, DepthFirst v.references (v.Listed base) seen stack out ∧ g = v.listing base out

/-- Registering expressions one after the other is the walk from all of them. -/
theorem foldl_walks (visit : Grammar → Expr ι V → Grammar) (n : Nat)
    (h : ∀ e seen, (v.unlisted (v.listing base seen)).length ≤ n →
      v.Walks base seen [e] (visit (v.listing base seen) e))
    (es : List (Expr ι V)) (seen : List (Expr ι V))
    (hn : (v.unlisted (v.listing base seen)).length ≤ n) :
    v.Walks base seen es (es.foldl visit (v.listing base seen)) := by
  induction es generalizing seen with
  | nil => exact ⟨seen, .done, rfl⟩
  | cons e es ih =>
    obtain ⟨mid, hmid, hg⟩ := h e seen hn
    obtain ⟨more, rfl⟩ := hmid.exists_append
    obtain ⟨out, hout, hrest⟩ := ih _ (Nat.le_trans (length_unlisted_append_le seen more) hn)
    exact ⟨out, hmid.append hout, by rw [List.foldl_cons, hg, hrest]⟩

/-- An expression is registered by the walk if types are. -/
theorem visitWith_walks {visit : ι → Grammar → Grammar} (n : Nat)
    (h : ∀ name seen, (v.unlisted (v.listing base seen)).length ≤ n →
      v.Walks base seen [.type name] (visit name (v.listing base seen)))
    (e : Expr ι V) (seen : List (Expr ι V))
    (hn : (v.unlisted (v.listing base seen)).length ≤ n) :
    v.Walks base seen [e] (e.visitWith v visit (v.listing base seen)) := by
  induction e generalizing seen with
  | prim p => exact ⟨seen, .skipped (.inl rfl) .done, rfl⟩
  | type name => exact h name seen hn
  | rep r child ih =>
    unfold Expr.visitWith
    dsimp only
    split
    · next hlisted =>
      exact ⟨seen, .skipped (.inr (Grammar.contains_iff.mp hlisted)) .done, rfl⟩
    · next hlisted =>
      rw [Grammar.contains_iff] at hlisted
      rw [listing_concat (e := .rep r child) rfl hlisted]
      obtain ⟨out, hout, hg⟩ :=
        ih (seen ++ [.rep r child]) (Nat.le_trans (length_unlisted_append_le _ _) hn)
      refine ⟨out, .entered ?_ hout .done, hg⟩
      rintro (hprim | htag)
      · cases hprim
      · exact hlisted htag

/-- The depth to which types are opened suffices if there are fewer names to list. -/
theorem visitType_walks (fuel : Nat) (name : ι) (seen : List (Expr ι V))
    (hn : (v.unlisted (v.listing base seen)).length < fuel) :
    v.Walks base seen [.type name] (visitType v fuel name (v.listing base seen)) := by
  induction fuel generalizing name seen with
  | zero => exact absurd hn (Nat.not_lt_zero _)
  | succ fuel ih =>
    unfold visitType
    split
    · next hlisted =>
      exact ⟨seen, .skipped (.inr (Grammar.contains_iff.mp hlisted)) .done, rfl⟩
    · next hlisted =>
      rw [Grammar.contains_iff] at hlisted
      have henter : ¬ v.Listed base seen (.type name) := by
        rintro (hprim | htag)
        · cases hprim
        · exact hlisted htag
      split
      · next ht =>
        have hp : v.production? (.type name) = some ⟨v.tag name, []⟩ := by
          simp [production?, ht]
        refine ⟨seen ++ [.type name], .entered henter ?_ .done, listing_concat hp hlisted⟩
        simpa [references, ht] using DepthFirst.done
      · next table ht =>
        have hp : v.production? (.type name) = some ⟨v.tag name, table.alternatives v⟩ := by
          simp [production?, ht]
        -- The name leaves the unlisted ones, so that the depth that is left suffices again.
        have hlt := length_unlisted_concat_lt base
          (v.mem_names name (by rw [ht]; rfl)) hlisted
        obtain ⟨out, hout, hg⟩ := foldl_walks (fun g e => e.visitWith v (visitType v fuel) g)
          (v.unlisted (v.listing base (seen ++ [.type name]))).length
          (fun e seen' hseen' => visitWith_walks _
            (fun name' seen' hseen' => ih name' seen' (by omega)) e seen' hseen')
          (table.rules.flatMap Rule.args ++ table.fallback.toList) _ (Nat.le_refl _)
        refine ⟨out, .entered henter ?_ .done, ?_⟩
        · simpa [references, ht] using hout
        · rw [← hg, listing_concat hp hlisted]

end Vocabulary

/-! ## The walk of a language -/

/-- The production of whole programs: the root, up to the end of the input. -/
def Language.production (l : Language ι W V) : Production :=
  ⟨l.tag, [[.type (l.root.tag l.vocabulary.tag), .endOfInput]]⟩

/-- The walk of a language has entered the expressions of the list, in that order. It starts from
the root, goes to the arguments of the rules before the fallback, and enters no tag twice. -/
def Language.Walk (l : Language ι W V) (walk : List (Expr ι V)) : Prop :=
  DepthFirst l.vocabulary.references (l.vocabulary.Listed [l.production]) [] [l.root] walk

namespace Language

variable {l : Language ι W V} {walk : List (Expr ι V)}

/-- Deriving a grammar ends, and it is the walk that gives the productions. -/
theorem exists_walk (l : Language ι W V) :
    ∃ walk, l.Walk walk ∧ l.grammar = l.vocabulary.listing [l.production] walk := by
  have hdepth : (l.vocabulary.unlisted (l.vocabulary.listing [l.production] [])).length <
      l.vocabulary.names.length + 1 := Nat.lt_succ_of_le (List.length_filter_le _ _)
  exact Vocabulary.visitWith_walks (l.vocabulary.names.length)
    (fun name seen hn => Vocabulary.visitType_walks _ name seen (Nat.lt_succ_of_le hn))
    l.root [] (Nat.le_of_lt_succ hdepth)

theorem refers_closed {v : Vocabulary ι W V} {root : Expr ι V} (e : Expr ι V)
    (he : v.Reachable root e) : ∀ e' ∈ v.references e, v.Reachable root e' :=
  fun _ h => he.tail (Vocabulary.mem_references.mp h)

theorem Walk.reachable (h : l.Walk walk) {e : Expr ι V} (he : e ∈ walk) :
    l.vocabulary.Reachable l.root e :=
  Relation.ReflTransGen.mono (fun _ _ hr => Vocabulary.mem_references.mp hr) _ _
    (DepthFirst.reachable h he)

/-- Everything that what was entered refers to is listed. -/
theorem Walk.listed_of_refers (h : l.Walk walk) {e e' : Expr ι V} (he : e ∈ walk)
    (hr : l.vocabulary.Refers e e') : l.vocabulary.Listed [l.production] walk e' :=
  (h.covers Vocabulary.marks_listed).2 e he (by simp) e' (Vocabulary.mem_references.mpr hr)

theorem Walk.listed_root (h : l.Walk walk) : l.vocabulary.Listed [l.production] walk l.root :=
  (h.covers Vocabulary.marks_listed).1 l.root List.mem_cons_self

theorem Walk.nodup_tags (h : l.Walk walk) :
    (l.vocabulary.listing [l.production] walk).tags.Nodup := by
  refine h.invariant (fun _ => True)
    (fun seen => (l.vocabulary.listing [l.production] seen).tags.Nodup)
    (fun _ _ _ _ => trivial) ?_ (by simp [Vocabulary.listing, Grammar.tags])
    (fun _ _ => trivial)
  intro seen e hnodup _ henter
  obtain ⟨p, hp, htag⟩ := l.vocabulary.exists_production? fun hprim => henter (.inl hprim)
  have htags : (l.vocabulary.listing [l.production] (seen ++ [e])).tags =
      (l.vocabulary.listing [l.production] seen).tags ++ [p.tag] := by
    simp [Vocabulary.listing, Grammar.tags, List.filterMap_append, hp]
  rw [htags, List.nodup_append]
  refine ⟨hnodup, List.nodup_singleton _, ?_⟩
  rintro tag hmem _ hmem' rfl
  cases List.mem_singleton.mp hmem'
  exact henter (.inr (htag ▸ hmem))

/-- The alternatives under the tag of what was entered are its own. -/
theorem Walk.get?_tag (h : l.Walk walk) {e : Expr ι V} (he : e ∈ walk) {p : Production}
    (hp : l.vocabulary.production? e = some p) :
    (l.vocabulary.listing [l.production] walk).get? (e.tag l.vocabulary.tag) =
      some p.alternatives := by
  rw [← Vocabulary.production?_tag hp]
  exact Grammar.get?_eq_some h.nodup_tags
    (List.mem_append_right _ (List.mem_filterMap.mpr ⟨e, he, hp⟩))

theorem Walk.not_isPrim (h : l.Walk walk) {e : Expr ι V} (he : e ∈ walk) : ¬ e.isPrim = true := by
  refine h.invariant (fun _ => True) (fun seen => ∀ e ∈ seen, ¬ e.isPrim = true)
    (fun _ _ _ _ => trivial) ?_ (by simp) (fun _ _ => trivial) e he
  intro seen e hseen _ henter
  exact List.forall_mem_append.mpr
    ⟨hseen, List.forall_mem_singleton.mpr fun hprim => henter (.inl hprim)⟩

/-- Whatever a production mentions has a production, or is the tag of a primitive. -/
theorem Walk.mentioned (h : l.Walk walk) {p : Production}
    (hp : p ∈ (l.vocabulary.listing [l.production] walk).productions) {alternative : List Sym}
    (ha : alternative ∈ p.alternatives) {s : Sym} (hs : s ∈ alternative) {tag : String}
    (ht : s.tag? = some tag) :
    tag ∈ (l.vocabulary.listing [l.production] walk).tags ∨
      ∃ prim, l.vocabulary.Reachable l.root (.prim prim) ∧ prim.tag = tag := by
  have hlisted : ∀ e, l.vocabulary.Reachable l.root e →
      l.vocabulary.Listed [l.production] walk e → e.tag l.vocabulary.tag = tag →
      tag ∈ (l.vocabulary.listing [l.production] walk).tags ∨
        ∃ prim, l.vocabulary.Reachable l.root (.prim prim) ∧ prim.tag = tag := by
    rintro e he (hprim | hmem) rfl
    · cases e with
      | prim prim => exact .inr ⟨prim, he, rfl⟩
      | type _ | rep _ _ => cases hprim
    · exact .inl hmem
  rcases List.mem_cons.mp hp with rfl | hp
  · -- The production of whole programs mentions the root alone.
    cases List.mem_singleton.mp ha
    simp only [List.mem_cons, List.not_mem_nil, or_false] at hs
    rcases hs with rfl | rfl <;> cases ht
    exact hlisted l.root (.refl _ _) h.listed_root rfl
  · obtain ⟨e, he, hep⟩ := List.mem_filterMap.mp hp
    have hoffer := Vocabulary.offers_iff.mpr ⟨congrArg (Option.map Production.alternatives) hep, ha⟩
    obtain ⟨e', hr, htag⟩ := hoffer.mentions hs ht
    exact hlisted e' ((h.reachable he).tail hr) (h.listed_of_refers he hr) htag

end Language

/-! ## Languages whose tags tell types and repetitions apart -/

/-- No two types or repetitions that can be reached have the same tag, and none has that of the
language. Primitives may have any tags. -/
structure Language.DistinctRuleTags (l : Language ι W V) : Prop where
  eq_of_tag {e e' : Expr ι V} : l.vocabulary.Reachable l.root e →
    l.vocabulary.Reachable l.root e' → ¬ e.isPrim = true → ¬ e'.isPrim = true →
    e.tag l.vocabulary.tag = e'.tag l.vocabulary.tag → e = e'
  ne_tag {e : Expr ι V} : l.vocabulary.Reachable l.root e → ¬ e.isPrim = true →
    e.tag l.vocabulary.tag ≠ l.tag

theorem Language.DistinctTags.ruleTags {l : Language ι W V} (h : l.DistinctTags) :
    l.DistinctRuleTags :=
  ⟨fun he he' _ _ => h.eq_of_tag he he', fun he _ => h.ne_tag he⟩

namespace Language.DistinctRuleTags

variable {l : Language ι W V} {walk : List (Expr ι V)}

/-- To be listed is to be a primitive or to have been entered. -/
theorem listed_iff (h : l.DistinctRuleTags) {seen : List (Expr ι V)}
    (hseen : ∀ e ∈ seen, l.vocabulary.Reachable l.root e) {e : Expr ι V}
    (he : l.vocabulary.Reachable l.root e) :
    l.vocabulary.Listed [l.production] seen e ↔ e.isPrim = true ∨ e ∈ seen := by
  constructor
  · rintro (hprim | hmem)
    · exact .inl hprim
    · by_cases hprim : e.isPrim = true
      · exact .inl hprim
      · rcases Vocabulary.mem_tags_listing.mp hmem with ⟨p, hp, htag⟩ | ⟨e', he', hprim', htag⟩
        · cases List.mem_singleton.mp hp
          exact absurd htag.symm (h.ne_tag he hprim)
        · exact .inr (h.eq_of_tag (hseen e' he') he hprim' hprim htag ▸ he')
  · rintro (hprim | hmem)
    · exact .inl hprim
    · exact Vocabulary.marks_listed.of_mem hmem

/-- The walk by tags is the walk by expressions. -/
theorem walk_preorder (h : l.DistinctRuleTags) (hw : l.Walk walk) :
    DepthFirst l.vocabulary.references (fun seen e => e.isPrim = true ∨ e ∈ seen) [] [l.root]
      walk :=
  hw.congr (l.vocabulary.Reachable l.root) refers_closed
    (fun _ _ hseen he => h.listed_iff hseen he) (by simp)
    (List.forall_mem_singleton.mpr (.refl _ _))

/-- Everything that can be reached is entered, but for the primitives. -/
theorem mem_walk_iff (h : l.DistinctRuleTags) (hw : l.Walk walk) {e : Expr ι V} :
    e ∈ walk ↔ l.vocabulary.Reachable l.root e ∧ ¬ e.isPrim = true := by
  constructor
  · intro he
    exact ⟨hw.reachable he, hw.not_isPrim he⟩
  · rintro ⟨he, hprim⟩
    have hseen : ∀ e ∈ walk, l.vocabulary.Reachable l.root e := fun e => hw.reachable
    have hlisted : l.vocabulary.Listed [l.production] walk e := by
      induction he with
      | refl => exact hw.listed_root
      | @tail e e' he hr ih =>
        have hmem := (h.listed_iff hseen he).mp (ih hr.not_isPrim)
        exact hw.listed_of_refers (hmem.resolve_left hr.not_isPrim) hr
    exact ((h.listed_iff hseen he).mp hlisted).resolve_left hprim

end Language.DistinctRuleTags

/-- What a published grammar lists. Its derivation ends, whatever cycles there are; the first
production is that of whole programs; no tag has two; and every tag that an alternative mentions
has a production or is that of a primitive. If the tags of types and repetitions differ, exactly
these have productions besides the language: all that can be reached, in depth-first pre-order,
each with its own alternatives. -/
theorem grammar_lists_reachable (l : Language ι W V) :
    (∃ walk, l.Walk walk ∧ l.grammar = l.vocabulary.listing [l.production] walk) ∧
    l.grammar.productions.head? =
      some ⟨l.tag, [[.type (l.root.tag l.vocabulary.tag), .endOfInput]]⟩ ∧
    l.grammar.tags.Nodup ∧
    (∀ p ∈ l.grammar.productions, ∀ alternative ∈ p.alternatives, ∀ s ∈ alternative, ∀ tag,
      s = .type tag ∨ s = .many tag → tag ∈ l.grammar.tags ∨
        ∃ prim, l.vocabulary.Reachable l.root (.prim prim) ∧ prim.tag = tag) ∧
    (l.DistinctRuleTags →
      (∀ tag, tag ∈ l.grammar.tags ↔ tag = l.tag ∨ ∃ e, l.vocabulary.Reachable l.root e ∧
        ¬ e.isPrim = true ∧ e.tag l.vocabulary.tag = tag) ∧
      ∃ order, (∀ order', DepthFirst l.vocabulary.references
          (fun seen e => e.isPrim = true ∨ e ∈ seen) [] [l.root] order' ↔ order' = order) ∧
        (∀ e, e ∈ order ↔ l.vocabulary.Reachable l.root e ∧ ¬ e.isPrim = true) ∧
        l.grammar.productions = l.production :: order.filterMap l.vocabulary.production?) := by
  obtain ⟨walk, hw, hg⟩ := l.exists_walk
  refine ⟨⟨walk, hw, hg⟩, ?_, ?_, ?_, fun hd => ⟨fun tag => ?_, walk, ?_, ?_, ?_⟩⟩
  · rw [hg]
    rfl
  · rw [hg]
    exact hw.nodup_tags
  · rw [hg]
    intro p hp alternative ha s hs tag ht
    refine hw.mentioned hp ha hs ?_
    rcases ht with rfl | rfl <;> rfl
  · rw [hg, Vocabulary.mem_tags_listing]
    refine or_congr ?_ (exists_congr fun e => ?_)
    · simp [Language.production, eq_comm]
    · rw [hd.mem_walk_iff hw, and_assoc]
      exact and_congr_right fun _ =>
        ⟨fun h => ⟨h.1, h.2.2⟩, fun h => ⟨h.1, h.1, h.2⟩⟩
  · refine fun order' => ⟨(hd.walk_preorder hw).unique, ?_⟩
    rintro rfl
    exact hd.walk_preorder hw
  · exact fun e => hd.mem_walk_iff hw
  · rw [hg]
    rfl

namespace Demo.Calc

/-- What the calculator is made of: its types, the list of values, and two primitives. -/
inductive Part : Expr Name Value → Prop where
  | type (name : Name) : Part (.type name)
  | numbers : Part numbers
  | number : Part (.prim (Literal.number.map fun x => .number x.toFloat))
  | bool : Part (.prim (Literal.bool.map .truth))

/-- The arguments of the rules are types. -/
theorem part_of_argument {rules : List (Rule Name Generator Value)}
    (h : rules = valueRules ∨ rules = booleanRules ∨ rules = arrRules)
    {rule : Rule Name Generator Value} (hrule : rule ∈ rules) {e : Expr Name Value}
    (he : e ∈ rule.args) : Part e := by
  have htypes : ∀ rules ∈ [valueRules, booleanRules, arrRules], ∀ rule ∈ rules,
      ∀ e ∈ rule.args, ∃ name, e = .type name := by
    simp [valueRules, booleanRules, arrRules, binary]
  obtain ⟨name, rfl⟩ := htypes rules (by simpa using h) rule hrule e he
  exact .type name

theorem part_of_reachable {e : Expr Name Value} (h : vocabulary.Reachable (.type .value) e) :
    Part e := by
  induction h with
  | refl => exact .type _
  | tail _ hr ih =>
    cases hr with
    | @argument name table rule e ht hrule harg =>
      cases name <;> cases ht
      · exact part_of_argument (.inl rfl) (show _ ∈ valueRules from hrule) harg
      · exact part_of_argument (.inr (.inl rfl)) (show _ ∈ booleanRules from hrule) harg
      · exact part_of_argument (.inr (.inr rfl)) (show _ ∈ arrRules from hrule) harg
    | silent hs =>
      cases hs with
      | @fallback name table e ht hf =>
        cases name <;> cases ht <;> cases hf
        · exact .number
        · exact .bool
        · exact .numbers
      | item =>
        cases ih
        exact .type _

/-- The part that has the tag. -/
def ofTag (tag : String) : Expr Name Value :=
  if tag = "value" then .type .value
  else if tag = "boolean" then .type .boolean
  else if tag = "arr" then .type .arr
  else if tag = "r.value" then numbers
  else if tag = "number" then .prim (Literal.number.map fun x => .number x.toFloat)
  else .prim (Literal.bool.map .truth)

theorem Part.ofTag_tag {e : Expr Name Value} (h : Part e) : ofTag (e.tag vocabulary.tag) = e := by
  cases h with
  | type name => cases name <;> rfl
  | numbers | number | bool => rfl

theorem distinctTags_language : language.DistinctTags where
  eq_of_tag {e e'} he he' h := by
    calc
      e = ofTag (e.tag vocabulary.tag) := (part_of_reachable he).ofTag_tag.symm
      _ = ofTag (e'.tag vocabulary.tag) := congrArg ofTag h
      _ = e' := (part_of_reachable he').ofTag_tag
  ne_tag he := by
    cases part_of_reachable he with
    | type name => cases name <;> decide
    | numbers | number | bool => decide

end Demo.Calc

/-- The types of the calculator refer to each other and to themselves. Its grammar has them and
the list of values, each once, as a walk from the values meets them. -/
theorem grammar_lists_reachable_calc :
    Demo.Calc.language.DistinctRuleTags ∧
      Demo.Calc.language.grammar.tags = ["l.calc", "value", "boolean", "arr", "r.value"] ∧
      (∀ tag, tag ∈ Demo.Calc.language.grammar.tags ↔
        tag = "l.calc" ∨ ∃ e, Demo.Calc.vocabulary.Reachable (.type .value) e ∧
          ¬ e.isPrim = true ∧ e.tag Demo.Calc.vocabulary.tag = tag) ∧
      ∃ order, (∀ order', DepthFirst Demo.Calc.vocabulary.references
          (fun seen e => e.isPrim = true ∨ e ∈ seen) [] [.type .value] order' ↔ order' = order) ∧
        (∀ e, e ∈ order ↔
          Demo.Calc.vocabulary.Reachable (.type .value) e ∧ ¬ e.isPrim = true) ∧
        Demo.Calc.language.grammar.productions =
          Demo.Calc.language.production :: order.filterMap Demo.Calc.vocabulary.production? :=
  ⟨Demo.Calc.distinctTags_language.ruleTags, by decide,
    (grammar_lists_reachable Demo.Calc.language).2.2.2.2
      Demo.Calc.distinctTags_language.ruleTags⟩

end Parlance
