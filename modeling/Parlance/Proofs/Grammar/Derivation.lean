import Parlance.Proofs.Grammar.Walk
import Parlance.Proofs.Reading.Termination
import Parlance.Proofs.Reading.Tree

/-
  What a published grammar derives, and what the parser accepts. `Derives` is derivation from a
  grammar alone: it knows tags, alternatives and the words that primitives take, and nothing of
  rules, types or cursors. Which alternatives it may choose, and when a list may go on or end, is
  left to a strategy.

  If every tag names one expression, a reading is a derivation and the other way round, as long as
  the derivation chooses as the parser does: keywords before the fallback, the fallback only in
  front of a word, and items up to the exit word. So nothing is accepted that the grammar does not
  derive, and what is derived in this way is accepted. Both directions go by induction, over the
  reading (`Reads.derives`) and over the derivation (`Derives.reads`).
-/

namespace Parlance

variable {ι W V : Type}

/-! ## Derivations -/

/-- The keyword that an alternative starts with. -/
def keyword? : List Sym → Option String
  | .exact word :: _ => some word
  | _ => none

/-- The word that ends the list that an alternative stands for. -/
def exit? : List Sym → Option String
  | [.many _, .exact word] => some word
  | _ => none

/-- How the alternatives of a production may be used in front of the words that are left. -/
structure Strategy where
  /-- The alternative may be chosen. -/
  chooses : List (List Sym) → List Sym → List String → Prop
  /-- One more item may be derived. -/
  goesOn : List (List Sym) → List String → Prop
  /-- No more items need be derived. -/
  stops : List (List Sym) → List String → Prop

namespace Strategy

/-- Every choice is allowed. -/
def free : Strategy := ⟨fun _ _ _ => True, fun _ _ => True, fun _ _ => True⟩

/-- Items go on exactly while there is a word that does not end the list. -/
def GoesOn (alternatives : List (List Sym)) (words : List String) : Prop :=
  ∃ word, words.head? = some word ∧ word ∉ alternatives.filterMap exit?

/-- Keywords come first: an alternative that is a tag alone is not chosen in front of a keyword. -/
def keywordFirst : Strategy where
  chooses alternatives alternative words := ∀ tag, alternative = [.type tag] →
    ∀ word, words.head? = some word → word ∉ alternatives.filterMap keyword?
  goesOn := GoesOn
  stops alternatives words := ¬ GoesOn alternatives words

/-- Keywords come first, and an alternative that is a tag alone is chosen only if there is a word
to tell that it is no keyword. -/
def lookAhead : Strategy where
  chooses alternatives alternative words := ∀ tag, alternative = [.type tag] →
    ∃ word, words.head? = some word ∧ word ∉ alternatives.filterMap keyword?
  goesOn := GoesOn
  stops alternatives words := ¬ GoesOn alternatives words

end Strategy

mutual

/-- The tag derives the first words up to `rest`: a word that is taken as the literal of that
name, or what one of the tag's alternatives derives. -/
inductive Derives (g : Grammar) (s : Strategy) (takes : String → String → Prop) :
    String → List String → List String → Prop where
  | literal {tag word : String} {rest : List String} :
      takes tag word → Derives g s takes tag (word :: rest) rest
  | production {tag : String} {alternatives : List (List Sym)} {alternative : List Sym}
      {words rest : List String} :
      g.get? tag = some alternatives → alternative ∈ alternatives →
      s.chooses alternatives alternative words →
      DerivesAll g s takes alternatives alternative words rest → Derives g s takes tag words rest

/-- Symbols of one of the alternatives derive the first words up to `rest`. -/
inductive DerivesAll (g : Grammar) (s : Strategy) (takes : String → String → Prop) :
    List (List Sym) → List Sym → List String → List String → Prop where
  | nil {alternatives : List (List Sym)} {words : List String} :
      DerivesAll g s takes alternatives [] words words
  | exact {alternatives : List (List Sym)} {word : String} {syms : List Sym}
      {words rest : List String} :
      DerivesAll g s takes alternatives syms words rest →
      DerivesAll g s takes alternatives (.exact word :: syms) (word :: words) rest
  | endOfInput {alternatives : List (List Sym)} {syms : List Sym} {rest : List String} :
      DerivesAll g s takes alternatives syms [] rest →
      DerivesAll g s takes alternatives (.endOfInput :: syms) [] rest
  | type {alternatives : List (List Sym)} {tag : String} {syms : List Sym}
      {words mid rest : List String} :
      Derives g s takes tag words mid → DerivesAll g s takes alternatives syms mid rest →
      DerivesAll g s takes alternatives (.type tag :: syms) words rest
  | stop {alternatives : List (List Sym)} {tag : String} {syms : List Sym}
      {words rest : List String} :
      s.stops alternatives words → DerivesAll g s takes alternatives syms words rest →
      DerivesAll g s takes alternatives (.many tag :: syms) words rest
  | more {alternatives : List (List Sym)} {tag : String} {syms : List Sym}
      {words mid rest : List String} :
      s.goesOn alternatives words → Derives g s takes tag words mid →
      DerivesAll g s takes alternatives (.many tag :: syms) mid rest →
      DerivesAll g s takes alternatives (.many tag :: syms) words rest

end

variable {g : Grammar} {s : Strategy} {takes : String → String → Prop}

mutual

/-- Whatever the strategy, a derivation is a derivation. -/
theorem Derives.free {tag : String} {words rest : List String}
    (h : Derives g s takes tag words rest) : Derives g .free takes tag words rest := by
  match h with
  | .literal ht => exact .literal ht
  | .production hg ha _ hd => exact .production hg ha trivial hd.free

theorem DerivesAll.free {alternatives : List (List Sym)} {syms : List Sym}
    {words rest : List String} (h : DerivesAll g s takes alternatives syms words rest) :
    DerivesAll g .free takes alternatives syms words rest := by
  match h with
  | .nil => exact .nil
  | .exact hd => exact .exact hd.free
  | .endOfInput hd => exact .endOfInput hd.free
  | .type ht hd => exact .type ht.free hd.free
  | .stop _ hd => exact .stop trivial hd.free
  | .more _ ht hd => exact .more trivial ht.free hd.free

end

/-! ## The words that are left -/

namespace Cursor

/-- The words that have not been read. -/
def rest (c : Cursor) : List String := c.tokens.drop c.index

theorem rest_next {c ahead : Cursor} {expected : String} {token : Token}
    (h : c.next expected = .ok (token, ahead)) : c.rest = token.value :: ahead.rest := by
  obtain ⟨hw, -, rfl⟩ := next_ok h
  obtain ⟨hlt, hw⟩ := List.getElem?_eq_some_iff.mp hw
  rw [rest, List.drop_eq_getElem_cons hlt, hw]
  rfl

/-- In front of a word, it is read, and the other words are left. -/
theorem next_of_rest {c : Cursor} {word : String} {words : List String}
    (h : c.rest = word :: words) (expected : String) :
    ∃ token ahead, c.next expected = .ok (token, ahead) ∧ token.value = word ∧
      ahead.rest = words := by
  have hw : c.tokens[c.index]? = some word := by
    rw [← List.head?_drop, show c.tokens.drop c.index = _ from h]
    rfl
  have hn := next_of_getElem? hw expected
  have hrest := rest_next hn
  rw [h] at hrest
  exact ⟨_, _, hn, rfl, (List.cons.inj hrest).2.symm⟩

theorem next_of_head? {c : Cursor} {word : String} {words : List String} (hw : c.rest = words)
    (h : words.head? = some word) (expected : String) :
    ∃ token ahead, c.next expected = .ok (token, ahead) ∧ token.value = word := by
  obtain ⟨others, rfl⟩ := List.head?_eq_some_iff.mp h
  obtain ⟨token, ahead, hn, hvalue, -⟩ := next_of_rest hw expected
  exact ⟨token, ahead, hn, hvalue⟩

theorem rest_eq_nil_iff {c : Cursor} (hc : c.Within) : c.rest = [] ↔ c.finished = true := by
  rw [rest, List.drop_eq_nil_iff, finished_iff]
  unfold Within at hc
  omega

end Cursor

/-! ## The alternatives of one expression -/

theorem filterMap_keyword? (v : Vocabulary ι W V) (t : Table ι W V) :
    (t.alternatives v).filterMap keyword? = t.keywords := by
  have hrules : keyword? ∘ Rule.alternative v = fun rule : Rule ι W V => some rule.keyword := rfl
  have hfallback : keyword? ∘ (fun e : Expr ι V => [Sym.type (e.tag v.tag)]) = fun _ => none := rfl
  rw [Table.alternatives, List.filterMap_append, List.filterMap_map, List.filterMap_map, hrules,
    hfallback, List.filterMap_eq_map', Table.keywords]
  simp

theorem filterMap_exit? (r : Repetition V) (tag : String) :
    (r.alternatives tag).filterMap exit? = r.exit.toList := by
  unfold Repetition.alternatives
  cases r.exit <;> rfl

/-- Items go on in front of a word that is not the exit word. -/
theorem goesOn_iff {r : Repetition V} {tag word : String} {words : List String} :
    Strategy.GoesOn (r.alternatives tag) (word :: words) ↔ r.exit ≠ some word := by
  simp [Strategy.GoesOn, filterMap_exit?]

theorem not_goesOn_nil {alternatives : List (List Sym)} : ¬ Strategy.GoesOn alternatives [] := by
  simp [Strategy.GoesOn]

namespace Vocabulary.Offers

variable {v : Vocabulary ι W V} {e : Expr ι V} {alternatives : List (List Sym)} {syms : List Sym}

theorem of_exact {word : String} (h : v.Offers e alternatives (.exact word :: syms)) :
    ∃ name table rule, e = .type name ∧ v.table name = some table ∧ rule ∈ table.rules ∧
      rule.keyword = word ∧ rule.args.map (fun e => .type (e.tag v.tag)) = syms := by
  cases h with
  | rule ht hr => exact ⟨_, _, _, rfl, ht, hr, rfl, rfl⟩

theorem of_type {tag : String} (h : v.Offers e alternatives (.type tag :: syms)) :
    ∃ name table e', e = .type name ∧ v.table name = some table ∧
      table.alternatives v = alternatives ∧ table.fallback = some e' ∧ e'.tag v.tag = tag ∧
      [] = syms := by
  cases h with
  | fallback ht hf => exact ⟨_, _, _, rfl, ht, rfl, hf, rfl, rfl⟩

theorem of_many {tag : String} (h : v.Offers e alternatives (.many tag :: syms)) :
    ∃ r child, e = .rep r child ∧ r.alternatives (child.tag v.tag) = alternatives ∧
      child.tag v.tag = tag := by
  cases h with
  | unclosed | closed _ => exact ⟨_, _, rfl, rfl, rfl⟩

end Vocabulary.Offers

theorem Table.lookup_mem {t : Table ι W V} {word : String} {rule : Rule ι W V}
    (h : t.lookup word = some rule) : rule ∈ t.rules :=
  List.mem_of_find?_eq_some h

/-- The words that the primitives of a language take as literals. -/
def Language.Takes (l : Language ι W V) (tag word : String) : Prop :=
  ∃ p value, l.vocabulary.Reachable l.root (.prim p) ∧ p.tag = tag ∧ p.convert word = .ok value

/-- The alternatives under the tag of an expression are its own. -/
theorem Language.DistinctTags.get?_tag {l : Language ι W V} (h : l.DistinctTags) {e : Expr ι V}
    (he : l.vocabulary.Reachable l.root e) :
    l.grammar.get? (e.tag l.vocabulary.tag) =
      (l.vocabulary.production? e).map Production.alternatives := by
  obtain ⟨walk, hw, hg⟩ := l.exists_walk
  rw [hg]
  cases hp : l.vocabulary.production? e with
  | some p =>
    have hprim : ¬ e.isPrim = true := fun hprim => by
      rw [Vocabulary.production?_eq_none_iff.mpr hprim] at hp
      cases hp
    exact hw.get?_tag ((h.ruleTags.mem_walk_iff hw).mpr ⟨he, hprim⟩) hp
  | none =>
    have hprim := Vocabulary.production?_eq_none_iff.mp hp
    refine Option.eq_none_iff_forall_ne_some.mpr fun alternatives hget => ?_
    have hmem := List.mem_map_of_mem (f := Production.tag) (Grammar.exists_of_get? hget)
    rcases Vocabulary.mem_tags_listing.mp hmem with ⟨p, hp, htag⟩ | ⟨e', he', hprim', htag⟩
    · cases List.mem_singleton.mp hp
      exact h.ne_tag he htag.symm
    · exact hprim' (h.eq_of_tag (hw.reachable he') he htag ▸ hprim)

/-- The grammar offers under the tag of an expression what the expression offers. -/
theorem Language.DistinctTags.offers_iff {l : Language ι W V} (h : l.DistinctTags) {e : Expr ι V}
    (he : l.vocabulary.Reachable l.root e) {alternatives : List (List Sym)}
    {alternative : List Sym} :
    l.vocabulary.Offers e alternatives alternative ↔
      l.grammar.get? (e.tag l.vocabulary.tag) = some alternatives ∧
        alternative ∈ alternatives := by
  rw [Vocabulary.offers_iff, h.get?_tag he]

/-- What an expression offers is derived under its tag. -/
theorem Vocabulary.Offers.derives {l : Language ι W V} (hl : l.DistinctTags) {e : Expr ι V}
    (he : l.vocabulary.Reachable l.root e) {alternatives : List (List Sym)}
    {alternative : List Sym} (h : l.vocabulary.Offers e alternatives alternative)
    {words rest : List String} (hs : s.chooses alternatives alternative words)
    (hd : DerivesAll l.grammar s takes alternatives alternative words rest) :
    Derives l.grammar s takes (e.tag l.vocabulary.tag) words rest := by
  obtain ⟨hget, ha⟩ := (hl.offers_iff he).mp h
  exact .production hget ha hs hd

theorem Language.get?_self (l : Language ι W V) :
    l.grammar.get? l.tag = some [[.type (l.root.tag l.vocabulary.tag), .endOfInput]] := by
  obtain ⟨walk, -, hg⟩ := l.exists_walk
  rw [hg]
  simp [Grammar.get?, Vocabulary.listing, Language.production]

/-! ## What is read is derived -/

section Readings

variable {l : Language ι W V}

mutual

theorem Reads.derives (hl : l.DistinctTags) {e : Expr ι V} {c : Cursor}
    {r : Reply (Program ι W V)} (h : Reads l.vocabulary e c r)
    (he : l.vocabulary.Reachable l.root e) (hc : c.Within) {p : Program ι W V} {c' : Cursor}
    (hr : r = .accepted p c') :
    Derives l.grammar .lookAhead l.Takes (e.tag l.vocabulary.tag) c.rest c'.rest := by
  match h with
  | .prim =>
    obtain ⟨token, value, hn, hv, -⟩ := Primitive.parse_eq_accepted hr
    rw [Cursor.rest_next hn]
    exact .literal ⟨_, value, he, rfl, hv⟩
  | .undefined _ | .exhausted _ _ | .unexpected _ _ _ _ => cases hr
  | .keyword ht hn hlook ha =>
    obtain ⟨args, hargs, -⟩ := Reply.map_eq_accepted hr
    have hrule := Table.lookup_mem hlook
    refine (Vocabulary.Offers.rule ht hrule).derives hl he (fun tag htag => nomatch htag) ?_
    rw [Cursor.rest_next hn, Rule.alternative, Table.lookup_keyword hlook]
    exact .exact (ha.derives hl (fun e' he' => he.tail (.argument ht hrule he'))
      (Cursor.next_reaches hn).1.within_right hargs)
  | .fallback ht hn hlook hf hrest =>
    refine (Vocabulary.Offers.fallback ht hf).derives hl he (fun tag _ => ?_) ?_
    -- The word that the type has looked at is the one that the strategy asks for.
    · rw [Cursor.rest_next hn, filterMap_keyword?]
      exact ⟨_, rfl, Table.lookup_eq_none_iff.mp hlook⟩
    · exact .type (hrest.derives hl (he.tail (.silent (.fallback ht hf))) hc
        (Reply.mapError_eq_accepted hr)) .nil
  | .rep hitems =>
    obtain ⟨⟨items, exit⟩, hreply, -⟩ := Reply.map_eq_accepted hr
    obtain ⟨ending, hoffer, hd⟩ := hitems.derives hl he hc hreply
    exact hoffer.derives hl he (fun tag htag => nomatch htag) hd

theorem ReadsArgs.derives (hl : l.DistinctTags) {es : List (Expr ι V)} {c : Cursor}
    {r : Reply (List (Program ι W V))} (h : ReadsArgs l.vocabulary es c r)
    (hes : ∀ e ∈ es, l.vocabulary.Reachable l.root e) (hc : c.Within)
    {ps : List (Program ι W V)} {c' : Cursor} (hr : r = .accepted ps c')
    {alternatives : List (List Sym)} :
    DerivesAll l.grammar .lookAhead l.Takes alternatives
      (es.map fun e => .type (e.tag l.vocabulary.tag)) c.rest c'.rest := by
  match h with
  | .nil =>
    cases hr
    exact .nil
  | .cons hfirst hothers =>
    obtain ⟨ps, hps, -⟩ := Reply.map_eq_accepted hr
    have hreach := (hfirst.advances hc).1
    exact .type (hfirst.derives hl (hes _ List.mem_cons_self) hc rfl)
      (hothers.derives hl (fun e' he' => hes e' (List.mem_cons_of_mem _ he'))
        hreach.within_right hps)
  | .failed _ => cases hr

/-- The items that were read end as one of the alternatives of the repetition does. -/
theorem ReadsItems.derives (hl : l.DistinctTags) {r : Repetition V} {child : Expr ι V}
    {c : Cursor} {reply : Reply (List (Program ι W V) × Option Token)}
    (h : ReadsItems l.vocabulary r child c reply)
    (he : l.vocabulary.Reachable l.root (.rep r child)) (hc : c.Within)
    {items : List (Program ι W V) × Option Token} {c' : Cursor}
    (hr : reply = .accepted items c') :
    ∃ ending, l.vocabulary.Offers (.rep r child) (r.alternatives (child.tag l.vocabulary.tag))
        [.many (child.tag l.vocabulary.tag), ending] ∧
      DerivesAll l.grammar .lookAhead l.Takes (r.alternatives (child.tag l.vocabulary.tag))
        [.many (child.tag l.vocabulary.tag), ending] c.rest c'.rest := by
  match h with
  | .finished hf =>
    cases hr
    rw [(Cursor.rest_eq_nil_iff hc).mpr hf]
    exact ⟨.endOfInput, .unclosed, .stop not_goesOn_nil (.endOfInput .nil)⟩
  | .exit hn hx =>
    cases hr
    rw [Cursor.rest_next hn]
    exact ⟨.exact _, .closed hx, .stop (fun hgo => goesOn_iff.mp hgo hx) (.exact .nil)⟩
  | .item hn hx hp hi =>
    obtain ⟨items', hitems, -⟩ := Reply.map_eq_accepted hr
    have hreach := (hp.advances hc).1
    obtain ⟨ending, hoffer, hd⟩ := hi.derives hl he hreach.within_right hitems
    refine ⟨ending, hoffer, .more ?_ (hp.derives hl (he.tail (.silent .item)) hc rfl) hd⟩
    rw [Cursor.rest_next hn]
    exact goesOn_iff.mpr hx
  | .failed _ _ _ => cases hr

end

/-! ## What is derived is read -/

theorem Table.lookup_of_mem {t : Table ι W V} {rule : Rule ι W V} (h : rule ∈ t.rules) :
    t.lookup rule.keyword = some rule :=
  find?_key_of_nodup t.nodup_keywords h

theorem Reads.of_rep {v : Vocabulary ι W V} {r : Repetition V} {child : Expr ι V} {c c' : Cursor}
    {p : Program ι W V} (h : Reads v (.rep r child) c (.accepted p c')) :
    ∃ items, ReadsItems v r child c (.accepted items c') := by
  generalize hr : Reply.accepted p c' = reply at h
  cases h with
  | rep hitems =>
    obtain ⟨items, hreply, -⟩ := Reply.map_eq_accepted hr.symm
    exact ⟨items, hreply ▸ hitems⟩

/-- A list ends as its alternative says. -/
theorem DerivesAll.readsEnd {e : Expr ι V} {tag : String} {alternatives : List (List Sym)}
    {syms : List Sym} {words rest : List String}
    (h : DerivesAll g s takes alternatives syms words rest)
    (hoffer : l.vocabulary.Offers e alternatives (.many tag :: syms)) {c : Cursor}
    (hc : c.Within) (hw : c.rest = words) :
    ∃ p c', Reads l.vocabulary e c (.accepted p c') ∧ c'.rest = rest := by
  cases hoffer with
  | unclosed =>
    obtain ⟨⟩ | _ | ⟨⟨⟩⟩ := h
    exact ⟨_, c, .rep (.finished ((Cursor.rest_eq_nil_iff hc).mp hw)), hw⟩
  | @closed r child word hx =>
    obtain ⟨⟩ | ⟨⟨⟩⟩ := h
    obtain ⟨token, ahead, hn, rfl, hrest⟩ :=
      Cursor.next_of_rest hw ((Expr.rep r child).tag l.vocabulary.tag)
    exact ⟨_, ahead, .rep (.exit hn hx), hrest⟩

mutual

-- The recursion is on the derivation. What an expression offers is taken apart by equations
-- (`Offers.of_exact` and the like), so that the symbols of the derivation stay variables.
theorem Derives.reads (hl : l.DistinctTags) {tag : String} {words rest : List String}
    (h : Derives l.grammar .lookAhead l.Takes tag words rest)
    {e : Expr ι V} (he : l.vocabulary.Reachable l.root e) (htag : e.tag l.vocabulary.tag = tag)
    {c : Cursor} (hc : c.Within) (hw : c.rest = words) :
    ∃ p c', Reads l.vocabulary e c (.accepted p c') ∧ c'.rest = rest := by
  match h with
  | .literal ⟨prim, value, hprim, hp, hv⟩ =>
    cases hl.eq_of_tag he hprim (htag.trans hp.symm)
    obtain ⟨token, ahead, hn, rfl, hrest⟩ := Cursor.next_of_rest hw prim.tag
    exact ⟨_, ahead, .literal hn hv, hrest⟩
  | .production hget ha hchoose hd =>
    have hoffer := (hl.offers_iff he).mpr ⟨htag ▸ hget, ha⟩
    exact hd.reads hl hoffer hchoose he hc hw

/-- An alternative of the expression is read as it is derived. -/
theorem DerivesAll.reads (hl : l.DistinctTags) {alternatives : List (List Sym)}
    {syms : List Sym} {words rest : List String}
    (h : DerivesAll l.grammar .lookAhead l.Takes alternatives syms words rest)
    {e : Expr ι V} (hoffer : l.vocabulary.Offers e alternatives syms)
    (hchoose : Strategy.lookAhead.chooses alternatives syms words)
    (he : l.vocabulary.Reachable l.root e) {c : Cursor} (hc : c.Within) (hw : c.rest = words) :
    ∃ p c', Reads l.vocabulary e c (.accepted p c') ∧ c'.rest = rest := by
  match h with
  | .exact hd =>
    obtain ⟨name, table, rule, rfl, ht, hrule, hkeyword, hargs⟩ := hoffer.of_exact
    obtain ⟨token, ahead, hn, hvalue, hrest⟩ := Cursor.next_of_rest hw (l.vocabulary.tag name)
    have hlook : table.lookup token.value = some rule := by
      rw [hvalue, ← hkeyword]
      exact Table.lookup_of_mem hrule
    obtain ⟨args, c', hread, hrest'⟩ := hd.readsArgs hl
      (fun e' he' => he.tail (.argument ht hrule he')) hargs
      (Cursor.next_reaches hn).1.within_right hrest
    exact ⟨_, c', .keyword ht hn hlook hread, hrest'⟩
  | .type hd hnil =>
    obtain ⟨name, table, e', rfl, ht, rfl, hf, htag, rfl⟩ := hoffer.of_type
    obtain ⟨word, hword, hkeyword⟩ := hchoose _ rfl
    obtain ⟨token, ahead, hn, rfl⟩ := Cursor.next_of_head? hw hword (l.vocabulary.tag name)
    rw [filterMap_keyword?, ← Table.lookup_eq_none_iff] at hkeyword
    obtain ⟨p, c', hread, hrest⟩ :=
      hd.reads hl (he.tail (.silent (.fallback ht hf))) htag hc hw
    cases hnil
    exact ⟨p, c', .fallback ht hn hkeyword hf hread, hrest⟩
  | .stop _ hd => exact hd.readsEnd hoffer hc hw
  | .more hgo ht hd =>
    obtain ⟨r, child, rfl, halts, htag⟩ := hoffer.of_many
    obtain ⟨p, c', hread, hrest⟩ := ht.reads hl (he.tail (.silent .item)) htag hc hw
    obtain ⟨_, c'', hreads, hrest'⟩ := hd.reads hl hoffer (fun _ htype => nomatch htype) he
      (hread.advances hc).1.within_right hrest
    -- The rest of the list was read as a list; its items come behind this one.
    obtain ⟨items, hitems⟩ := hreads.of_rep
    obtain ⟨word, hword, hexit⟩ := hgo
    obtain ⟨token, ahead, hn, rfl⟩ :=
      Cursor.next_of_head? hw hword ((Expr.rep r child).tag l.vocabulary.tag)
    rw [← halts, filterMap_exit?, Option.mem_toList] at hexit
    exact ⟨_, c'', .rep (.item hn hexit hread hitems), hrest'⟩
  | .nil | .endOfInput _ => cases hoffer

theorem DerivesAll.readsArgs (hl : l.DistinctTags) {alternatives : List (List Sym)}
    {syms : List Sym} {words rest : List String}
    (h : DerivesAll l.grammar .lookAhead l.Takes alternatives syms words rest)
    {es : List (Expr ι V)} (hes : ∀ e ∈ es, l.vocabulary.Reachable l.root e)
    (hs : es.map (fun e => .type (e.tag l.vocabulary.tag)) = syms) {c : Cursor} (hc : c.Within)
    (hw : c.rest = words) :
    ∃ ps c', ReadsArgs l.vocabulary es c (.accepted ps c') ∧ c'.rest = rest := by
  match h with
  | .nil =>
    cases List.map_eq_nil_iff.mp hs
    exact ⟨[], c, .nil, hw⟩
  | .type ht hd =>
    obtain ⟨e, es', rfl, htag, hs'⟩ := List.map_eq_cons_iff.mp hs
    obtain ⟨p, c', hread, hrest⟩ :=
      ht.reads hl (hes e List.mem_cons_self) (Sym.type.inj htag) hc hw
    obtain ⟨ps, c'', hreads, hrest'⟩ := hd.readsArgs hl
      (fun e he => hes e (List.mem_cons_of_mem _ he)) hs'
      (hread.advances hc).1.within_right hrest
    exact ⟨p :: ps, c'', .cons hread hreads, hrest'⟩
  | .exact _ | .endOfInput _ | .stop _ _ | .more _ _ _ =>
    obtain ⟨_, _, -, htag, -⟩ := List.map_eq_cons_iff.mp hs
    cases htag

end

end Readings

/-! ## Whole programs -/

namespace Language

variable {l : Language ι W V} {words : List String}

theorem derives_of_parse (hl : l.DistinctTags) {p : Program ι W V} {c : Cursor}
    (h : l.parse words = .accepted p c) :
    Derives l.grammar .lookAhead l.Takes l.tag words [] := by
  obtain ⟨hread, hf⟩ := parse_eq_accepted.mp h
  have hc := Cursor.within_ofTokens words
  have hroot := hread.derives hl (.refl _ _) hc rfl
  rw [(Cursor.rest_eq_nil_iff (hread.advances hc).1.within_right).mpr hf] at hroot
  exact .production l.get?_self List.mem_cons_self (fun tag htag => nomatch htag)
    (.type hroot (.endOfInput .nil))

theorem parse_of_derives (hl : l.DistinctTags)
    (h : Derives l.grammar .lookAhead l.Takes l.tag words []) :
    ∃ p c, l.parse words = .accepted p c := by
  cases h with
  | literal ht =>
    obtain ⟨prim, value, hprim, htag, -⟩ := ht
    exact absurd htag (hl.ne_tag hprim)
  | production hget ha _ hd =>
    cases l.get?_self.symm.trans hget
    cases List.mem_singleton.mp ha
    obtain _ | _ | _ | ⟨hroot, ⟨⟨⟩⟩⟩ := hd
    have hc := Cursor.within_ofTokens words
    obtain ⟨p, c, hread, hrest⟩ := hroot.reads hl (.refl _ _) rfl hc rfl
    have hf := (Cursor.rest_eq_nil_iff (hread.advances hc).1.within_right).mp hrest
    exact ⟨p, c, parse_eq_accepted.mpr ⟨hread, hf⟩⟩

end Language

/-- The parser accepts nothing outside of the published grammar: words that are accepted are
derived from the production of whole programs. -/
theorem accepted_words_derivable (l : Language ι W V) (hl : l.DistinctTags) {words : List String}
    {p : Program ι W V} {c : Cursor} (h : l.parse words = .accepted p c) :
    Derives l.grammar .free l.Takes l.tag words [] :=
  (Language.derives_of_parse hl h).free

/-- A list that its exit word closes, inside of a condition. Arrays come in by their fallback, which
the words do not show. -/
theorem accepted_words_derivable_calc :
    Demo.Calc.language.DistinctTags ∧
      (∃ p c, Demo.Calc.language.parse ["test", "eq", "pi", "sum", "pi", "-", "pi", "rand"] =
        .accepted p c) ∧
      Derives Demo.Calc.language.grammar .free Demo.Calc.language.Takes "l.calc"
        ["test", "eq", "pi", "sum", "pi", "-", "pi", "rand"] [] := by
  have h : ∃ p c, Demo.Calc.language.parse
      ["test", "eq", "pi", "sum", "pi", "-", "pi", "rand"] = .accepted p c := ⟨_, _, rfl⟩
  obtain ⟨p, c, h⟩ := h
  exact ⟨Demo.Calc.distinctTags_language, ⟨p, c, h⟩,
    accepted_words_derivable Demo.Calc.language Demo.Calc.distinctTags_language h⟩

/-- The words that are accepted are those that the published grammar derives with keywords first
and the fallback in front of a word. Tables keep one rule for each keyword. Types without a table
have no alternatives, and a derivation is finite, so that nothing is asked of undefined types or of
fallbacks that lead back to themselves. -/
theorem accepted_iff_derivable (l : Language ι W V) (hl : l.DistinctTags) (words : List String) :
    (∃ p c, l.parse words = .accepted p c) ↔
      Derives l.grammar .lookAhead l.Takes l.tag words [] :=
  ⟨fun ⟨_, _, h⟩ => Language.derives_of_parse hl h, Language.parse_of_derives hl⟩

namespace Demo.Calc

theorem defined_language : language.Defined := by
  intro name _
  cases name <;> rfl

theorem exists_sumRule : ∃ table rule, vocabulary.table .value = some table ∧
    rule ∈ table.rules ∧ rule.keyword = "sum" ∧ rule.args = [.type .arr] :=
  ⟨_, _, rfl, Table.lookup_mem (rfl : Table.lookup _ "sum" = some _), rfl, rfl⟩

theorem reachable_arr : vocabulary.Reachable language.root (.type .arr) := by
  obtain ⟨table, rule, ht, hrule, -, hargs⟩ := exists_sumRule
  exact .of_argument ht hrule (hargs ▸ List.mem_cons_self)

theorem reachable_numbers : vocabulary.Reachable language.root numbers :=
  reachable_arr.tail (.silent (.fallback rfl rfl))

/-- The sum of a list, which is the fallback of the arrays, by a strategy that is free to choose
the other alternatives. -/
theorem derives_sum {s : Strategy} {words : List String}
    (hs : ∀ alternatives alternative words, (∀ tag, alternative ≠ [.type tag]) →
      s.chooses alternatives alternative words)
    (harr : s.chooses ((Table.ofRules arrRules (some numbers)).alternatives vocabulary)
      [.type "r.value"] words)
    (hd : Derives language.grammar s language.Takes "r.value" words []) :
    Derives language.grammar s language.Takes "l.calc" ("sum" :: words) [] := by
  obtain ⟨table, rule, ht, hrule, hkeyword, hargs⟩ := exists_sumRule
  have hoffer : vocabulary.Offers (.type .arr) _ [.type (numbers.tag vocabulary.tag)] :=
    .fallback rfl rfl
  have darr : Derives language.grammar s language.Takes "arr" words [] :=
    hoffer.derives distinctTags_language reachable_arr harr (.type hd .nil)
  have dvalue : Derives language.grammar s language.Takes "value" ("sum" :: words) [] := by
    refine (Vocabulary.Offers.rule ht hrule).derives distinctTags_language (.refl _ _)
      (hs _ _ _ fun _ htag => nomatch htag) ?_
    rw [Rule.alternative, hkeyword, hargs]
    exact .exact (.type darr .nil)
  exact .production language.get?_self List.mem_cons_self (hs _ _ _ fun _ htag => nomatch htag)
    (.type dvalue (.endOfInput .nil))

end Demo.Calc

/-- The sum of an empty list is derived in front of its exit word, and so it is accepted. -/
theorem accepted_iff_derivable_calc :
    Demo.Calc.language.DistinctTags ∧
      Derives Demo.Calc.language.grammar .lookAhead Demo.Calc.language.Takes "l.calc"
        ["sum", "-"] [] ∧
      ∃ p c, Demo.Calc.language.parse ["sum", "-"] = .accepted p c := by
  have hclosed : Derives Demo.Calc.language.grammar .lookAhead Demo.Calc.language.Takes
      "r.value" ["-"] [] :=
    (Vocabulary.Offers.closed rfl).derives Demo.Calc.distinctTags_language
      Demo.Calc.reachable_numbers (fun _ htag => nomatch htag)
      (.stop (fun hgo => goesOn_iff.mp hgo rfl) (.exact .nil))
  have hsum := Demo.Calc.derives_sum (fun _ _ _ h tag htag => absurd htag (h tag))
    (fun _ _ => ⟨"-", rfl, by decide⟩) hclosed
  exact ⟨Demo.Calc.distinctTags_language, hsum,
    (accepted_iff_derivable Demo.Calc.language Demo.Calc.distinctTags_language ["sum", "-"]).mpr
      hsum⟩

/-- At the end of the input the sum of an empty list is derived too, as long as a fallback may be
chosen where no word is left. The parser asks for a word first. -/
theorem sum_alone_derivable_not_accepted :
    Demo.Calc.language.DistinctTags ∧ Demo.Calc.language.Defined ∧
      Demo.Calc.vocabulary.Grounded Demo.Calc.language.root ∧
      Derives Demo.Calc.language.grammar .keywordFirst Demo.Calc.language.Takes "l.calc"
        ["sum"] [] ∧
      Demo.Calc.language.parse ["sum"] = .rejected (.exhausted "arr" 1) ⟨["sum"], 1⟩ := by
  have hempty : Derives Demo.Calc.language.grammar .keywordFirst Demo.Calc.language.Takes
      "r.value" [] [] :=
    Vocabulary.Offers.unclosed.derives Demo.Calc.distinctTags_language
      Demo.Calc.reachable_numbers (fun _ htag => nomatch htag)
      (.stop not_goesOn_nil (.endOfInput .nil))
  exact ⟨Demo.Calc.distinctTags_language, Demo.Calc.defined_language, Demo.Calc.grounded _,
    Demo.Calc.derives_sum (fun _ _ _ h tag htag => absurd htag (h tag))
      (fun _ _ _ hword => nomatch hword) hempty, rfl⟩

end Parlance
