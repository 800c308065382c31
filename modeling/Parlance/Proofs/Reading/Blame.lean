import Parlance.Demo.Calc
import Parlance.Proofs.Reading.Failures

/-
  Who is blamed for a literal that was refused. While a program is read, calls are open: the root
  at the first word, a fallback or an item of it, an argument of a rule, and so on to the innermost.
  `v.Opens outer inner around` says that reading the outer call has come to the inner one, and
  lists the calls around it, the innermost first.

  A failure of the innermost call leaves the calls around it one by one
  (`Vocabulary.Enters.leaves`). Only a type that was opened at the very word puts its name on it,
  the next one finds a failure of another kind, and whatever was opened in front of an earlier word
  lets it pass.
-/

namespace Parlance

variable {ι W V : Type}

/-! ## Open calls -/

/-- An expression, and the place from which it is read. -/
structure OpenCall (ι V : Type) where
  expr : Expr ι V
  start : Cursor

/-- The type that the call reads, if it was opened at the position. -/
def OpenCall.typeAt? (position : Nat) (call : OpenCall ι V) : Option ι :=
  match call.expr with
  | .type name => if call.start.index = position then some name else none
  | .prim _ | .rep _ _ => none

/-- The innermost of the types that were opened at the position. -/
def innermostType? (position : Nat) (around : List (OpenCall ι V)) : Option ι :=
  around.findSome? (OpenCall.typeAt? position)

theorem innermostType?_cons_of_none {position : Nat} {call : OpenCall ι V}
    (h : call.typeAt? position = none) (around : List (OpenCall ι V)) :
    innermostType? position (call :: around) = innermostType? position around := by
  unfold innermostType?
  rw [List.findSome?_cons, h]

theorem innermostType?_cons_of_some {position : Nat} {call : OpenCall ι V} {name : ι}
    (h : call.typeAt? position = some name) (around : List (OpenCall ι V)) :
    innermostType? position (call :: around) = some name := by
  unfold innermostType?
  rw [List.findSome?_cons, h]

theorem OpenCall.typeAt?_eq_some {position : Nat} {call : OpenCall ι V} {name : ι}
    (he : call.expr = .type name) (hat : call.start.index = position) :
    call.typeAt? position = some name := by
  unfold OpenCall.typeAt?
  rw [he]
  exact if_pos hat

theorem OpenCall.typeAt?_eq_none {position : Nat} {call : OpenCall ι V}
    (h : ∀ name, call.expr = .type name → call.start.index ≠ position) :
    call.typeAt? position = none := by
  unfold OpenCall.typeAt?
  split
  · next name he => exact if_neg (h name he)
  · rfl
  · rfl

/-- Items of the repetition have been read, from the first cursor to the second. -/
inductive Vocabulary.ItemsRead (v : Vocabulary ι W V) (r : Repetition V) (child : Expr ι V) :
    Cursor → Cursor → Prop where
  | none {c : Cursor} : ItemsRead v r child c c
  | more {c ahead c' c'' : Cursor} {token : Token} {p : Program ι W V} :
      c.next ((Expr.rep r child).tag v.tag) = .ok (token, ahead) → r.exit ≠ some token.value →
      Reads v child c (.accepted p c') → ItemsRead v r child c' c'' → ItemsRead v r child c c''

/-- The second call is made by the first: its fallback, the argument that it has come to, or the
item that it has come to. -/
inductive Vocabulary.Enters (v : Vocabulary ι W V) : OpenCall ι V → OpenCall ι V → Prop where
  | fallback {name : ι} {c ahead : Cursor} {table : Table ι W V} {token : Token} {e : Expr ι V} :
      v.table name = some table → c.next (v.tag name) = .ok (token, ahead) →
      table.lookup token.value = none → table.fallback = some e →
      Enters v ⟨.type name, c⟩ ⟨e, c⟩
  | argument {name : ι} {c ahead c' : Cursor} {table : Table ι W V} {token : Token}
      {rule : Rule ι W V} {before after : List (Expr ι V)} {e : Expr ι V}
      {ps : List (Program ι W V)} :
      v.table name = some table → c.next (v.tag name) = .ok (token, ahead) →
      table.lookup token.value = some rule → rule.args = before ++ e :: after →
      ReadsArgs v before ahead (.accepted ps c') → Enters v ⟨.type name, c⟩ ⟨e, c'⟩
  | item {r : Repetition V} {child : Expr ι V} {c c' ahead : Cursor} {token : Token} :
      v.ItemsRead r child c c' → c'.next ((Expr.rep r child).tag v.tag) = .ok (token, ahead) →
      r.exit ≠ some token.value → Enters v ⟨.rep r child, c⟩ ⟨child, c'⟩

/-- Reading the outer call has come to the inner one, inside the calls of the list. -/
inductive Vocabulary.Opens (v : Vocabulary ι W V) (outer : OpenCall ι V) :
    OpenCall ι V → List (OpenCall ι V) → Prop where
  | self : Opens v outer outer []
  | enter {call inner : OpenCall ι V} {around : List (OpenCall ι V)} :
      Opens v outer call around → v.Enters call inner → Opens v outer inner (call :: around)

theorem Vocabulary.ItemsRead.reaches {v : Vocabulary ι W V} {r : Repetition V} {child : Expr ι V}
    {c c' : Cursor} (h : v.ItemsRead r child c c') (hc : c.Within) : c.Reaches c' := by
  induction h with
  | none => exact .refl hc
  | more _ _ hp _ ih =>
    have hr := (hp.advances hc).1
    exact hr.trans (ih hr.within_right)

theorem Vocabulary.Enters.reaches {v : Vocabulary ι W V} {call inner : OpenCall ι V}
    (h : v.Enters call inner) (hc : call.start.Within) : call.start.Reaches inner.start := by
  cases h with
  | fallback _ _ _ _ => exact .refl hc
  | argument _ hn _ _ ha =>
    have hahead := (Cursor.next_reaches hn).1
    exact hahead.trans (ha.keeps hahead.within_right)
  | item hi _ _ => exact hi.reaches hc

theorem Vocabulary.Opens.reaches {v : Vocabulary ι W V} {outer inner : OpenCall ι V}
    {around : List (OpenCall ι V)} (h : v.Opens outer inner around) (hc : outer.start.Within) :
    outer.start.Reaches inner.start := by
  induction h with
  | self => exact .refl hc
  | enter _ he ih => exact ih.trans (he.reaches ih.within_right)

/-! ## How a failure leaves the calls -/

theorem ReadsArgs.rejected_append {v : Vocabulary ι W V} {before : List (Expr ι V)}
    {c c' : Cursor} {ps : List (Program ι W V)} (h : ReadsArgs v before c (.accepted ps c'))
    {e : Expr ι V} {error : Error} {c'' : Cursor} (he : Reads v e c' (.rejected error c''))
    (after : List (Expr ι V)) :
    ReadsArgs v (before ++ e :: after) c (.rejected error c'') := by
  induction before generalizing c ps with
  | nil =>
    cases h
    exact .failed he
  | cons e₀ before ih =>
    generalize hr : Reply.accepted ps c' = r at h
    cases h with
    | cons hp hrest =>
      obtain ⟨qs, rfl, rfl⟩ := Reply.map_eq_accepted hr.symm
      exact .cons hp (ih hrest)
    | failed _ => cases hr

theorem Vocabulary.ItemsRead.rejected {v : Vocabulary ι W V} {r : Repetition V}
    {child : Expr ι V} {c c' : Cursor} (h : v.ItemsRead r child c c')
    {reply : Reply (List (Program ι W V) × Option Token)} {error : Error} {c'' : Cursor}
    (hr : ReadsItems v r child c' reply) (hreply : reply = .rejected error c'') :
    ReadsItems v r child c (.rejected error c'') := by
  induction h with
  | none => exact hreply ▸ hr
  | more hn he hp _ ih => exact .item hn he hp (ih hr)

/-- A failure of the inner call is one of the call that made it. It passes unchanged, unless the
call is a type and the inner call its fallback, and the type looks whether to blame itself. -/
theorem Vocabulary.Enters.leaves {v : Vocabulary ι W V} {call inner : OpenCall ι V}
    (h : v.Enters call inner) (hc : call.start.Within) {error : Error} {c' : Cursor}
    (hr : Reads v inner.expr inner.start (.rejected error c')) :
    (Reads v call.expr call.start (.rejected error c') ∧
      ∀ name, call.expr = .type name → call.start.index < inner.start.index) ∨
    ∃ name token ahead, call.expr = .type name ∧ inner.start = call.start ∧
      call.start.next (v.tag name) = .ok (token, ahead) ∧
      Reads v call.expr call.start (.rejected (blame (v.tag name) token error) c') := by
  cases h with
  | fallback ht hn hl he => exact .inr ⟨_, _, _, rfl, rfl, hn, .fallback ht hn hl he hr⟩
  | argument ht hn hl hargs ha =>
    obtain ⟨hahead, hlt⟩ := Cursor.next_reaches hn
    have hfail := hargs ▸ ha.rejected_append hr _
    refine .inl ⟨Reads.keyword ht hn hl hfail, fun _ _ => ?_⟩
    exact Nat.lt_of_lt_of_le hlt (ha.keeps hahead.within_right).le
  | item hi hn he =>
    exact .inl ⟨.rep (hi.rejected (.failed hn he hr) rfl), fun _ hname => nomatch hname⟩

/-- Once a type is blamed, the failure passes all calls around it. -/
theorem Vocabulary.Opens.unexpected {v : Vocabulary ι W V} {outer inner : OpenCall ι V}
    {around : List (OpenCall ι V)} (h : v.Opens outer inner around) (hc : outer.start.Within)
    {word expected : String} {position : Nat} {c' : Cursor}
    (hr : Reads v inner.expr inner.start (.rejected (.unexpected word position expected) c')) :
    Reads v outer.expr outer.start (.rejected (.unexpected word position expected) c') := by
  induction h with
  | self => exact hr
  | enter hopen he ih =>
    rcases he.leaves (hopen.reaches hc).within_right hr with ⟨hpass, -⟩ | ⟨_, _, _, -, -, -, hpass⟩
    · exact ih hpass
    · exact ih hpass

theorem blame_of_ne {tag word expected reason : String} {token : Token} {position : Nat}
    (h : position ≠ token.position) :
    blame tag token (.unreadable word position expected reason) =
      .unreadable word position expected reason := by
  simp only [blame, if_neg h]

theorem blame_self (tag expected reason : String) (token : Token) :
    blame tag token (.unreadable token.value token.position expected reason) =
      .unexpected token.value token.position tag := by
  simp only [blame, if_true]

/-- A refused literal leaves the calls as it is, or with the name of the innermost type that was
opened at its word. -/
theorem Vocabulary.Opens.unreadable {v : Vocabulary ι W V} {outer inner : OpenCall ι V}
    {around : List (OpenCall ι V)} (h : v.Opens outer inner around) (hc : outer.start.Within)
    {word expected reason : String} {position : Nat} {c' : Cursor}
    (hr : Reads v inner.expr inner.start
      (.rejected (.unreadable word position expected reason) c')) :
    Reads v outer.expr outer.start (.rejected
      (match innermostType? position around with
        | some name => .unexpected word position (v.tag name)
        | none => .unreadable word position expected reason) c') := by
  induction h with
  | self => exact hr
  | @enter call inner around hopen he ih =>
    have hcall := (hopen.reaches hc).within_right
    have hinner := (he.reaches hcall).within_right
    cases hr.fault hinner rfl with
    | unreadable hs =>
      rcases he.leaves hcall hr with
        ⟨hpass, hbefore⟩ | ⟨name, token, ahead, hname, hstart, hn, hpass⟩
      · -- the call was opened in front of an earlier word, or it is no type
        have hnone : call.typeAt? position = none := by
          refine OpenCall.typeAt?_eq_none fun name hname hat => ?_
          have hlt := hbefore name hname
          have hle := hs.le
          omega
        rw [innermostType?_cons_of_none hnone]
        exact ih hpass
      · obtain ⟨hword, hpos, -⟩ := Cursor.next_ok hn
        by_cases hat : call.start.index = position
        · -- the type looked at the very word that was refused
          have hrefused := hs.word_eq
          rw [hstart, ← hat, hword] at hrefused
          cases hrefused
          rw [← hat, ← hpos, blame_self] at hpass
          rw [innermostType?_cons_of_some (OpenCall.typeAt?_eq_some hname hat), ← hat, ← hpos]
          exact hopen.unexpected hc hpass
        · rw [innermostType?_cons_of_none (OpenCall.typeAt?_eq_none fun _ _ => hat)]
          rw [blame_of_ne (by omega)] at hpass
          exact ih hpass

/-! ## Where a refused literal comes from -/

/-- Reading the call has come to a primitive that refuses the word at the position. -/
def Vocabulary.Refuses (v : Vocabulary ι W V) (outer : OpenCall ι V) (word : String)
    (position : Nat) (expected reason : String) : Prop :=
  ∃ prim start around, v.Opens outer ⟨.prim prim, start⟩ around ∧ start.index = position ∧
    start.tokens[position]? = some word ∧ prim.tag = expected ∧ prim.convert word = .error reason

theorem Vocabulary.Enters.opens {v : Vocabulary ι W V} {outer call inner : OpenCall ι V}
    {around : List (OpenCall ι V)} (he : v.Enters outer call) (h : v.Opens call inner around) :
    v.Opens outer inner (around ++ [outer]) := by
  induction h with
  | self => exact .enter .self he
  | enter _ he' ih => exact .enter ih he'

theorem Vocabulary.Refuses.of_enters {v : Vocabulary ι W V} {outer call : OpenCall ι V}
    {word expected reason : String} {position : Nat}
    (h : v.Refuses call word position expected reason) (he : v.Enters outer call) :
    v.Refuses outer word position expected reason := by
  obtain ⟨prim, start, around, hopen, hrest⟩ := h
  exact ⟨prim, start, around ++ [outer], he.opens hopen, hrest⟩

/-- No type turns another failure into a refused literal. -/
theorem blame_eq_unreadable {tag word expected reason : String} {token : Token} {position : Nat}
    {error : Error} (h : blame tag token error = .unreadable word position expected reason) :
    error = .unreadable word position expected reason := by
  unfold blame at h
  split at h
  · split at h
    · cases h
    · exact h
  · exact h

theorem Primitive.refuses {v : Vocabulary ι W V} {prim : Primitive V} {c c' : Cursor}
    {word expected reason : String} {position : Nat}
    (h : (prim.parse c : Reply (Program ι W V)) =
      .rejected (.unreadable word position expected reason) c') :
    v.Refuses ⟨.prim prim, c⟩ word position expected reason := by
  unfold Primitive.parse at h
  split at h
  · next hn =>
    cases h
    cases (Cursor.next_error hn).2
  · next token ahead hn =>
    split at h
    · cases h
    · next hv =>
      cases h
      obtain ⟨hw, hpos, -⟩ := Cursor.next_ok hn
      exact ⟨prim, c, [], .self, hpos.symm, hpos ▸ hw, rfl, hv⟩

mutual

/-- Behind every refused literal that is reported there is a primitive that refused it. -/
theorem Reads.refuses {v : Vocabulary ι W V} {e : Expr ι V} {c : Cursor}
    {r : Reply (Program ι W V)} (h : Reads v e c r) {word expected reason : String}
    {position : Nat} {c' : Cursor}
    (hr : r = .rejected (.unreadable word position expected reason) c') :
    v.Refuses ⟨e, c⟩ word position expected reason := by
  match h with
  | .prim => exact Primitive.refuses hr
  | .undefined _ | .unexpected _ _ _ _ => cases hr
  | .exhausted _ hn =>
    cases hr
    cases (Cursor.next_error hn).2
  | .keyword ht hn hl ha =>
    obtain ⟨before, e', after, ps, c₁, hargs, hbefore, hrefuse⟩ :=
      ha.refuses (Reply.map_eq_rejected hr)
    exact hrefuse.of_enters (.argument ht hn hl hargs hbefore)
  | .fallback ht hn hl he hrest =>
    obtain ⟨error, hr', herror⟩ := Reply.mapError_eq_rejected hr
    cases blame_eq_unreadable herror
    exact (hrest.refuses hr').of_enters (.fallback ht hn hl he)
  | .rep hitems =>
    obtain ⟨c₁, token, ahead, hread, hn, he, hrefuse⟩ :=
      hitems.refuses (Reply.map_eq_rejected hr)
    exact hrefuse.of_enters (.item hread hn he)

theorem ReadsArgs.refuses {v : Vocabulary ι W V} {es : List (Expr ι V)} {c : Cursor}
    {r : Reply (List (Program ι W V))} (h : ReadsArgs v es c r) {word expected reason : String}
    {position : Nat} {c' : Cursor}
    (hr : r = .rejected (.unreadable word position expected reason) c') :
    ∃ before e after ps c₁, es = before ++ e :: after ∧ ReadsArgs v before c (.accepted ps c₁) ∧
      v.Refuses ⟨e, c₁⟩ word position expected reason := by
  match h with
  | .nil => cases hr
  | .cons (e := e₀) (p := p) he hes =>
    obtain ⟨before, e, after, ps, c₁, rfl, hbefore, hrefuse⟩ :=
      hes.refuses (Reply.map_eq_rejected hr)
    exact ⟨e₀ :: before, e, after, p :: ps, c₁, rfl, .cons he hbefore, hrefuse⟩
  | .failed he => exact ⟨[], _, _, [], c, rfl, .nil, he.refuses (Reply.rejected_eq hr)⟩

theorem ReadsItems.refuses {v : Vocabulary ι W V} {r : Repetition V} {child : Expr ι V}
    {c : Cursor} {reply : Reply (List (Program ι W V) × Option Token)}
    (h : ReadsItems v r child c reply) {word expected reason : String} {position : Nat}
    {c' : Cursor} (hr : reply = .rejected (.unreadable word position expected reason) c') :
    ∃ c₁ token ahead, v.ItemsRead r child c c₁ ∧
      c₁.next ((Expr.rep r child).tag v.tag) = .ok (token, ahead) ∧ r.exit ≠ some token.value ∧
      v.Refuses ⟨child, c₁⟩ word position expected reason := by
  match h with
  | .finished _ | .exit _ _ => cases hr
  | .item hn he hp hi =>
    obtain ⟨c₁, token, ahead, hread, hn', he', hrefuse⟩ := hi.refuses (Reply.map_eq_rejected hr)
    exact ⟨c₁, token, ahead, .more hn he hp hread, hn', he', hrefuse⟩
  | .failed hn he hp => exact ⟨c, _, _, .none, hn, he, hp.refuses (Reply.rejected_eq hr)⟩

end

/-! ## Whole programs -/

/-- A literal that is refused is blamed on the innermost type that was looking for it. Suppose that
reading a program has come to a primitive, and that this primitive refuses the word in front of
it. If types were opened at that word and are still open, the failure of the whole program names
the word, its position and the tag of the innermost of them; if none was, it names the word, its
position, the tag of the primitive and its reason. Nothing else that is open changes either
failure, nor where the cursor was left. And a failure of the second kind comes from nowhere
else. -/
theorem refused_literal_blamed_on_innermost (l : Language ι W V) (words : List String) :
    (∀ prim start around word reason,
      l.vocabulary.Opens ⟨l.root, .ofTokens words⟩ ⟨.prim prim, start⟩ around →
      words[start.index]? = some word → prim.convert word = .error reason →
      (∀ name, innermostType? start.index around = some name →
        l.parse words = .rejected (.unexpected word start.index (l.vocabulary.tag name))
          ⟨words, start.index + 1⟩) ∧
      (innermostType? start.index around = none →
        l.parse words = .rejected (.unreadable word start.index prim.tag reason)
          ⟨words, start.index + 1⟩)) ∧
    ∀ word position expected reason c,
      l.parse words = .rejected (.unreadable word position expected reason) c →
      l.vocabulary.Refuses ⟨l.root, .ofTokens words⟩ word position expected reason := by
  have hc := Cursor.within_ofTokens words
  constructor
  · intro prim start around word reason hopen hw hv
    have htokens : start.tokens = words := (hopen.reaches hc).tokens_eq
    have hrefuse : Reads l.vocabulary (.prim prim) start
        (.rejected (.unreadable word start.index prim.tag reason) ⟨words, start.index + 1⟩) := by
      have hn := Cursor.next_of_getElem? (htokens.symm ▸ hw) prim.tag
      have hfail : (prim.parse start : Reply (Program ι W V)) =
          .rejected (.unreadable word start.index prim.tag reason) ⟨words, start.index + 1⟩ := by
        simp only [Primitive.parse, hn, hv, htokens]
      exact hfail ▸ .prim
    have hroot := hopen.unreadable hc hrefuse
    constructor
    · intro name hname
      rw [hname] at hroot
      exact Language.parse_eq_rejected.mpr (.inl hroot)
    · intro hnone
      rw [hnone] at hroot
      exact Language.parse_eq_rejected.mpr (.inl hroot)
  · intro word position expected reason c h
    rcases Language.parse_eq_rejected.mp h with hread | ⟨p, c₀, token, -, -, herror⟩
    · exact hread.refuses rfl
    · cases herror

namespace Demo.Calc

/-- The second item of a list of numbers is a word that is no number. -/
def badItem : List String := ["sum", "1", "x"]

/-- The calls that are open when that word is refused: the value and the array that were opened in
front of earlier words, the list, and the value at the word. -/
def badItemCalls : List (OpenCall Name Value) :=
  [⟨.type .value, ⟨badItem, 2⟩⟩, ⟨numbers, ⟨badItem, 1⟩⟩, ⟨.type .arr, ⟨badItem, 1⟩⟩,
    ⟨.type .value, ⟨badItem, 0⟩⟩]

theorem opens_badItem :
    vocabulary.Opens ⟨.type .value, .ofTokens badItem⟩
      ⟨.prim (Literal.number.map fun x => .number x.toFloat), ⟨badItem, 2⟩⟩ badItemCalls := by
  have hsum : vocabulary.Enters ⟨.type .value, .ofTokens badItem⟩ ⟨.type .arr, ⟨badItem, 1⟩⟩ :=
    .argument rfl rfl rfl (List.nil_append [Expr.type Name.arr]).symm .nil
  have hlist : vocabulary.Enters ⟨.type .arr, ⟨badItem, 1⟩⟩ ⟨numbers, ⟨badItem, 1⟩⟩ :=
    .fallback rfl rfl rfl rfl
  have hone : ∃ p, Reads vocabulary (.type .value) ⟨badItem, 1⟩ (.accepted p ⟨badItem, 2⟩) :=
    ⟨_, (reads_iff (Nat.le_of_ble_eq_true rfl)).mpr ⟨rfl, nofun⟩⟩
  obtain ⟨p, hp⟩ := hone
  have hitem : vocabulary.Enters ⟨numbers, ⟨badItem, 1⟩⟩ ⟨.type .value, ⟨badItem, 2⟩⟩ :=
    .item (.more rfl (by decide) hp .none) rfl (by decide)
  exact (((Vocabulary.Opens.self.enter hsum).enter hlist).enter hitem).enter
    (.fallback rfl rfl rfl rfl)

end Demo.Calc

/-- The word is blamed on the value that was looked for there, and not on the list, on the array
or on the value in front of them. -/
theorem refused_literal_blamed_on_innermost_calc :
    Demo.Calc.vocabulary.Opens ⟨Demo.Calc.language.root, .ofTokens Demo.Calc.badItem⟩
        ⟨.prim (Literal.number.map fun x => .number x.toFloat), ⟨Demo.Calc.badItem, 2⟩⟩
        Demo.Calc.badItemCalls ∧
      innermostType? 2 Demo.Calc.badItemCalls = some .value ∧
      Demo.Calc.language.parse Demo.Calc.badItem =
        .rejected (.unexpected "x" 2 "value") ⟨Demo.Calc.badItem, 3⟩ :=
  ⟨Demo.Calc.opens_badItem, rfl,
    ((refused_literal_blamed_on_innermost Demo.Calc.language Demo.Calc.badItem).1 _ _ _ "x"
      "invalid number" Demo.Calc.opens_badItem rfl rfl).1 .value rfl⟩

end Parlance
