import Parlance.Demo.Toolbox
import Parlance.Proofs.Graph
import Parlance.Proofs.Reading.Rules
import Parlance.Proofs.Spans

/-
  Where a failed reading points. `v.Fault e c error c'` lists the ways in which reading `e` at `c`
  can fail: the input ended where a primitive or a type had to start, a type has no table, or a
  word was stumbled over, in front of which or behind which the cursor was left. Every derivation
  of a failure is one of these (`Reads.fault`). A failure keeps its description on the way up,
  except that a type may put its own name on it (`Vocabulary.Fault.blame`), and then the position
  is that of the word the type looked at.

  `errors_point_at_their_word` says what that means for whole programs, down to the bytes that a
  report underlines.
-/

namespace Parlance

variable {ι W V : Type}

/-! ## Ways to fail -/

/-- The word stands at the position, which is not in front of `c`, and the cursor was left in front
of the word or behind it. -/
structure Cursor.Stumbles (c : Cursor) (position : Nat) (word : String) (c' : Cursor) : Prop where
  le : c.index ≤ position
  word_eq : c.tokens[position]? = some word
  left : c'.index = position ∨ c'.index = position + 1

/-- The tag is that of a primitive or of a type that can be reached. -/
def Vocabulary.Asks (v : Vocabulary ι W V) (root : Expr ι V) (tag : String) : Prop :=
  (∃ p, v.Reachable root (.prim p) ∧ tag = p.tag) ∨
    ∃ name, v.Reachable root (.type name) ∧ tag = v.tag name

/-- How reading an expression at a cursor can fail, and where it leaves the cursor. -/
inductive Vocabulary.Fault (v : Vocabulary ι W V) (e : Expr ι V) (c : Cursor) :
    Error → Cursor → Prop where
  | exhausted {expected : String} {c' : Cursor} :
      v.Asks e expected → c'.index = c.tokens.length →
      Fault v e c (.exhausted expected c.tokens.length) c'
  | undefined {name : ι} {c' : Cursor} :
      v.Reachable e (.type name) → v.table name = none →
      Fault v e c (.undefinedType (v.tag name)) c'
  | unreadable {word expected reason : String} {position : Nat} {c' : Cursor} :
      c.Stumbles position word c' → Fault v e c (.unreadable word position expected reason) c'
  | unexpected {word expected : String} {position : Nat} {c' : Cursor} :
      c.Stumbles position word c' → Fault v e c (.unexpected word position expected) c'

theorem Vocabulary.Asks.of_reachable {v : Vocabulary ι W V} {root e : Expr ι V} {tag : String}
    (h : v.Asks e tag) (he : v.Reachable root e) : v.Asks root tag := by
  rcases h with ⟨p, hp, rfl⟩ | ⟨name, hname, rfl⟩
  · exact .inl ⟨p, he.trans hp, rfl⟩
  · exact .inr ⟨name, he.trans hname, rfl⟩

theorem Cursor.Stumbles.of_reaches {c₀ c c' : Cursor} {position : Nat} {word : String}
    (h : c.Stumbles position word c') (hr : c₀.Reaches c) : c₀.Stumbles position word c' :=
  ⟨Nat.le_trans hr.le h.le, hr.tokens_eq ▸ h.word_eq, h.left⟩

/-- A failure further inside, at a later place, is one of the whole. -/
theorem Vocabulary.Fault.of_reachable {v : Vocabulary ι W V} {root e : Expr ι V}
    {c₀ c c' : Cursor} {error : Error} (h : v.Fault e c error c') (he : v.Reachable root e)
    (hr : c₀.Reaches c) : v.Fault root c₀ error c' := by
  cases h with
  | exhausted hask hend =>
    rw [hr.tokens_eq] at hend ⊢
    exact .exhausted (hask.of_reachable he) hend
  | undefined hname ht => exact .undefined (he.trans hname) ht
  | unreadable hs => exact .unreadable (hs.of_reaches hr)
  | unexpected hs => exact .unexpected (hs.of_reaches hr)

/-- No failure points at a word in front of the place where the reading started. -/
theorem Vocabulary.Fault.le_position {v : Vocabulary ι W V} {e : Expr ι V} {c c' : Cursor}
    {error : Error} (h : v.Fault e c error c') (hc : c.Within) {position : Nat}
    (hp : error.position? = some position) : c.index ≤ position := by
  cases h with
  | exhausted _ _ =>
    cases hp
    exact hc
  | undefined _ _ => cases hp
  | unreadable hs | unexpected hs =>
    cases hp
    exact hs.le

/-! ## Failures of the readers -/

theorem Reply.map_eq_rejected {α β : Type _} {f : α → β} {r : Reply α} {error : Error}
    {c : Cursor} (h : r.map f = .rejected error c) : r = .rejected error c := by
  cases r with
  | accepted a c' => cases h
  | rejected error' c' =>
    cases h
    rfl
  | endless => cases h

/-- A failure has no value, so that its type does not matter. -/
theorem Reply.rejected_eq {α β : Type _} {error error' : Error} {c c' : Cursor}
    (h : (rejected error c : Reply α) = rejected error' c') :
    (rejected error c : Reply β) = rejected error' c' := by
  cases h
  rfl

theorem Reply.mapError_eq_rejected {α : Type _} {f : Error → Error} {r : Reply α} {error : Error}
    {c : Cursor} (h : r.mapError f = .rejected error c) :
    ∃ error', r = .rejected error' c ∧ f error' = error := by
  cases r with
  | accepted a c' => cases h
  | rejected error' c' =>
    cases h
    exact ⟨error', rfl, rfl⟩
  | endless => cases h

theorem Cursor.stumbles_next {c ahead c' : Cursor} {expected : String} {token : Token}
    (hn : c.next expected = .ok (token, ahead)) (hleft : c' = c ∨ c' = ahead) :
    c.Stumbles token.position token.value c' := by
  obtain ⟨hw, hpos, rfl⟩ := Cursor.next_ok hn
  refine ⟨Nat.le_of_eq hpos.symm, hpos ▸ hw, ?_⟩
  rw [hpos]
  rcases hleft with rfl | rfl
  · exact .inl rfl
  · exact .inr rfl

/-- At the end of the input, the failure names what was asked for. -/
theorem Vocabulary.Fault.of_next_error {v : Vocabulary ι W V} {e : Expr ι V} {c : Cursor}
    {expected : String} {error : Error} (hask : v.Asks e expected) (hc : c.Within)
    (hn : c.next expected = .error error) : v.Fault e c error c := by
  obtain ⟨hle, rfl⟩ := Cursor.next_error hn
  have hend : c.index = c.tokens.length := Nat.le_antisymm hc hle
  have hfault : v.Fault e c (.exhausted expected c.tokens.length) c := .exhausted hask hend
  rwa [← hend] at hfault

/-- A type that puts its name on a failure of its fallback points at the word it looked at, and
that is the word at which the fallback failed. -/
theorem Vocabulary.Fault.blame {v : Vocabulary ι W V} {name : ι} {e : Expr ι V}
    {c ahead c' : Cursor} {expected : String} {token : Token} {error : Error}
    (h : v.Fault e c error c') (he : v.Reachable (.type name) e) (hc : c.Within)
    (hn : c.next expected = .ok (token, ahead)) (tag : String) :
    v.Fault (.type name) c (blame tag token error) c' := by
  have hsame := h.of_reachable he (Cursor.Reaches.refl hc)
  cases h with
  | exhausted _ _ | undefined _ _ | unexpected _ => exact hsame
  | @unreadable word _ _ position _ hs =>
    unfold Parlance.blame
    dsimp only
    split
    · next hpos =>
      obtain ⟨hw, hindex, -⟩ := Cursor.next_ok hn
      have hword := hs.word_eq
      rw [hpos, hindex, hw] at hword
      cases hword
      exact .unexpected (hpos ▸ hs)
    · exact hsame

theorem Primitive.fault {v : Vocabulary ι W V} {p : Primitive V} {c c' : Cursor} {error : Error}
    (hc : c.Within) (h : (p.parse c : Reply (Program ι W V)) = .rejected error c') :
    v.Fault (.prim p) c error c' := by
  unfold Primitive.parse at h
  split at h
  · next hn =>
    cases h
    exact .of_next_error (.inl ⟨p, .refl _ _, rfl⟩) hc hn
  · next token ahead hn =>
    split at h
    · cases h
    · cases h
      exact .unreadable (Cursor.stumbles_next hn (.inr rfl))

mutual

theorem Reads.fault {v : Vocabulary ι W V} {e : Expr ι V} {c : Cursor}
    {r : Reply (Program ι W V)} (h : Reads v e c r) (hc : c.Within) {error : Error} {c' : Cursor}
    (hr : r = .rejected error c') : v.Fault e c error c' := by
  match h with
  | .prim => exact Primitive.fault hc hr
  | .undefined ht =>
    cases hr
    exact .undefined (.refl _ _) ht
  | .exhausted _ hn =>
    cases hr
    exact .of_next_error (.inr ⟨_, .refl _ _, rfl⟩) hc hn
  | .keyword ht hn hl ha =>
    have hahead := (Cursor.next_reaches hn).1
    obtain ⟨e', he', c₀, hr₀, hf⟩ :=
      ha.fault hahead.within_right (Reply.map_eq_rejected hr)
    have hmem := List.mem_of_find?_eq_some hl
    exact hf.of_reachable (.of_argument ht hmem he') (hahead.trans hr₀)
  | .fallback ht hn _ he hrest =>
    obtain ⟨error', hr', rfl⟩ := Reply.mapError_eq_rejected hr
    exact (hrest.fault hc hr').blame (.of_silent (.fallback ht he)) hc hn _
  | .unexpected _ hn _ _ =>
    cases hr
    exact .unexpected (Cursor.stumbles_next hn (.inl rfl))
  | .rep hitems =>
    obtain ⟨c₀, hr₀, hf⟩ := hitems.fault hc (Reply.map_eq_rejected hr)
    exact hf.of_reachable (.of_silent .item) hr₀

/-- One of the arguments failed, at a later place. -/
theorem ReadsArgs.fault {v : Vocabulary ι W V} {es : List (Expr ι V)} {c : Cursor}
    {r : Reply (List (Program ι W V))} (h : ReadsArgs v es c r) (hc : c.Within) {error : Error}
    {c' : Cursor} (hr : r = .rejected error c') :
    ∃ e ∈ es, ∃ c₀, c.Reaches c₀ ∧ v.Fault e c₀ error c' := by
  match h with
  | .nil => cases hr
  | .cons he hes =>
    have hreach := (he.advances hc).1
    obtain ⟨e', he', c₀, hr₀, hf⟩ := hes.fault hreach.within_right (Reply.map_eq_rejected hr)
    exact ⟨e', List.mem_cons_of_mem _ he', c₀, hreach.trans hr₀, hf⟩
  | .failed he =>
    exact ⟨_, List.mem_cons_self, c, Cursor.Reaches.refl hc, he.fault hc (Reply.rejected_eq hr)⟩

/-- One of the items failed. The loop itself asks for nothing: it looks for its exit word only in
front of a word. -/
theorem ReadsItems.fault {v : Vocabulary ι W V} {r : Repetition V} {child : Expr ι V}
    {c : Cursor} {reply : Reply (List (Program ι W V) × Option Token)}
    (h : ReadsItems v r child c reply) (hc : c.Within) {error : Error} {c' : Cursor}
    (hr : reply = .rejected error c') : ∃ c₀, c.Reaches c₀ ∧ v.Fault child c₀ error c' := by
  match h with
  | .finished _ | .exit _ _ => cases hr
  | .item _ _ hp hi =>
    have hreach := (hp.advances hc).1
    obtain ⟨c₀, hr₀, hf⟩ := hi.fault hreach.within_right (Reply.map_eq_rejected hr)
    exact ⟨c₀, hreach.trans hr₀, hf⟩
  | .failed _ _ hp => exact ⟨c, Cursor.Reaches.refl hc, hp.fault hc (Reply.rejected_eq hr)⟩

end

/-! ## Failures of whole programs -/

/-- A program is refused if its root is, or if a word is left over behind the root. -/
theorem Language.parse_eq_rejected {l : Language ι W V} {words : List String} {error : Error}
    {c : Cursor} :
    l.parse words = .rejected error c ↔
      Reads l.vocabulary l.root (.ofTokens words) (.rejected error c) ∨
        ∃ p c₀ token, Reads l.vocabulary l.root (.ofTokens words) (.accepted p c₀) ∧
          c₀.next l.tag = .ok (token, c) ∧ error = .trailing token.value token.position := by
  have hc := Cursor.within_ofTokens words
  rw [reads_iff hc]
  unfold Language.parse Language.parseFrom
  constructor
  · intro h
    cases hroot : l.root.parse l.vocabulary (.ofTokens words) with
    | accepted p c₀ =>
      rw [hroot] at h
      simp only [Reply.andThen] at h
      split at h
      · next token ahead hn =>
        cases h
        exact .inr ⟨p, c₀, token, (reads_iff hc).mpr ⟨hroot, by simp⟩, hn, rfl⟩
      · cases h
    | rejected error' c' =>
      rw [hroot] at h
      cases h
      exact .inl ⟨rfl, by simp⟩
    | endless =>
      rw [hroot] at h
      cases h
  · rintro (⟨hroot, -⟩ | ⟨p, c₀, token, hread, hn, rfl⟩)
    · rw [hroot]
      rfl
    · rw [((reads_iff hc).mp hread).1]
      simp only [Reply.andThen, hn]

/-- Every type that can be reached has a table. -/
def Language.Defined (l : Language ι W V) : Prop :=
  ∀ name, l.vocabulary.Reachable l.root (.type name) → (l.vocabulary.table name).isSome

/-- No two expressions that can be reached have the same tag, and none has that of the language. -/
structure Language.DistinctTags (l : Language ι W V) : Prop where
  eq_of_tag {e e' : Expr ι V} : l.vocabulary.Reachable l.root e →
    l.vocabulary.Reachable l.root e' → e.tag l.vocabulary.tag = e'.tag l.vocabulary.tag → e = e'
  ne_tag {e : Expr ι V} : l.vocabulary.Reachable l.root e → e.tag l.vocabulary.tag ≠ l.tag

/-- What is asked for is neither a repetition nor the language, if tags tell them apart. -/
theorem Language.DistinctTags.asks {l : Language ι W V} (h : l.DistinctTags) {tag : String}
    (hask : l.vocabulary.Asks l.root tag) :
    tag ≠ l.tag ∧ ∀ r child, l.vocabulary.Reachable l.root (.rep r child) →
      tag ≠ (Expr.rep r child).tag l.vocabulary.tag := by
  obtain ⟨e, he, htag, hrep⟩ : ∃ e, l.vocabulary.Reachable l.root e ∧
      tag = e.tag l.vocabulary.tag ∧ ∀ r child, e ≠ .rep r child := by
    rcases hask with ⟨p, hp, rfl⟩ | ⟨name, hname, rfl⟩
    · exact ⟨.prim p, hp, rfl, fun _ _ => nofun⟩
    · exact ⟨.type name, hname, rfl, fun _ _ => nofun⟩
  rw [htag]
  exact ⟨h.ne_tag he, fun r child hr heq => hrep r child (h.eq_of_tag he hr heq)⟩

theorem Cursor.eq_mk {c : Cursor} {words : List String} {i : Nat} (ht : c.tokens = words)
    (hi : c.index = i) : c = ⟨words, i⟩ := by
  cases ht
  cases hi
  rfl

/-- A failure at a word of the program has that word in the list, and its bytes in the line. -/
theorem Cursor.Stumbles.located {words : List String} {position : Nat} {word : String}
    {c : Cursor} {error : Error} (h : (Cursor.ofTokens words).Stumbles position word c)
    (hc : c.tokens = words) (hp : error.position? = some position) :
    position < words.length ∧ words[position]? = some word ∧
      (c = ⟨words, position⟩ ∨ c = ⟨words, position + 1⟩) ∧
      ∃ span, (ProgramText.ofTokens words).locate error = some span ∧
        span.Cuts (ProgramText.ofTokens words).text word ∧
        span.offset = ProgramText.leadSize words position := by
  have hword : words[position]? = some word := h.word_eq
  refine ⟨(List.getElem?_eq_some_iff.mp hword).1, hword, ?_, _, ?_,
    ProgramText.cuts_spanAt hword, ?_⟩
  · exact h.left.imp (Cursor.eq_mk hc) (Cursor.eq_mk hc)
  · rw [ProgramText.locate, hp, Option.map_some]
  · rw [ProgramText.spanAt_of_getElem? hword]

/-- Every failure to read a program points at the right word. Where all types are defined, it says
that the input ended, at the index behind the last word and asking for a primitive or a type; or
that a word was refused, not expected or left over, and then it has the word and its index, and
the cursor was left in front of the word or behind it. No other failure comes up. In the line of
the whole program the failure points at the end, or at the bytes of the word. -/
theorem errors_point_at_their_word (l : Language ι W V) (hl : l.Defined) (words : List String)
    (error : Error) (c : Cursor) (h : l.parse words = .rejected error c) :
    (∃ expected, error = .exhausted expected words.length ∧ c = ⟨words, words.length⟩ ∧
      l.vocabulary.Asks l.root expected ∧
      (l.DistinctTags → expected ≠ l.tag ∧
        ∀ r child, l.vocabulary.Reachable l.root (.rep r child) →
          expected ≠ (Expr.rep r child).tag l.vocabulary.tag) ∧
      (ProgramText.ofTokens words).locate error =
        some ⟨(ProgramText.ofTokens words).text.utf8ByteSize, 0⟩) ∨
    ∃ word position,
      ((∃ expected reason, error = .unreadable word position expected reason) ∨
        (∃ expected, error = .unexpected word position expected) ∨
        error = .trailing word position) ∧
      position < words.length ∧ words[position]? = some word ∧
      (c = ⟨words, position⟩ ∨ c = ⟨words, position + 1⟩) ∧
      ∃ span, (ProgramText.ofTokens words).locate error = some span ∧
        span.Cuts (ProgramText.ofTokens words).text word ∧
        span.offset = ProgramText.leadSize words position := by
  have hc := Cursor.within_ofTokens words
  rcases Language.parse_eq_rejected.mp h with hread | ⟨p, c₀, token, hread, hn, rfl⟩
  · have htokens : c.tokens = words := (hread.advances hc).tokens_eq
    cases hread.fault hc rfl with
    | @exhausted expected _ hask hend =>
      refine .inl ⟨expected, rfl, Cursor.eq_mk htokens hend, hask,
        fun hdistinct => hdistinct.asks hask, ?_⟩
      exact congrArg some (ProgramText.spanAt_of_length_le (Nat.le_refl _))
    | undefined hname ht =>
      have hsome := hl _ hname
      rw [ht] at hsome
      cases hsome
    | unreadable hs => exact .inr ⟨_, _, .inl ⟨_, _, rfl⟩, hs.located htokens rfl⟩
    | unexpected hs => exact .inr ⟨_, _, .inr (.inl ⟨_, rfl⟩), hs.located htokens rfl⟩
  · have hreach := (hread.advances hc).1
    have hs := (Cursor.stumbles_next hn (.inr rfl)).of_reaches hreach
    have htokens : c.tokens = words :=
      (Cursor.next_reaches hn).1.tokens_eq.trans hreach.tokens_eq
    exact .inr ⟨_, _, .inr (.inr rfl), hs.located htokens rfl⟩

theorem Demo.Toolbox.defined_language : language.Defined := by
  intro name _
  cases name <;> rfl

/-- A word that no source starts with, behind a word with characters of two bytes: the failure has
the word and its index, and its bytes start behind the eighteen of the words before it. -/
theorem errors_point_at_their_word_toolbox :
    Demo.Toolbox.language.Defined ∧
      Demo.Toolbox.language.parse ["writeFile", "größe", "joyn", ","] =
        .rejected (.unexpected "joyn" 2 "source") ⟨["writeFile", "größe", "joyn", ","], 2⟩ ∧
      ∃ span, (ProgramText.ofTokens ["writeFile", "größe", "joyn", ","]).locate
          (.unexpected "joyn" 2 "source") = some span ∧
        span.Cuts "writeFile größe joyn ," "joyn" ∧ span.offset = 18 := by
  have h : Demo.Toolbox.language.parse ["writeFile", "größe", "joyn", ","] =
      .rejected (.unexpected "joyn" 2 "source") ⟨["writeFile", "größe", "joyn", ","], 2⟩ := rfl
  refine ⟨Demo.Toolbox.defined_language, h, ?_⟩
  rcases errors_point_at_their_word _ Demo.Toolbox.defined_language _ _ _ h with
    ⟨_, he, _⟩ | ⟨word, position, hkind, -, -, -, span, hspan, hcut, hoffset⟩
  · cases he
  · rcases hkind with ⟨_, _, he⟩ | ⟨_, he⟩ | he <;> cases he
    exact ⟨span, hspan, hcut, hoffset⟩

end Parlance
