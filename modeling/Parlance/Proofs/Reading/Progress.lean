import Parlance.Language.Parse

/-
  Where a reading leaves the cursor. It stays in the same input and never moves back, whether the
  reading succeeds or fails, and a success in front of a word has read at least that word. The
  second part is what makes a repetition end: `parseItems_advances` needs it of the items.

  The facts are stated of a reply and the cursor that the reading started from (`Reply.Keeps`,
  `Reply.Advances`), one lemma for each reader of `Parlance.Language.Parse`.
-/

namespace Parlance

universe u v

namespace Cursor

/-- The index points into the input, or behind its last word. -/
def Within (c : Cursor) : Prop := c.index ≤ c.tokens.length

/-- `c'` is a place of the same input that is not in front of `c`. -/
structure Reaches (c c' : Cursor) : Prop where
  tokens_eq : c'.tokens = c.tokens
  le : c.index ≤ c'.index
  within : c'.index ≤ c.tokens.length

theorem within_ofTokens (tokens : List String) : (ofTokens tokens).Within := Nat.zero_le _

theorem next_ok {c ahead : Cursor} {expected : String} {token : Token}
    (h : c.next expected = .ok (token, ahead)) :
    c.tokens[c.index]? = some token.value ∧ token.position = c.index ∧
      ahead = ⟨c.tokens, c.index + 1⟩ := by
  unfold next at h
  split at h
  · next value hv =>
    cases h
    exact ⟨hv, rfl, rfl⟩
  · cases h

theorem next_error {c : Cursor} {expected : String} {error : Error}
    (h : c.next expected = .error error) :
    c.tokens.length ≤ c.index ∧ error = .exhausted expected c.index := by
  unfold next at h
  split at h
  · cases h
  · next hn =>
    cases h
    exact ⟨List.getElem?_eq_none_iff.mp hn, rfl⟩

/-- In front of a word, reading it succeeds whatever was expected. -/
theorem next_of_getElem? {c : Cursor} {word : String} (h : c.tokens[c.index]? = some word)
    (expected : String) :
    c.next expected = .ok (⟨word, c.index⟩, ⟨c.tokens, c.index + 1⟩) := by
  unfold next
  rw [h]

theorem next_of_length_le {c : Cursor} (h : c.tokens.length ≤ c.index) (expected : String) :
    c.next expected = .error (.exhausted expected c.index) := by
  unfold next
  rw [List.getElem?_eq_none_iff.mpr h]

theorem Reaches.refl {c : Cursor} (h : c.Within) : c.Reaches c :=
  ⟨rfl, Nat.le_refl _, h⟩

theorem Reaches.trans {c c' c'' : Cursor} (h : c.Reaches c') (h' : c'.Reaches c'') :
    c.Reaches c'' := by
  refine ⟨h'.tokens_eq.trans h.tokens_eq, Nat.le_trans h.le h'.le, ?_⟩
  rw [← h.tokens_eq]
  exact h'.within

theorem Reaches.within_right {c c' : Cursor} (h : c.Reaches c') : c'.Within := by
  unfold Within
  rw [h.tokens_eq]
  exact h.within

theorem Reaches.remaining_le {c c' : Cursor} (h : c.Reaches c') : c'.remaining ≤ c.remaining := by
  unfold remaining
  rw [h.tokens_eq]
  have := h.le
  omega

theorem Reaches.remaining_lt {c c' : Cursor} (h : c.Reaches c') (hlt : c.index < c'.index) :
    c'.remaining < c.remaining := by
  unfold remaining
  rw [h.tokens_eq]
  have := h.within
  omega

theorem next_reaches {c ahead : Cursor} {expected : String} {token : Token}
    (h : c.next expected = .ok (token, ahead)) : c.Reaches ahead ∧ c.index < ahead.index := by
  obtain ⟨hw, -, rfl⟩ := next_ok h
  have hlt : c.index < c.tokens.length := (List.getElem?_eq_some_iff.mp hw).1
  exact ⟨⟨rfl, Nat.le_succ _, hlt⟩, Nat.lt_succ_self _⟩

theorem finished_iff (c : Cursor) : c.finished = true ↔ c.index = c.tokens.length := by
  simp [finished]

theorem remaining_pos {c : Cursor} (hc : c.Within) (h : ¬ c.finished = true) :
    0 < c.remaining := by
  rw [finished_iff] at h
  unfold Within at hc
  unfold remaining
  omega

/-- The words stand between the cursor and the end of the input. -/
structure Faces (c : Cursor) (words : List String) : Prop where
  within : c.Within
  drop_eq : c.tokens.drop c.index = words

theorem faces_ofTokens (words : List String) : (ofTokens words).Faces words :=
  ⟨within_ofTokens words, rfl⟩

/-- In front of words, the first of them is read, and the others are left. -/
theorem Faces.next {c : Cursor} {word : String} {rest : List String} (h : c.Faces (word :: rest)) :
    (∀ expected, c.next expected = .ok (⟨word, c.index⟩, ⟨c.tokens, c.index + 1⟩)) ∧
      Faces ⟨c.tokens, c.index + 1⟩ rest := by
  have hword : c.tokens[c.index]? = some word := by
    rw [← List.head?_drop, h.drop_eq, List.head?_cons]
  refine ⟨next_of_getElem? hword, (List.getElem?_eq_some_iff.mp hword).1, ?_⟩
  rw [← List.tail_drop, h.drop_eq, List.tail_cons]

/-- In front of no words, the cursor stands at the end. -/
theorem Faces.index_eq {c : Cursor} (h : c.Faces []) : c.index = c.tokens.length := by
  have hle := List.drop_eq_nil_iff.mp h.drop_eq
  have hw := h.within
  unfold Within at hw
  omega

end Cursor

namespace Reply

variable {α : Type u} {β : Type v}

/-- The reading has stayed in the input of `c`, not in front of `c`. -/
def Keeps (c : Cursor) : Reply α → Prop
  | accepted _ c' | rejected _ c' => c.Reaches c'
  | endless => True

/-- The reading has stayed in the input of `c`; if it succeeded and there was a word to read, it
has read one. -/
def Advances (c : Cursor) : Reply α → Prop
  | accepted _ c' => c.Reaches c' ∧ (c.index < c.tokens.length → c.index < c'.index)
  | rejected _ c' => c.Reaches c'
  | endless => True

theorem Advances.keeps {c : Cursor} {r : Reply α} (h : r.Advances c) : r.Keeps c := by
  cases r with
  | accepted value c' => exact h.1
  | rejected error c' => exact h
  | endless => trivial

/-- In front of a word, a success has moved on. -/
theorem Advances.index_lt {c c' ahead : Cursor} {value : α} {expected : String} {token : Token}
    (h : (accepted value c').Advances c) (hn : c.next expected = .ok (token, ahead)) :
    c.index < c'.index := by
  obtain ⟨hr, hlt⟩ := Cursor.next_reaches hn
  exact h.2 (Nat.lt_of_lt_of_le hlt hr.within)

theorem Keeps.andThen {c : Cursor} {r : Reply α} {f : α → Cursor → Reply β} (hr : r.Keeps c)
    (hf : ∀ value c', r = accepted value c' → (f value c').Keeps c') :
    (r.andThen f).Keeps c := by
  cases r with
  | accepted value c' =>
    have hk := hf value c' rfl
    simp only [Reply.andThen]
    cases hfv : f value c' with
    | accepted _ c'' | rejected _ c'' =>
      rw [hfv] at hk
      exact Cursor.Reaches.trans hr hk
    | endless => trivial
  | rejected error c' => exact hr
  | endless => trivial

/-- Of two readings in a row, the first has read the word that there was. -/
theorem Advances.andThen {c : Cursor} {r : Reply α} {f : α → Cursor → Reply β}
    (hr : r.Advances c) (hf : ∀ value c', r = accepted value c' → (f value c').Keeps c') :
    (r.andThen f).Advances c := by
  cases r with
  | accepted value c' =>
    have hk := hf value c' rfl
    simp only [Reply.andThen]
    cases hfv : f value c' with
    | accepted _ c'' =>
      rw [hfv] at hk
      exact ⟨hr.1.trans hk, fun hlt => Nat.lt_of_lt_of_le (hr.2 hlt) hk.le⟩
    | rejected _ c'' =>
      rw [hfv] at hk
      exact hr.1.trans hk
    | endless => trivial
  | rejected error c' => exact hr
  | endless => trivial

/-- A reading that starts behind a word advances from in front of it. -/
theorem Keeps.advances {c ahead : Cursor} {r : Reply α} (h : r.Keeps ahead)
    (hr : c.Reaches ahead) (hlt : c.index < ahead.index) : r.Advances c := by
  cases r with
  | accepted value c' => exact ⟨hr.trans h, fun _ => Nat.lt_of_lt_of_le hlt h.le⟩
  | rejected error c' => exact hr.trans h
  | endless => trivial

theorem Keeps.map {c : Cursor} {r : Reply α} (f : α → β) (h : r.Keeps c) :
    (r.map f).Keeps c := by
  cases r <;> exact h

theorem Advances.map {c : Cursor} {r : Reply α} (f : α → β) (h : r.Advances c) :
    (r.map f).Advances c := by
  cases r <;> exact h

theorem Advances.mapError {c : Cursor} {r : Reply α} (f : Error → Error) (h : r.Advances c) :
    (r.mapError f).Advances c := by
  cases r <;> exact h

end Reply

variable {ι W V : Type}

theorem Primitive.parse_advances (p : Primitive V) {c : Cursor} (hc : c.Within) :
    (p.parse c : Reply (Program ι W V)).Advances c := by
  unfold Primitive.parse
  split
  · exact Cursor.Reaches.refl hc
  · next token ahead hn =>
    obtain ⟨hr, hlt⟩ := Cursor.next_reaches hn
    split
    · exact ⟨hr, fun _ => hlt⟩
    · exact hr

theorem parseArgs_keeps {parse : Expr ι V → Cursor → Reply (Program ι W V)}
    (hp : ∀ e c, c.Within → (parse e c).Advances c) (es : List (Expr ι V)) {c : Cursor}
    (hc : c.Within) : (parseArgs parse es c).Keeps c := by
  induction es generalizing c with
  | nil => exact Cursor.Reaches.refl hc
  | cons e es ih =>
    have he := hp e c hc
    refine he.keeps.andThen fun p c' hpc => ?_
    rw [hpc] at he
    exact (ih he.1.within_right).map _

theorem exitWord?_eq_some {tag : String} {exit : Option String} {c ahead : Cursor} {token : Token}
    (h : exitWord? tag exit c = some (token, ahead)) :
    exit = some token.value ∧ c.next tag = .ok (token, ahead) := by
  unfold exitWord? at h
  split at h
  · cases h
  · next word =>
    split at h
    · next token' ahead' hn =>
      split at h
      · next hv =>
        cases h
        exact ⟨by rw [hv], hn⟩
      · cases h
    · cases h

theorem parseItems_advances {child : Cursor → Reply (Program ι W V)}
    (hch : ∀ c, c.Within → (child c).Advances c) (tag : String) (exit : Option String) (n : Nat)
    {c : Cursor} (hc : c.Within) (hn : c.remaining ≤ n) :
    (parseItems child tag exit n c).Advances c := by
  induction n generalizing c with
  | zero =>
    refine ⟨Cursor.Reaches.refl hc, fun hlt => ?_⟩
    unfold Cursor.remaining at hn
    omega
  | succ n ih =>
    unfold parseItems
    split
    · next hf =>
      rw [Cursor.finished_iff] at hf
      exact ⟨Cursor.Reaches.refl hc, fun hlt => by omega⟩
    · next hf =>
      split
      · next token ahead he =>
        obtain ⟨hr, hlt⟩ := Cursor.next_reaches (exitWord?_eq_some he).2
        exact ⟨hr, fun _ => hlt⟩
      · have hadv := hch c hc
        refine hadv.andThen fun p c' hpc => ?_
        rw [hpc] at hadv
        have hpos := Cursor.remaining_pos hc hf
        have hlt : c'.remaining < c.remaining :=
          hadv.1.remaining_lt (hadv.2 (by unfold Cursor.remaining at hpos; omega))
        exact (ih hadv.1.within_right (by omega)).keeps.map _

theorem Expr.parseWith_advances (v : Vocabulary ι W V)
    {parseType : ι → Cursor → Reply (Program ι W V)}
    (ht : ∀ name c, c.Within → (parseType name c).Advances c) (e : Expr ι V) {c : Cursor}
    (hc : c.Within) : (e.parseWith v parseType c).Advances c := by
  induction e generalizing c with
  | prim p => exact p.parse_advances hc
  | type name => exact ht name c hc
  | rep r child ih =>
    exact (parseItems_advances (fun _ hc' => ih hc') _ r.exit _ hc (Nat.le_refl _)).map _

/-- A rule that was looked up is read from its keyword on: the second look at the keyword never
fails. -/
theorem Rule.parseWith_of_next {parse : Expr ι V → Cursor → Reply (Program ι W V)}
    {rule : Rule ι W V} {c ahead : Cursor} {expected : String} {token : Token}
    (hn : c.next expected = .ok (token, ahead)) (hk : token.value = rule.keyword) :
    rule.parseWith parse c = (parseArgs parse rule.args ahead).map fun args => (token, args) := by
  obtain ⟨hw, hpos, rfl⟩ := Cursor.next_ok hn
  unfold Rule.parseWith
  rw [Cursor.next_of_getElem? hw]
  obtain ⟨value, position⟩ := token
  subst hpos
  simp only [if_pos hk]

theorem Table.lookup_keyword {t : Table ι W V} {word : String} {rule : Rule ι W V}
    (h : t.lookup word = some rule) : word = rule.keyword := by
  have hk : rule.keyword = word := by simpa using List.find?_some h
  exact hk.symm

theorem parseType_advances (v : Vocabulary ι W V) (fuel : Nat) (name : ι) {c : Cursor}
    (hc : c.Within) : (parseType v fuel name c).Advances c := by
  induction fuel generalizing name c with
  | zero => trivial
  | succ fuel ih =>
    have hexpr : ∀ (e : Expr ι V) (c : Cursor), c.Within →
        (e.parseWith v (parseType v fuel) c).Advances c :=
      fun e c hc => e.parseWith_advances v (fun name c hc => ih name hc) hc
    unfold parseType
    split
    · exact Cursor.Reaches.refl hc
    · next table _ =>
      split
      · exact Cursor.Reaches.refl hc
      · next token ahead hn =>
        rw [Cursor.undo_of_next hn]
        obtain ⟨hr, hlt⟩ := Cursor.next_reaches hn
        dsimp only
        split
        · next rule hl =>
          rw [Rule.parseWith_of_next hn (Table.lookup_keyword hl)]
          have hargs := parseArgs_keeps hexpr rule.args hr.within_right
          exact ((hargs.advances hr hlt).map _).map _
        · split
          · next e _ => exact (hexpr e c hc).mapError _
          · exact Cursor.Reaches.refl hc

theorem Expr.parse_advances (v : Vocabulary ι W V) (e : Expr ι V) {c : Cursor} (hc : c.Within) :
    (e.parse v c).Advances c :=
  e.parseWith_advances v (fun name _ hc => parseType_advances v _ name hc) hc

end Parlance
