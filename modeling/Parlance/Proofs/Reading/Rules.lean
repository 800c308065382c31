import Parlance.Language
import Parlance.Proofs.Reading.Depth

/-
  Reading as rules, without any bound on how often types are opened or items are read. `Reads v e
  c r` has a derivation exactly if reading `e` at `c` comes to an end, with the reply `r`; every
  step of the reading is a node of that derivation. `reads_iff` says that `Expr.parse` gives the
  reply that is derived, and is `endless` exactly where nothing is derived. What holds of every
  reading is proved by induction on the rules.
-/

namespace Parlance

variable {ι W V : Type}

mutual

/-- Reading an expression at a cursor ends with a reply. -/
inductive Reads (v : Vocabulary ι W V) : Expr ι V → Cursor → Reply (Program ι W V) → Prop where
  | prim {p : Primitive V} {c : Cursor} : Reads v (.prim p) c (p.parse c)
  | undefined {name : ι} {c : Cursor} :
      v.table name = none → Reads v (.type name) c (.rejected (.undefinedType (v.tag name)) c)
  | exhausted {name : ι} {c : Cursor} {table : Table ι W V} {error : Error} :
      v.table name = some table → c.next (v.tag name) = .error error →
      Reads v (.type name) c (.rejected error c)
  /-- The next word is a keyword: the arguments of its rule are read behind it. -/
  | keyword {name : ι} {c ahead : Cursor} {table : Table ι W V} {token : Token}
      {rule : Rule ι W V} {r : Reply (List (Program ι W V))} :
      v.table name = some table → c.next (v.tag name) = .ok (token, ahead) →
      table.lookup token.value = some rule → ReadsArgs v rule.args ahead r →
      Reads v (.type name) c (r.map fun args => .call (v.tag name) token rule args)
  /-- The next word is no keyword: the fallback is read from that word on. -/
  | fallback {name : ι} {c ahead : Cursor} {table : Table ι W V} {token : Token} {e : Expr ι V}
      {r : Reply (Program ι W V)} :
      v.table name = some table → c.next (v.tag name) = .ok (token, ahead) →
      table.lookup token.value = none → table.fallback = some e → Reads v e c r →
      Reads v (.type name) c (r.mapError (blame (v.tag name) token))
  | unexpected {name : ι} {c ahead : Cursor} {table : Table ι W V} {token : Token} :
      v.table name = some table → c.next (v.tag name) = .ok (token, ahead) →
      table.lookup token.value = none → table.fallback = none →
      Reads v (.type name) c (.rejected (.unexpected token.value token.position (v.tag name)) c)
  | rep {r : Repetition V} {child : Expr ι V} {c : Cursor}
      {reply : Reply (List (Program ι W V) × Option Token)} :
      ReadsItems v r child c reply →
      Reads v (.rep r child) c
        (reply.map fun (items, exit) => .list ((Expr.rep r child).tag v.tag) r items exit)

/-- Reading expressions one after the other ends with a reply. -/
inductive ReadsArgs (v : Vocabulary ι W V) :
    List (Expr ι V) → Cursor → Reply (List (Program ι W V)) → Prop where
  | nil {c : Cursor} : ReadsArgs v [] c (.accepted [] c)
  | cons {e : Expr ι V} {es : List (Expr ι V)} {c c' : Cursor} {p : Program ι W V}
      {r : Reply (List (Program ι W V))} :
      Reads v e c (.accepted p c') → ReadsArgs v es c' r →
      ReadsArgs v (e :: es) c (r.map fun ps => p :: ps)
  | failed {e : Expr ι V} {es : List (Expr ι V)} {c c' : Cursor} {error : Error} :
      Reads v e c (.rejected error c') → ReadsArgs v (e :: es) c (.rejected error c')

/-- Reading the items of a repetition ends with a reply. -/
inductive ReadsItems (v : Vocabulary ι W V) : Repetition V → Expr ι V → Cursor →
    Reply (List (Program ι W V) × Option Token) → Prop where
  | finished {r : Repetition V} {child : Expr ι V} {c : Cursor} :
      c.finished = true → ReadsItems v r child c (.accepted ([], none) c)
  | exit {r : Repetition V} {child : Expr ι V} {c ahead : Cursor} {token : Token} :
      c.next ((Expr.rep r child).tag v.tag) = .ok (token, ahead) → r.exit = some token.value →
      ReadsItems v r child c (.accepted ([], some token) ahead)
  | item {r : Repetition V} {child : Expr ι V} {c ahead c' : Cursor} {token : Token}
      {p : Program ι W V} {reply : Reply (List (Program ι W V) × Option Token)} :
      c.next ((Expr.rep r child).tag v.tag) = .ok (token, ahead) → r.exit ≠ some token.value →
      Reads v child c (.accepted p c') → ReadsItems v r child c' reply →
      ReadsItems v r child c (reply.map fun (ps, exit) => (p :: ps, exit))
  | failed {r : Repetition V} {child : Expr ι V} {c ahead c' : Cursor} {token : Token}
      {error : Error} :
      c.next ((Expr.rep r child).tag v.tag) = .ok (token, ahead) → r.exit ≠ some token.value →
      Reads v child c (.rejected error c') →
      ReadsItems v r child c (.rejected error c')

end

/-! ## A reading that ends is derived -/

theorem parseArgs_reads {v : Vocabulary ι W V}
    {parse : Expr ι V → Cursor → Reply (Program ι W V)}
    (hp : ∀ e c, c.Within → (parse e c).Advances c)
    (hs : ∀ e c, c.Within → parse e c ≠ .endless → Reads v e c (parse e c))
    (es : List (Expr ι V)) {c : Cursor} (hc : c.Within) (h : parseArgs parse es c ≠ .endless) :
    ReadsArgs v es c (parseArgs parse es c) := by
  induction es generalizing c with
  | nil => exact .nil
  | cons e es ih =>
    have hadv := hp e c hc
    have hread := hs e c hc
    unfold parseArgs at h ⊢
    cases hpe : parse e c with
    | accepted p c' =>
      rw [hpe] at h hadv hread
      have hrest : parseArgs parse es c' ≠ .endless := by
        intro hend
        simp only [Reply.andThen, hend] at h
        exact h rfl
      exact .cons (hread (by simp)) (ih hadv.1.within_right hrest)
    | rejected error c' =>
      rw [hpe] at hread
      exact .failed (hread (by simp))
    | endless =>
      rw [hpe] at h
      exact absurd rfl h

theorem exitWord?_eq_none {tag : String} {exit : Option String} {c ahead : Cursor} {token : Token}
    (hn : c.next tag = .ok (token, ahead)) (h : exitWord? tag exit c = none) :
    exit ≠ some token.value := by
  intro he
  unfold exitWord? at h
  rw [he] at h
  simp [hn] at h

theorem Cursor.exists_next {c : Cursor} (hc : c.Within) (h : ¬ c.finished = true)
    (expected : String) : ∃ token ahead, c.next expected = .ok (token, ahead) := by
  have hpos := Cursor.remaining_pos hc h
  have hlt : c.index < c.tokens.length := by unfold Cursor.remaining at hpos; omega
  exact ⟨_, _, Cursor.next_of_getElem? (List.getElem?_eq_getElem hlt) expected⟩

theorem parseItems_reads {v : Vocabulary ι W V} {r : Repetition V} {child : Expr ι V}
    {parse : Cursor → Reply (Program ι W V)} (hp : ∀ c, c.Within → (parse c).Advances c)
    (hs : ∀ c, c.Within → parse c ≠ .endless → Reads v child c (parse c)) (n : Nat) {c : Cursor}
    (hc : c.Within) (hn : c.remaining ≤ n)
    (h : parseItems parse ((Expr.rep r child).tag v.tag) r.exit n c ≠ .endless) :
    ReadsItems v r child c (parseItems parse ((Expr.rep r child).tag v.tag) r.exit n c) := by
  induction n generalizing c with
  | zero =>
    have hf : c.finished = true := by
      by_contra hf
      have := Cursor.remaining_pos hc hf
      omega
    exact .finished hf
  | succ n ih =>
    unfold parseItems at h ⊢
    split
    · next hf => exact .finished hf
    · next hf =>
      rw [if_neg hf] at h
      split
      · next token ahead he =>
        obtain ⟨hexit, hnext⟩ := exitWord?_eq_some he
        exact .exit hnext hexit
      · next he =>
        rw [he] at h
        dsimp only at h
        obtain ⟨token, ahead, hnext⟩ := Cursor.exists_next hc hf ((Expr.rep r child).tag v.tag)
        have hne := exitWord?_eq_none hnext he
        have hadv := hp c hc
        have hread := hs c hc
        cases hpc : parse c with
        | accepted p c' =>
          rw [hpc] at h hadv hread
          have hpos := Cursor.remaining_pos hc hf
          have hlt : c'.remaining < c.remaining :=
            hadv.1.remaining_lt (hadv.2 (by unfold Cursor.remaining at hpos; omega))
          have hrest : parseItems parse ((Expr.rep r child).tag v.tag) r.exit n c' ≠ .endless := by
            intro hend
            simp only [Reply.andThen, hend] at h
            exact h rfl
          exact .item hnext hne (hread (by simp)) (ih hadv.1.within_right (by omega) hrest)
        | rejected error c' =>
          rw [hpc] at hread
          exact .failed hnext hne (hread (by simp))
        | endless =>
          rw [hpc] at h
          exact absurd rfl h

theorem Reply.ne_endless_of_map {α β : Type _} {f : α → β} {r : Reply α}
    (h : r.map f ≠ .endless) : r ≠ .endless := by
  rintro rfl
  exact h rfl

theorem Reply.map_ne_endless {α β : Type _} {f : α → β} {r : Reply α} (h : r ≠ .endless) :
    r.map f ≠ .endless := by
  cases r with
  | endless => exact absurd rfl h
  | accepted _ _ | rejected _ _ => simp [Reply.map, Reply.andThen]

theorem Expr.parseWith_reads {v : Vocabulary ι W V}
    {parseType : ι → Cursor → Reply (Program ι W V)}
    (ht : ∀ name c, c.Within → (parseType name c).Advances c)
    (hs : ∀ name c, c.Within → parseType name c ≠ .endless →
      Reads v (.type name) c (parseType name c))
    (e : Expr ι V) {c : Cursor} (hc : c.Within) (h : e.parseWith v parseType c ≠ .endless) :
    Reads v e c (e.parseWith v parseType c) := by
  induction e generalizing c with
  | prim p => exact .prim
  | type name => exact hs name c hc h
  | rep r child ih =>
    have hadv : ∀ c, c.Within → (child.parseWith v parseType c).Advances c :=
      fun c hc => child.parseWith_advances v ht hc
    exact .rep (parseItems_reads hadv (fun c hc hne => ih hc hne) _ hc (Nat.le_refl _)
      (Reply.ne_endless_of_map h))

theorem parseType_reads (v : Vocabulary ι W V) (k : Nat) (name : ι) {c : Cursor} (hc : c.Within)
    (h : parseType v k name c ≠ .endless) : Reads v (.type name) c (parseType v k name c) := by
  induction k generalizing name c with
  | zero => exact absurd rfl h
  | succ k ih =>
    have hadv : ∀ name c, c.Within → (parseType v k name c).Advances c :=
      fun name c hc => parseType_advances v k name hc
    have hexpr : ∀ (e : Expr ι V) (c : Cursor), c.Within →
        e.parseWith v (parseType v k) c ≠ .endless →
        Reads v e c (e.parseWith v (parseType v k) c) :=
      fun e c hc hne => e.parseWith_reads hadv (fun name c hc hne => ih name hc hne) hc hne
    unfold parseType at h ⊢
    split
    · next hnone => exact .undefined hnone
    · next table htable =>
      rw [htable] at h
      dsimp only at h
      split
      · next error hn => exact .exhausted htable hn
      · next token ahead hn =>
        rw [hn] at h
        dsimp only at h ⊢
        rw [Cursor.undo_of_next hn] at h ⊢
        split
        · next rule hl =>
          rw [hl] at h
          dsimp only at h
          rw [Rule.parseWith_of_next hn (Table.lookup_keyword hl)] at h ⊢
          have hargs := Reply.ne_endless_of_map (Reply.ne_endless_of_map h)
          have hread := parseArgs_reads (fun e c hc => e.parseWith_advances v hadv hc) hexpr
            rule.args (Cursor.next_reaches hn).1.within_right hargs
          have hcall := Reads.keyword htable hn hl hread
          cases hr : parseArgs (Expr.parseWith v (parseType v k)) rule.args ahead <;>
            rw [hr] at hcall <;> exact hcall
        · next hl =>
          rw [hl] at h
          dsimp only at h
          split
          · next e he =>
            rw [he] at h
            refine .fallback htable hn hl he (hexpr e c hc ?_)
            intro hend
            dsimp only at h
            rw [hend] at h
            exact h rfl
          · next he => exact .unexpected htable hn hl he

/-! ## What is derived is read -/

/-- The reading of a keyword, one level deeper than that of its arguments. -/
theorem parseType_keyword {v : Vocabulary ι W V} {name : ι} {c ahead : Cursor}
    {table : Table ι W V} {token : Token} {rule : Rule ι W V} (ht : v.table name = some table)
    (hn : c.next (v.tag name) = .ok (token, ahead)) (hl : table.lookup token.value = some rule)
    (k : Nat) :
    parseType v (k + 1) name c =
      (parseArgs (Expr.parseWith v (parseType v k)) rule.args ahead).map
        fun args => .call (v.tag name) token rule args := by
  rw [parseType]
  simp only [ht, hn, hl]
  rw [Cursor.undo_of_next hn, Rule.parseWith_of_next hn (Table.lookup_keyword hl)]
  cases parseArgs (Expr.parseWith v (parseType v k)) rule.args ahead <;> rfl

/-- One round of a repetition in front of a word. -/
theorem parseItems_succ {child : Cursor → Reply (Program ι W V)} {tag : String}
    {exit : Option String} {c ahead : Cursor} {token : Token}
    (hn : c.next tag = .ok (token, ahead)) (n : Nat) :
    parseItems child tag exit (n + 1) c =
      if exit = some token.value then .accepted ([], some token) ahead
      else (child c).andThen fun p c' =>
        (parseItems child tag exit n c').map fun (ps, t) => (p :: ps, t) := by
  obtain ⟨hr, hlt⟩ := Cursor.next_reaches hn
  have hf : ¬ c.finished = true := by
    rw [Cursor.finished_iff]
    have := hr.within
    omega
  rw [parseItems, if_neg hf]
  split
  · next token' ahead' he =>
    obtain ⟨hexit, hn'⟩ := exitWord?_eq_some he
    rw [hn] at hn'
    cases hn'
    rw [if_pos hexit]
  · next he => rw [if_neg (exitWord?_eq_none hn he)]

theorem Cursor.exists_rounds {c ahead : Cursor} {expected : String} {token : Token}
    (hn : c.next expected = .ok (token, ahead)) {n : Nat} (hrem : c.remaining ≤ n) :
    ∃ m, n = m + 1 := by
  obtain ⟨hr, hlt⟩ := Cursor.next_reaches hn
  have := hr.remaining_lt hlt
  exact ⟨n - 1, by omega⟩

mutual

theorem Reads.eventually {v : Vocabulary ι W V} {e : Expr ι V} {c : Cursor}
    {r : Reply (Program ι W V)} (h : Reads v e c r) (hc : c.Within) :
    ∃ k, ∀ l, k ≤ l → e.parseWith v (parseType v l) c = r := by
  match h with
  | .prim => exact ⟨0, fun _ _ => rfl⟩
  | .undefined ht =>
    refine ⟨1, fun l hl => ?_⟩
    obtain ⟨l, rfl⟩ := Nat.exists_eq_add_of_le' hl
    rw [Expr.parseWith, parseType]
    simp only [ht]
  | .exhausted ht hn =>
    refine ⟨1, fun l hl => ?_⟩
    obtain ⟨l, rfl⟩ := Nat.exists_eq_add_of_le' hl
    rw [Expr.parseWith, parseType]
    simp only [ht, hn]
  | .keyword ht hn hl ha =>
    obtain ⟨k, hk⟩ := ReadsArgs.eventually ha (Cursor.next_reaches hn).1.within_right
    refine ⟨k + 1, fun l hkl => ?_⟩
    obtain ⟨l, rfl⟩ := Nat.exists_eq_add_of_le' (Nat.le_trans (Nat.le_add_left 1 k) hkl)
    rw [Expr.parseWith, parseType_keyword ht hn hl, hk l (by omega)]
  | .fallback ht hn hl he hr =>
    obtain ⟨k, hk⟩ := Reads.eventually hr hc
    refine ⟨k + 1, fun l hkl => ?_⟩
    obtain ⟨l, rfl⟩ := Nat.exists_eq_add_of_le' (Nat.le_trans (Nat.le_add_left 1 k) hkl)
    rw [Expr.parseWith, parseType]
    simp only [ht, hn, hl, he]
    rw [Cursor.undo_of_next hn, hk l (by omega)]
  | .unexpected ht hn hl he =>
    refine ⟨1, fun l hkl => ?_⟩
    obtain ⟨l, rfl⟩ := Nat.exists_eq_add_of_le' hkl
    rw [Expr.parseWith, parseType]
    simp only [ht, hn, hl, he]
    rw [Cursor.undo_of_next hn]
  | .rep hi =>
    obtain ⟨k, hk⟩ := ReadsItems.eventually hi hc
    refine ⟨k, fun l hkl => ?_⟩
    rw [Expr.parseWith]
    simp only [hk l hkl _ (Nat.le_refl _)]

theorem ReadsArgs.eventually {v : Vocabulary ι W V} {es : List (Expr ι V)} {c : Cursor}
    {r : Reply (List (Program ι W V))} (h : ReadsArgs v es c r) (hc : c.Within) :
    ∃ k, ∀ l, k ≤ l → parseArgs (Expr.parseWith v (parseType v l)) es c = r := by
  match h with
  | .nil => exact ⟨0, fun _ _ => rfl⟩
  | .cons (e := e) he hes =>
    obtain ⟨k, hk⟩ := Reads.eventually he hc
    have hadv := e.parseWith_advances v (fun name _ hc => parseType_advances v k name hc) hc
    rw [hk k (Nat.le_refl k)] at hadv
    obtain ⟨k', hk'⟩ := ReadsArgs.eventually hes hadv.1.within_right
    refine ⟨max k k', fun l hl => ?_⟩
    rw [parseArgs, hk l (by omega)]
    simp only [Reply.andThen, hk' l (by omega)]
  | .failed he =>
    obtain ⟨k, hk⟩ := Reads.eventually he hc
    refine ⟨k, fun l hl => ?_⟩
    rw [parseArgs, hk l hl]
    rfl

/-- As many rounds as there are words left are enough. -/
theorem ReadsItems.eventually {v : Vocabulary ι W V} {r : Repetition V} {child : Expr ι V}
    {c : Cursor} {reply : Reply (List (Program ι W V) × Option Token)}
    (h : ReadsItems v r child c reply) (hc : c.Within) :
    ∃ k, ∀ l, k ≤ l → ∀ n, c.remaining ≤ n →
      parseItems (child.parseWith v (parseType v l)) ((Expr.rep r child).tag v.tag) r.exit n c =
        reply := by
  match h with
  | .finished hf =>
    refine ⟨0, fun l _ n _ => ?_⟩
    cases n with
    | zero => rfl
    | succ n =>
      rw [parseItems]
      simp only [hf, if_true]
  | .exit hn he =>
    refine ⟨0, fun l _ n hrem => ?_⟩
    obtain ⟨n, rfl⟩ := Cursor.exists_rounds hn hrem
    rw [parseItems_succ hn, if_pos he]
  | .item hn he hp hi =>
    obtain ⟨k, hk⟩ := Reads.eventually hp hc
    have hadv := child.parseWith_advances v (fun name _ hc => parseType_advances v k name hc) hc
    rw [hk k (Nat.le_refl k)] at hadv
    obtain ⟨k', hk'⟩ := ReadsItems.eventually hi hadv.1.within_right
    refine ⟨max k k', fun l hl n hrem => ?_⟩
    obtain ⟨n, rfl⟩ := Cursor.exists_rounds hn hrem
    have hstep := hadv.1.remaining_lt (hadv.index_lt hn)
    rw [parseItems_succ hn, if_neg he, hk l (by omega)]
    simp only [Reply.andThen, hk' l (by omega) n (by omega)]
  | .failed hn he hp =>
    obtain ⟨k, hk⟩ := Reads.eventually hp hc
    refine ⟨k, fun l hl n hrem => ?_⟩
    obtain ⟨n, rfl⟩ := Cursor.exists_rounds hn hrem
    rw [parseItems_succ hn, if_neg he, hk l hl]
    rfl

end

/-! ## Readings and derivations agree -/

mutual

theorem Reads.ne_endless {v : Vocabulary ι W V} {e : Expr ι V} {c : Cursor}
    {r : Reply (Program ι W V)} (h : Reads v e c r) : r ≠ .endless := by
  match h with
  | .prim =>
    unfold Primitive.parse
    split
    · simp
    · split <;> simp
  | .undefined _ | .exhausted _ _ | .unexpected _ _ _ _ => simp
  | .keyword _ _ _ ha => exact Reply.map_ne_endless (ReadsArgs.ne_endless ha)
  | .fallback (r := r) _ _ _ _ hr =>
    have hne := Reads.ne_endless hr
    cases r with
    | endless => exact absurd rfl hne
    | accepted _ _ | rejected _ _ => simp [Reply.mapError]
  | .rep hi => exact Reply.map_ne_endless (ReadsItems.ne_endless hi)

theorem ReadsArgs.ne_endless {v : Vocabulary ι W V} {es : List (Expr ι V)} {c : Cursor}
    {r : Reply (List (Program ι W V))} (h : ReadsArgs v es c r) : r ≠ .endless := by
  match h with
  | .nil | .failed _ => simp
  | .cons _ hes => exact Reply.map_ne_endless (ReadsArgs.ne_endless hes)

theorem ReadsItems.ne_endless {v : Vocabulary ι W V} {r : Repetition V} {child : Expr ι V}
    {c : Cursor} {reply : Reply (List (Program ι W V) × Option Token)}
    (h : ReadsItems v r child c reply) : reply ≠ .endless := by
  match h with
  | .finished _ | .exit _ _ | .failed _ _ _ => simp
  | .item _ _ _ hi => exact Reply.map_ne_endless (ReadsItems.ne_endless hi)

end

/-- Reading gives what the rules derive, and is `endless` exactly if they derive nothing. -/
theorem reads_iff {v : Vocabulary ι W V} {e : Expr ι V} {c : Cursor} (hc : c.Within)
    {r : Reply (Program ι W V)} : Reads v e c r ↔ e.parse v c = r ∧ r ≠ .endless := by
  constructor
  · intro h
    obtain ⟨k, hk⟩ := h.eventually hc
    have hdepth := e.parseWith_depth v k hc
    rw [hk k (Nat.le_refl k)] at hdepth
    exact ⟨hdepth h.ne_endless, h.ne_endless⟩
  · rintro ⟨rfl, hne⟩
    exact e.parseWith_reads (fun name _ hc => parseType_advances v _ name hc)
      (fun name _ hc h => parseType_reads v _ name hc h) hc hne

/-- Where a derived reading leaves the cursor. -/
theorem Reads.advances {v : Vocabulary ι W V} {e : Expr ι V} {c : Cursor}
    {r : Reply (Program ι W V)} (h : Reads v e c r) (hc : c.Within) : r.Advances c := by
  rw [← ((reads_iff hc).mp h).1]
  exact e.parse_advances v hc

theorem Reply.Keeps.of_reaches {α : Type _} {c c' : Cursor} {r : Reply α} (h : r.Keeps c')
    (hr : c.Reaches c') : r.Keeps c := by
  cases r with
  | accepted value c'' | rejected error c'' => exact hr.trans h
  | endless => trivial

theorem ReadsArgs.keeps {v : Vocabulary ι W V} {es : List (Expr ι V)} {c : Cursor}
    {r : Reply (List (Program ι W V))} (h : ReadsArgs v es c r) (hc : c.Within) : r.Keeps c := by
  match h with
  | .nil => exact Cursor.Reaches.refl hc
  | .cons he hes =>
    have hreach := (he.advances hc).1
    exact ((hes.keeps hreach.within_right).of_reaches hreach).map _
  | .failed he => exact he.advances hc

theorem ReadsItems.keeps {v : Vocabulary ι W V} {r : Repetition V} {child : Expr ι V}
    {c : Cursor} {reply : Reply (List (Program ι W V) × Option Token)}
    (h : ReadsItems v r child c reply) (hc : c.Within) : reply.Keeps c := by
  match h with
  | .finished _ => exact Cursor.Reaches.refl hc
  | .exit hn _ => exact (Cursor.next_reaches hn).1
  | .item _ _ hp hi =>
    have hreach := (hp.advances hc).1
    exact ((hi.keeps hreach.within_right).of_reaches hreach).map _
  | .failed _ _ hp => exact hp.advances hc

/-! ## Readings that succeed -/

theorem Reply.map_eq_accepted {α β : Type _} {f : α → β} {r : Reply α} {b : β} {c : Cursor}
    (h : r.map f = .accepted b c) : ∃ a, r = .accepted a c ∧ f a = b := by
  cases r with
  | accepted a c' =>
    cases h
    exact ⟨a, rfl, rfl⟩
  | rejected error c' => cases h
  | endless => cases h

theorem Reply.mapError_eq_accepted {α : Type _} {f : Error → Error} {r : Reply α} {a : α}
    {c : Cursor} (h : r.mapError f = .accepted a c) : r = .accepted a c := by
  cases r with
  | accepted a' c' => exact h
  | rejected error c' => cases h
  | endless => cases h

theorem Primitive.parse_eq_accepted {prim : Primitive V} {c c' : Cursor} {p : Program ι W V}
    (h : prim.parse c = .accepted p c') :
    ∃ token value, c.next prim.tag = .ok (token, c') ∧ prim.convert token.value = .ok value ∧
      p = .literal prim.tag token value := by
  unfold Primitive.parse at h
  split at h
  · cases h
  · next token ahead hn =>
    split at h
    · next value hv =>
      cases h
      exact ⟨token, value, hn, hv, rfl⟩
    · cases h

/-- A program is accepted if the root has read all of its words. -/
theorem Language.parse_eq_accepted {l : Language ι W V} {words : List String}
    {p : Program ι W V} {c : Cursor} :
    l.parse words = .accepted p c ↔
      Reads l.vocabulary l.root (.ofTokens words) (.accepted p c) ∧ c.finished = true := by
  have hc := Cursor.within_ofTokens words
  rw [reads_iff hc]
  unfold Language.parse Language.parseFrom
  constructor
  · intro h
    have hadv := l.root.parse_advances l.vocabulary hc
    cases hroot : l.root.parse l.vocabulary (.ofTokens words) with
    | accepted p' c' =>
      rw [hroot] at h hadv
      simp only [Reply.andThen] at h
      split at h
      · cases h
      · next error hn =>
        cases h
        have hle := (Cursor.next_error hn).1
        have hw := hadv.1.within_right
        unfold Cursor.Within at hw
        exact ⟨⟨rfl, by simp⟩, (Cursor.finished_iff _).mpr (by omega)⟩
    | rejected error c' =>
      rw [hroot] at h
      cases h
    | endless =>
      rw [hroot] at h
      cases h
  · rintro ⟨⟨hroot, -⟩, hf⟩
    rw [hroot]
    have hle : c.tokens.length ≤ c.index := Nat.le_of_eq ((Cursor.finished_iff c).mp hf).symm
    simp only [Reply.andThen, Cursor.next_of_length_le hle]

end Parlance
