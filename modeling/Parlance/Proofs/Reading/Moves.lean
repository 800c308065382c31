import Parlance.Proofs.Reading.Tree

/-
  What a reading does with its cursor. Every reader moves one cursor, by `next` and by `undo`: a
  type looks at the next word and takes the reading back, and so does a repetition that has an
  exit word. `Expr.track` reads as `Expr.parse` does (`Expr.reply_track`) and lists the moves.

  The moves of a reading are disciplined (`Cursor.Leads`): on the way the cursor stays in the
  input and never falls behind the place where the reading started, and nothing is taken back that
  has not been read. One lemma for each reader says so, and `reading_is_disciplined` adds what has
  been read at the end: the tokens in between, in order.
-/

namespace Parlance

universe u v

/-- A call that moves the cursor. -/
inductive Move where
  | next (expected : String)
  | undo
  deriving DecidableEq, Repr

namespace Cursor

/-- Where a move leads; a `next` that fails leaves the cursor where it was. -/
def make (c : Cursor) : Move → Cursor
  | .next expected =>
    match c.next expected with
    | .ok (_, ahead) => ahead
    | .error _ => c
  | .undo => c.undo

/-- Where moves lead, one after the other. -/
def replay (c : Cursor) (moves : List Move) : Cursor := moves.foldl make c

/-- The moves lead from `c` to `c'`. On the way the cursor stays in the input and not in front of
`start`, and it is behind `start` whenever a reading is taken back. -/
def Leads (start : Cursor) : Cursor → List Move → Cursor → Prop
  | c, [], c' => start.Reaches c ∧ c = c'
  | c, move :: moves, c' =>
    start.Reaches c ∧ (move = .undo → start.index < c.index) ∧ start.Leads (c.make move) moves c'

theorem make_next {c ahead : Cursor} {expected : String} {token : Token}
    (hn : c.next expected = .ok (token, ahead)) (asked : String) :
    c.make (.next asked) = ahead := by
  obtain ⟨hw, -, rfl⟩ := next_ok hn
  simp only [make, next_of_getElem? hw]

theorem make_next_error {c : Cursor} {expected : String} {error : Error}
    (hn : c.next expected = .error error) : c.make (.next expected) = c := by
  simp only [make, hn]

theorem make_undo {c ahead : Cursor} {expected : String} {token : Token}
    (hn : c.next expected = .ok (token, ahead)) : ahead.make .undo = c :=
  undo_of_next hn

theorem Leads.nil {c : Cursor} (hc : c.Within) : c.Leads c [] c :=
  ⟨Reaches.refl hc, rfl⟩

theorem Leads.append {start c c' c'' : Cursor} {moves moves' : List Move}
    (h : start.Leads c moves c') (h' : start.Leads c' moves' c'') :
    start.Leads c (moves ++ moves') c'' := by
  induction moves generalizing c with
  | nil =>
    obtain ⟨-, rfl⟩ := h
    exact h'
  | cons move moves ih =>
    obtain ⟨hr, hu, hrest⟩ := h
    exact ⟨hr, hu, ih hrest⟩

/-- What is behind a later place is behind an earlier one. -/
theorem Leads.of_reaches {start start' c c' : Cursor} {moves : List Move}
    (h : start'.Leads c moves c') (hr : start.Reaches start') : start.Leads c moves c' := by
  induction moves generalizing c with
  | nil => exact ⟨hr.trans h.1, h.2⟩
  | cons move moves ih =>
    obtain ⟨hreach, hu, hrest⟩ := h
    exact ⟨hr.trans hreach, fun hm => Nat.lt_of_le_of_lt hr.le (hu hm), ih hrest⟩

theorem leads_next {c ahead : Cursor} {expected : String} {token : Token} (hc : c.Within)
    (hn : c.next expected = .ok (token, ahead)) (asked : String) :
    c.Leads c [.next asked] ahead :=
  ⟨Reaches.refl hc, nofun, (make_next hn asked).symm ▸ ⟨(next_reaches hn).1, rfl⟩⟩

theorem leads_next_error {c : Cursor} {expected : String} {error : Error} (hc : c.Within)
    (hn : c.next expected = .error error) : c.Leads c [.next expected] c :=
  ⟨Reaches.refl hc, nofun, (make_next_error hn).symm ▸ .nil hc⟩

/-- A look at the next word: it is read, and the reading is taken back. -/
theorem leads_look {c ahead : Cursor} {expected : String} {token : Token} (hc : c.Within)
    (hn : c.next expected = .ok (token, ahead)) : c.Leads c [.next expected, .undo] c := by
  obtain ⟨hr, hlt⟩ := next_reaches hn
  have hback : c.Leads ahead [.undo] c := ⟨hr, fun _ => hlt, (make_undo hn).symm ▸ .nil hc⟩
  exact (leads_next hc hn expected).append hback

theorem Leads.reaches {start c c' : Cursor} {moves : List Move} (h : start.Leads c moves c') :
    start.Reaches c := by
  cases moves with
  | nil => exact h.1
  | cons move moves => exact h.1

theorem Leads.replay_eq {start c c' : Cursor} {moves : List Move} (h : start.Leads c moves c') :
    c.replay moves = c' := by
  induction moves generalizing c with
  | nil => exact h.2
  | cons move moves ih => exact ih h.2.2

/-- Disciplined moves are so from each of them on. -/
theorem Leads.drop {start c c' : Cursor} {made rest : List Move}
    (h : start.Leads c (made ++ rest) c') : start.Leads (c.replay made) rest c' := by
  induction made generalizing c with
  | nil => exact h
  | cons move made ih => exact ih h.2.2

theorem Leads.lt_of_undo {start c c' : Cursor} {moves : List Move} (h : start.Leads c moves c')
    (hu : moves.head? = some .undo) : start.index < c.index := by
  obtain ⟨rest, rfl⟩ := List.head?_eq_some_iff.mp hu
  exact h.2.1 rfl

end Cursor

/-! ## Readers that list their moves -/

/-- A reply, and the moves of the cursor up to it. -/
structure Tracked (α : Type u) where
  moves : List Move
  reply : Reply α

namespace Tracked

variable {α : Type u} {β : Type v}

/-- Moves, and then a reading. -/
def after (moves : List Move) (t : Tracked α) : Tracked α := ⟨moves ++ t.moves, t.reply⟩

/-- Reads on after a success. -/
def andThen (t : Tracked α) (f : α → Cursor → Tracked β) : Tracked β :=
  match t.reply with
  | .accepted value c => (f value c).after t.moves
  | .rejected error c => ⟨t.moves, .rejected error c⟩
  | .endless => ⟨t.moves, .endless⟩

/-- Changes the value of a success. -/
def map (f : α → β) (t : Tracked α) : Tracked β := ⟨t.moves, t.reply.map f⟩

/-- Changes the error of a failure. -/
def mapError (f : Error → Error) (t : Tracked α) : Tracked α := ⟨t.moves, t.reply.mapError f⟩

theorem reply_andThen (t : Tracked α) (f : α → Cursor → Tracked β) :
    (t.andThen f).reply = t.reply.andThen fun value c => (f value c).reply := by
  unfold andThen Reply.andThen
  cases t.reply with
  | accepted value c => rfl
  | rejected error c => rfl
  | endless => rfl

end Tracked

variable {ι W V : Type}

/-- `Primitive.parse`, with its one move. -/
def Primitive.track (p : Primitive V) (c : Cursor) : Tracked (Program ι W V) :=
  ⟨[.next p.tag], p.parse c⟩

/-- `parseArgs`, with its moves. -/
def trackArgs (track : Expr ι V → Cursor → Tracked (Program ι W V)) :
    List (Expr ι V) → Cursor → Tracked (List (Program ι W V))
  | [], c => ⟨[], .accepted [] c⟩
  | e :: rest, c =>
    (track e c).andThen fun p c => (trackArgs track rest c).map fun ps => p :: ps

/-- `Rule.parseWith`, with its moves: the keyword is read again. -/
def Rule.trackWith (track : Expr ι V → Cursor → Tracked (Program ι W V)) (rule : Rule ι W V)
    (c : Cursor) : Tracked (Token × List (Program ι W V)) :=
  match c.next rule.keyword with
  | .error error => ⟨[.next rule.keyword], .rejected error c⟩
  | .ok (token, c) =>
    if token.value = rule.keyword then
      ((trackArgs track rule.args c).map fun args => (token, args)).after [.next rule.keyword]
    else
      ⟨[.next rule.keyword], .rejected (.mismatch rule.keyword token.value token.position) c⟩

/-- The moves of a look for the exit word, if there is one: a word that is not it is taken back. -/
def exitMoves (tag : String) (exit : Option String) (c : Cursor) : List Move :=
  match exit with
  | none => []
  | some word =>
    match c.next tag with
    | .ok (token, _) => if token.value = word then [.next tag] else [.next tag, .undo]
    | .error _ => [.next tag]

/-- `parseItems`, with its moves. -/
def trackItems (child : Cursor → Tracked (Program ι W V)) (tag : String) (exit : Option String) :
    Nat → Cursor → Tracked (List (Program ι W V) × Option Token)
  | 0, c => ⟨[], .accepted ([], none) c⟩
  | n + 1, c =>
    if c.finished then ⟨[], .accepted ([], none) c⟩
    else
      match exitWord? tag exit c with
      | some (token, ahead) => ⟨exitMoves tag exit c, .accepted ([], some token) ahead⟩
      | none =>
        ((child c).andThen fun p c =>
          (trackItems child tag exit n c).map fun (ps, token) => (p :: ps, token)).after
            (exitMoves tag exit c)

/-- `Expr.parseWith`, with its moves. -/
def Expr.trackWith (v : Vocabulary ι W V) (trackType : ι → Cursor → Tracked (Program ι W V)) :
    Expr ι V → Cursor → Tracked (Program ι W V)
  | .prim p, c => p.track c
  | .type name, c => trackType name c
  | .rep r child, c =>
    let tag := (Expr.rep r child).tag v.tag
    (trackItems (child.trackWith v trackType) tag r.exit c.remaining c).map
      fun (items, token) => .list tag r items token

/-- `parseType`, with its moves: the next word is looked at before it is read. -/
def trackType (v : Vocabulary ι W V) : Nat → ι → Cursor → Tracked (Program ι W V)
  | 0, _, _ => ⟨[], .endless⟩
  | fuel + 1, name, c =>
    match v.table name with
    | none => ⟨[], .rejected (.undefinedType (v.tag name)) c⟩
    | some table =>
      match c.next (v.tag name) with
      | .error error => ⟨[.next (v.tag name)], .rejected error c⟩
      | .ok (token, ahead) =>
        let c := ahead.undo
        Tracked.after [.next (v.tag name), .undo] <|
          match table.lookup token.value with
          | some rule =>
            (rule.trackWith (Expr.trackWith v (trackType v fuel)) c).map fun (keyword, args) =>
              .call (v.tag name) keyword rule args
          | none =>
            match table.fallback with
            | some e =>
              (e.trackWith v (trackType v fuel) c).mapError (blame (v.tag name) token)
            | none => ⟨[], .rejected (.unexpected token.value token.position (v.tag name)) c⟩

/-- `Expr.parse`, with its moves. -/
def Expr.track (v : Vocabulary ι W V) (e : Expr ι V) (c : Cursor) : Tracked (Program ι W V) :=
  e.trackWith v (trackType v (v.depth c)) c

/-! ## They read what they track -/

theorem reply_trackArgs {track : Expr ι V → Cursor → Tracked (Program ι W V)}
    {parse : Expr ι V → Cursor → Reply (Program ι W V)} (h : ∀ e c, (track e c).reply = parse e c)
    (es : List (Expr ι V)) (c : Cursor) :
    (trackArgs track es c).reply = parseArgs parse es c := by
  induction es generalizing c with
  | nil => rfl
  | cons e es ih =>
    rw [trackArgs, parseArgs, Tracked.reply_andThen, h]
    simp only [Tracked.map, ih]

theorem Rule.reply_trackWith {track : Expr ι V → Cursor → Tracked (Program ι W V)}
    {parse : Expr ι V → Cursor → Reply (Program ι W V)} (h : ∀ e c, (track e c).reply = parse e c)
    (rule : Rule ι W V) (c : Cursor) :
    (rule.trackWith track c).reply = rule.parseWith parse c := by
  unfold Rule.trackWith Rule.parseWith
  cases c.next rule.keyword with
  | error error => rfl
  | ok read =>
    dsimp only
    split
    · simp only [Tracked.after, Tracked.map, reply_trackArgs h]
    · rfl

theorem reply_trackItems {track : Cursor → Tracked (Program ι W V)}
    {parse : Cursor → Reply (Program ι W V)} (h : ∀ c, (track c).reply = parse c) (tag : String)
    (exit : Option String) (n : Nat) (c : Cursor) :
    (trackItems track tag exit n c).reply = parseItems parse tag exit n c := by
  induction n generalizing c with
  | zero => rfl
  | succ n ih =>
    unfold trackItems parseItems
    split
    · rfl
    · cases exitWord? tag exit c with
      | some read => rfl
      | none => simp only [Tracked.after, Tracked.reply_andThen, h, Tracked.map, ih]

theorem Expr.reply_trackWith {v : Vocabulary ι W V}
    {track : ι → Cursor → Tracked (Program ι W V)} {parse : ι → Cursor → Reply (Program ι W V)}
    (h : ∀ name c, (track name c).reply = parse name c) (e : Expr ι V) (c : Cursor) :
    (e.trackWith v track c).reply = e.parseWith v parse c := by
  induction e generalizing c with
  | prim p => rfl
  | type name => exact h name c
  | rep r child ih =>
    unfold Expr.trackWith Expr.parseWith
    simp only [Tracked.map, reply_trackItems ih]

theorem reply_trackType (v : Vocabulary ι W V) (fuel : Nat) (name : ι) (c : Cursor) :
    (trackType v fuel name c).reply = parseType v fuel name c := by
  induction fuel generalizing name c with
  | zero => rfl
  | succ fuel ih =>
    have hexpr : ∀ (e : Expr ι V) (c : Cursor),
        (e.trackWith v (trackType v fuel) c).reply = e.parseWith v (parseType v fuel) c :=
      fun e c => e.reply_trackWith ih c
    unfold trackType parseType
    cases v.table name with
    | none => rfl
    | some table =>
      cases c.next (v.tag name) with
      | error error => rfl
      | ok read =>
        dsimp only [Tracked.after]
        cases table.lookup read.1.value with
        | some rule => simp only [Tracked.map, Rule.reply_trackWith hexpr]
        | none =>
          cases table.fallback with
          | some e => simp only [Tracked.mapError, hexpr]
          | none => rfl

theorem Expr.reply_track (v : Vocabulary ι W V) (e : Expr ι V) (c : Cursor) :
    (e.track v c).reply = e.parse v c :=
  e.reply_trackWith (reply_trackType v _) c

/-! ## Their moves are disciplined -/

namespace Tracked

variable {α : Type u} {β : Type v}

/-- The moves are disciplined, and they lead to where the reply says. -/
def Steady (c : Cursor) (t : Tracked α) : Prop :=
  match t.reply with
  | .accepted _ c' | .rejected _ c' => c.Leads c t.moves c'
  | .endless => ∃ c', c.Leads c t.moves c'

theorem Steady.exists_leads {c : Cursor} {t : Tracked α} (h : t.Steady c) :
    ∃ c', c.Leads c t.moves c' := by
  unfold Steady at h
  split at h
  · exact ⟨_, h⟩
  · exact ⟨_, h⟩
  · exact h

theorem Steady.map {c : Cursor} {t : Tracked α} (h : t.Steady c) (f : α → β) :
    (t.map f).Steady c := by
  obtain ⟨moves, reply⟩ := t
  cases reply <;> exact h

theorem Steady.mapError {c : Cursor} {t : Tracked α} (h : t.Steady c) (f : Error → Error) :
    (t.mapError f).Steady c := by
  obtain ⟨moves, reply⟩ := t
  cases reply <;> exact h

theorem Steady.after {c c' : Cursor} {moves : List Move} {t : Tracked α} (h : t.Steady c')
    (hm : c.Leads c moves c') (hr : c.Reaches c') : (t.after moves).Steady c := by
  obtain ⟨moves', reply⟩ := t
  cases reply with
  | accepted value c'' => exact hm.append (Cursor.Leads.of_reaches h hr)
  | rejected error c'' => exact hm.append (Cursor.Leads.of_reaches h hr)
  | endless =>
    obtain ⟨c'', h⟩ := h
    exact ⟨c'', hm.append (h.of_reaches hr)⟩

theorem Steady.andThen {c : Cursor} {t : Tracked α} {f : α → Cursor → Tracked β}
    (h : t.Steady c) (hk : t.reply.Keeps c)
    (hf : ∀ value c', t.reply = .accepted value c' → (f value c').Steady c') :
    (t.andThen f).Steady c := by
  obtain ⟨moves, reply⟩ := t
  cases reply with
  | accepted value c' => exact (hf value c' rfl).after h hk
  | rejected error c' => exact h
  | endless => exact h

end Tracked

theorem Primitive.steady (p : Primitive V) {c : Cursor} (hc : c.Within) :
    (p.track c : Tracked (Program ι W V)).Steady c := by
  unfold Primitive.track Tracked.Steady Primitive.parse
  cases hn : c.next p.tag with
  | error error => exact Cursor.leads_next_error hc hn
  | ok read =>
    have hlead := Cursor.leads_next hc hn p.tag
    dsimp only
    cases p.convert read.1.value with
    | ok value => exact hlead
    | error reason => exact hlead

theorem trackArgs_steady {track : Expr ι V → Cursor → Tracked (Program ι W V)}
    (hs : ∀ e c, c.Within → (track e c).Steady c)
    (ha : ∀ e c, c.Within → (track e c).reply.Advances c) (es : List (Expr ι V)) {c : Cursor}
    (hc : c.Within) : (trackArgs track es c).Steady c := by
  induction es generalizing c with
  | nil => exact Cursor.Leads.nil hc
  | cons e es ih =>
    have hadv := ha e c hc
    refine (hs e c hc).andThen hadv.keeps fun p c' hp => ?_
    rw [hp] at hadv
    exact (ih hadv.1.within_right).map _

theorem exitMoves_leads {tag : String} {exit : Option String} {c : Cursor} (hc : c.Within)
    (h : exitWord? tag exit c = none) : c.Leads c (exitMoves tag exit c) c := by
  unfold exitMoves
  cases exit with
  | none => exact .nil hc
  | some word =>
    dsimp only
    cases hn : c.next tag with
    | error error => exact Cursor.leads_next_error hc hn
    | ok read =>
      have hne : ¬ read.1.value = word := fun hv => exitWord?_eq_none hn h (by rw [hv])
      dsimp only
      rw [if_neg hne]
      exact Cursor.leads_look hc hn

theorem exitMoves_of_exit {tag : String} {exit : Option String} {c ahead : Cursor} {token : Token}
    (h : exitWord? tag exit c = some (token, ahead)) : exitMoves tag exit c = [.next tag] := by
  obtain ⟨rfl, hn⟩ := exitWord?_eq_some h
  unfold exitMoves
  simp only [hn, if_true]

theorem trackItems_steady {track : Cursor → Tracked (Program ι W V)}
    (hs : ∀ c, c.Within → (track c).Steady c)
    (ha : ∀ c, c.Within → (track c).reply.Advances c) (tag : String) (exit : Option String)
    (n : Nat) {c : Cursor} (hc : c.Within) : (trackItems track tag exit n c).Steady c := by
  induction n generalizing c with
  | zero => exact Cursor.Leads.nil hc
  | succ n ih =>
    unfold trackItems
    split
    · exact Cursor.Leads.nil hc
    · split
      · next token ahead he =>
        rw [exitMoves_of_exit he]
        exact Cursor.leads_next hc (exitWord?_eq_some he).2 tag
      · next he =>
        have hadv := ha c hc
        have hitems := (hs c hc).andThen hadv.keeps fun p c' hp =>
          (ih (by rw [hp] at hadv; exact hadv.1.within_right)).map
            fun (ps, token) => (p :: ps, token)
        exact hitems.after (exitMoves_leads hc he) (Cursor.Reaches.refl hc)

theorem Expr.trackWith_steady {v : Vocabulary ι W V}
    {track : ι → Cursor → Tracked (Program ι W V)}
    (hs : ∀ name c, c.Within → (track name c).Steady c)
    (ha : ∀ name c, c.Within → (track name c).reply.Advances c) (e : Expr ι V) {c : Cursor}
    (hc : c.Within) : (e.trackWith v track c).Steady c := by
  induction e generalizing c with
  | prim p => exact p.steady hc
  | type name => exact hs name c hc
  | rep r child ih =>
    have hchild : ∀ c, c.Within → (child.trackWith v track c).reply.Advances c := by
      intro c hc
      have hreply : (child.trackWith v track c).reply =
          child.parseWith v (fun name c => (track name c).reply) c :=
        child.reply_trackWith (fun _ _ => rfl) c
      rw [hreply]
      exact child.parseWith_advances v ha hc
    exact (trackItems_steady (fun _ hc => ih hc) hchild _ r.exit _ hc).map _

theorem Rule.trackWith_of_next {track : Expr ι V → Cursor → Tracked (Program ι W V)}
    {rule : Rule ι W V} {c ahead : Cursor} {expected : String} {token : Token}
    (hn : c.next expected = .ok (token, ahead)) (hk : token.value = rule.keyword) :
    rule.trackWith track c =
      ((trackArgs track rule.args ahead).map fun args => (token, args)).after
        [.next rule.keyword] := by
  obtain ⟨hw, hpos, rfl⟩ := Cursor.next_ok hn
  unfold Rule.trackWith
  rw [Cursor.next_of_getElem? hw]
  obtain ⟨value, position⟩ := token
  subst hpos
  simp only [if_pos hk]

theorem trackType_steady (v : Vocabulary ι W V) (fuel : Nat) (name : ι) {c : Cursor}
    (hc : c.Within) : (trackType v fuel name c).Steady c := by
  induction fuel generalizing name c with
  | zero => exact ⟨c, .nil hc⟩
  | succ fuel ih =>
    have hadv : ∀ name c, c.Within → (trackType v fuel name c).reply.Advances c := by
      intro name c hc
      rw [reply_trackType]
      exact parseType_advances v fuel name hc
    have hsteady : ∀ (e : Expr ι V) (c : Cursor), c.Within →
        (e.trackWith v (trackType v fuel) c).Steady c :=
      fun e c hc => e.trackWith_steady (fun name c hc => ih name hc) hadv hc
    have hadvance : ∀ (e : Expr ι V) (c : Cursor), c.Within →
        (e.trackWith v (trackType v fuel) c).reply.Advances c := by
      intro e c hc
      rw [e.reply_trackWith (reply_trackType v fuel)]
      exact e.parseWith_advances v (fun name c hc => parseType_advances v fuel name hc) hc
    unfold trackType
    split
    · exact Cursor.Leads.nil hc
    · next table _ =>
      split
      · next error hn => exact Cursor.leads_next_error hc hn
      · next token ahead hn =>
        have hself := Cursor.Reaches.refl hc
        rw [Cursor.undo_of_next hn]
        refine Tracked.Steady.after ?_ (Cursor.leads_look hc hn) hself
        dsimp only
        split
        · next rule hl =>
          rw [Rule.trackWith_of_next hn (Table.lookup_keyword hl)]
          have hahead := (Cursor.next_reaches hn).1
          have hargs := trackArgs_steady hsteady hadvance rule.args hahead.within_right
          exact ((hargs.map _).after (Cursor.leads_next hc hn rule.keyword) hahead).map _
        · split
          · next e _ => exact (hsteady e c hc).mapError _
          · exact Cursor.Leads.nil hc

theorem Expr.track_steady (v : Vocabulary ι W V) (e : Expr ι V) {c : Cursor} (hc : c.Within) :
    (e.track v c).Steady c := by
  refine e.trackWith_steady (fun name _ hc => trackType_steady v _ name hc) ?_ hc
  intro name c' hc'
  rw [reply_trackType]
  exact parseType_advances v _ name hc'

/-! ## The tokens in between -/

/-- The words of a list as tokens. -/
def tokensOf (words : List String) : List Token := words.mapIdx fun i word => ⟨word, i⟩

theorem getElem?_tokensOf (words : List String) (i : Nat) :
    (tokensOf words)[i]? = words[i]?.map fun word => ⟨word, i⟩ := by
  simp [tokensOf]

theorem Spells.eq_extract {words : List String} {i : Nat} {tokens : List Token}
    (h : Spells words i tokens) : tokens = (tokensOf words).extract i (i + tokens.length) := by
  induction tokens generalizing i with
  | nil => simp
  | cons token tokens ih =>
    obtain ⟨hw, hpos, hrest⟩ := h
    have hget : (tokensOf words)[i]? = some token := by
      rw [getElem?_tokensOf, hw, ← hpos]
      rfl
    obtain ⟨hlt, hget⟩ := List.getElem?_eq_some_iff.mp hget
    have htail := ih hrest
    simp only [List.extract_eq_take_drop, Nat.add_sub_cancel_left] at htail ⊢
    rw [List.drop_eq_getElem_cons hlt, hget, List.length_cons, List.take_succ_cons, ← htail]

theorem Cursor.Covers.eq_extract {c c' : Cursor} {tokens : List Token} (h : c.Covers c' tokens) :
    tokens = (tokensOf c.tokens).extract c.index c'.index := by
  have he := h.spells.eq_extract
  rwa [← h.index_eq] at he

/-- Every reading is disciplined, with undefined types or without. It moves its cursor by the
moves that `Expr.track` lists, and these lead to where the reading stops. Up to each of them the
words have stayed the same and the index has stayed between the start and the end of the input,
and where a reading is taken back, the index is above 0. What was accepted are the tokens between
the start and the stop, in order; and if there was a word to read, one was read. -/
theorem reading_is_disciplined (v : Vocabulary ι W V) (e : Expr ι V) (tokens : List String)
    (i : Nat) (hi : i ≤ tokens.length) :
    (e.track v ⟨tokens, i⟩).reply = e.parse v ⟨tokens, i⟩ ∧
      (∀ made rest, (e.track v ⟨tokens, i⟩).moves = made ++ rest →
        Cursor.Reaches ⟨tokens, i⟩ (Cursor.replay ⟨tokens, i⟩ made) ∧
          (rest.head? = some .undo → 0 < (Cursor.replay ⟨tokens, i⟩ made).index)) ∧
      (∀ error c, e.parse v ⟨tokens, i⟩ = .rejected error c →
        Cursor.replay ⟨tokens, i⟩ (e.track v ⟨tokens, i⟩).moves = c ∧
          Cursor.Reaches ⟨tokens, i⟩ c) ∧
      ∀ p c, e.parse v ⟨tokens, i⟩ = .accepted p c →
        Cursor.replay ⟨tokens, i⟩ (e.track v ⟨tokens, i⟩).moves = c ∧
          Cursor.Reaches ⟨tokens, i⟩ c ∧
          p.trace.tokens = (tokensOf tokens).extract i c.index ∧
          (i < tokens.length → i < c.index) := by
  have hc : Cursor.Within ⟨tokens, i⟩ := hi
  have hreply := e.reply_track v ⟨tokens, i⟩
  have hsteady := e.track_steady v hc
  have hadv := e.parse_advances v hc
  refine ⟨hreply, ?_, ?_, ?_⟩
  · intro made rest hmoves
    obtain ⟨c, hlead⟩ := hsteady.exists_leads
    rw [hmoves] at hlead
    have hrest := hlead.drop
    exact ⟨hrest.reaches, fun hu => Nat.lt_of_le_of_lt (Nat.zero_le i) (hrest.lt_of_undo hu)⟩
  · intro error c h
    unfold Tracked.Steady at hsteady
    rw [hreply, h] at hsteady
    rw [h] at hadv
    exact ⟨Cursor.Leads.replay_eq hsteady, hadv⟩
  · intro p c h
    unfold Tracked.Steady at hsteady
    rw [hreply, h] at hsteady
    have hread : Reads v e ⟨tokens, i⟩ (.accepted p c) := (reads_iff hc).mpr ⟨h, by simp⟩
    rw [h] at hadv
    exact ⟨Cursor.Leads.replay_eq hsteady, hadv.1,
      (hread.wellFormed hc rfl).2.eq_extract, hadv.2⟩

/-- A list in the middle of the words: the first item is looked at, taken back and read, and the
exit word is read. -/
theorem reading_is_disciplined_words :
    1 ≤ ["join", "a", "-", "b"].length ∧
      (Expr.track Demo.Toolbox.vocabulary Demo.Toolbox.words ⟨["join", "a", "-", "b"], 1⟩).moves =
        [.next "r.string", .undo, .next "string", .next "r.string"] ∧
      0 < (Cursor.replay ⟨["join", "a", "-", "b"], 1⟩ [.next "r.string"]).index ∧
      ∃ p, Expr.parse Demo.Toolbox.vocabulary Demo.Toolbox.words ⟨["join", "a", "-", "b"], 1⟩ =
          .accepted p ⟨["join", "a", "-", "b"], 3⟩ ∧
        p.trace.tokens = [⟨"a", 1⟩, ⟨"-", 2⟩] := by
  have hmoves : (Expr.track Demo.Toolbox.vocabulary Demo.Toolbox.words
      ⟨["join", "a", "-", "b"], 1⟩).moves =
        [.next "r.string", .undo, .next "string", .next "r.string"] := rfl
  obtain ⟨-, hundo, -, haccept⟩ := reading_is_disciplined Demo.Toolbox.vocabulary
    Demo.Toolbox.words ["join", "a", "-", "b"] 1 (by decide)
  refine ⟨by decide, hmoves, (hundo [.next "r.string"] _ hmoves).2 rfl, _, rfl, ?_⟩
  exact (haccept _ _ rfl).2.2.1

end Parlance
