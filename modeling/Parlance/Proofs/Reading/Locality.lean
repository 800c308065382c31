import Parlance.Demo.Toolbox
import Parlance.Proofs.Reading.Failures
import Parlance.Proofs.Reading.Tree

/-
  What a reading depends on. A reading that has succeeded depends on the words it has read, and on
  nothing behind them, unless one of its lists was ended by the end of the input (`Reads.on`). A
  reading that has failed depends on the words up to the one it points at (`Reads.on_rejected`).
  And if the input of a success is cut short, the reading runs out of words: it succeeds at the
  cut, or asks for more there (`Reads.cut`).

  The second run is on another list of words, at the place of the first (`Cursor.on`). Looking one
  word ahead does no harm: the word is read by whatever is accepted, and it is the one that is
  pointed at by whatever is refused. A list that was ended by the end of the input stands at that
  end, so that nothing behind it can have been read or pointed at (`Reads.closed`).
-/

namespace Parlance

universe u v

variable {ι W V : Type}

/-! ## Lists that were closed -/

namespace Program

mutual

/-- Every list was ended by its exit word, and none by the end of the input. -/
def Closed : Program ι W V → Prop
  | literal .. => True
  | call _ _ _ args => ClosedAll args
  | list _ _ items exit => exit.isSome ∧ ClosedAll items
termination_by structural p => p

/-- Every list in each of the programs was ended by its exit word. -/
def ClosedAll : List (Program ι W V) → Prop
  | [] => True
  | p :: rest => p.Closed ∧ ClosedAll rest
termination_by structural ps => ps

end

end Program

mutual

/-- What was read in front of a word is closed. -/
theorem Reads.closed {v : Vocabulary ι W V} {e : Expr ι V} {c : Cursor}
    {r : Reply (Program ι W V)} (h : Reads v e c r) (hc : c.Within) {p : Program ι W V}
    {c' : Cursor} (hr : r = .accepted p c') (hlt : c'.index < c.tokens.length) : p.Closed := by
  match h with
  | .prim =>
    obtain ⟨token, value, -, -, rfl⟩ := Primitive.parse_eq_accepted hr
    trivial
  | .undefined _ | .exhausted _ _ | .unexpected _ _ _ _ => cases hr
  | .keyword _ hn _ ha =>
    obtain ⟨args, hargs, rfl⟩ := Reply.map_eq_accepted hr
    have hahead := (Cursor.next_reaches hn).1
    exact ha.closed hahead.within_right hargs (by rwa [hahead.tokens_eq])
  | .fallback _ _ _ _ hrest => exact hrest.closed hc (Reply.mapError_eq_accepted hr) hlt
  | .rep hitems =>
    obtain ⟨⟨items, exit⟩, hreply, rfl⟩ := Reply.map_eq_accepted hr
    exact hitems.closed hc hreply hlt

theorem ReadsArgs.closed {v : Vocabulary ι W V} {es : List (Expr ι V)} {c : Cursor}
    {r : Reply (List (Program ι W V))} (h : ReadsArgs v es c r) (hc : c.Within)
    {ps : List (Program ι W V)} {c' : Cursor} (hr : r = .accepted ps c')
    (hlt : c'.index < c.tokens.length) : Program.ClosedAll ps := by
  match h with
  | .nil =>
    cases hr
    trivial
  | .cons he hes =>
    obtain ⟨ps, hps, rfl⟩ := Reply.map_eq_accepted hr
    have hreach := (he.advances hc).1
    have hrest := hes.keeps hreach.within_right
    rw [hps] at hrest
    exact ⟨he.closed hc rfl (Nat.lt_of_le_of_lt hrest.le hlt),
      hes.closed hreach.within_right hps (by rwa [hreach.tokens_eq])⟩
  | .failed _ => cases hr

theorem ReadsItems.closed {v : Vocabulary ι W V} {r : Repetition V} {child : Expr ι V}
    {c : Cursor} {reply : Reply (List (Program ι W V) × Option Token)}
    (h : ReadsItems v r child c reply) (hc : c.Within) {ps : List (Program ι W V)}
    {exit : Option Token} {c' : Cursor} (hr : reply = .accepted (ps, exit) c')
    (hlt : c'.index < c.tokens.length) : exit.isSome ∧ Program.ClosedAll ps := by
  match h with
  | .finished hf =>
    cases hr
    rw [Cursor.finished_iff] at hf
    omega
  | .exit _ _ =>
    cases hr
    exact ⟨rfl, trivial⟩
  | .item _ _ hp hi =>
    obtain ⟨⟨ps, exit⟩, hps, e⟩ := Reply.map_eq_accepted hr
    cases e
    have hreach := (hp.advances hc).1
    have hrest := hi.keeps hreach.within_right
    rw [hps] at hrest
    obtain ⟨hexit, hclosed⟩ :=
      hi.closed hreach.within_right hps (by rwa [hreach.tokens_eq])
    exact ⟨hexit, hp.closed hc rfl (Nat.lt_of_le_of_lt hrest.le hlt), hclosed⟩
  | .failed _ _ _ => cases hr

end

/-! ## The same place in another list of words -/

namespace Cursor

/-- The same index in another list of words. -/
def on (c : Cursor) (words : List String) : Cursor := ⟨words, c.index⟩

/-- The list starts with the words that have been read at the cursor. -/
def Starts (c : Cursor) (words : List String) : Prop := c.tokens.take c.index <+: words

theorem starts_of_take {c : Cursor} {words : List String} {n : Nat}
    (h : c.tokens.take n <+: words) (hle : c.index ≤ n) : c.Starts words :=
  (List.take_prefix_take_left hle).trans h

theorem Reaches.starts {c c' : Cursor} {words : List String} (hr : c.Reaches c')
    (h : c'.Starts words) : c.Starts words := by
  unfold Starts at h
  rw [hr.tokens_eq] at h
  exact starts_of_take h hr.le

/-- A list that starts with a word and all that was read before it has that word next. -/
theorem next_on {c ahead : Cursor} {expected : String} {token : Token} {words : List String}
    (hn : c.next expected = .ok (token, ahead)) (h : ahead.Starts words) :
    (c.on words).next expected = .ok (token, ahead.on words) := by
  obtain ⟨hw, hpos, rfl⟩ := next_ok hn
  obtain ⟨rest, rfl⟩ := h
  have hlt : c.index < c.tokens.length := (List.getElem?_eq_some_iff.mp hw).1
  have hword : (c.tokens.take (c.index + 1) ++ rest)[c.index]? = some token.value := by
    rw [List.getElem?_append_left (by rw [List.length_take]; omega),
      List.getElem?_take_of_lt (Nat.lt_succ_self _), hw]
  have hnext := next_of_getElem? (c := c.on (c.tokens.take (c.index + 1) ++ rest)) hword expected
  obtain ⟨value, position⟩ := token
  cases hpos
  exact hnext

end Cursor

/-- Whatever is accepted in front of a word has been read behind that word. -/
theorem Reply.Advances.ahead_reaches {α : Type _} {c c' ahead : Cursor} {value : α}
    {expected : String} {token : Token} (h : (Reply.accepted value c').Advances c)
    (hn : c.next expected = .ok (token, ahead)) : ahead.Reaches c' := by
  have hlt := h.index_lt hn
  obtain ⟨-, -, rfl⟩ := Cursor.next_ok hn
  exact ⟨h.1.tokens_eq, hlt, h.1.within⟩

mutual

/-- A closed success is the same on every list that starts with the words it has read. -/
theorem Reads.on {v : Vocabulary ι W V} {e : Expr ι V} {c : Cursor}
    {r : Reply (Program ι W V)} (h : Reads v e c r) (hc : c.Within) {p : Program ι W V}
    {c' : Cursor} (hr : r = .accepted p c') (hp : p.Closed) {words : List String}
    (hw : c'.Starts words) : Reads v e (c.on words) (.accepted p (c'.on words)) := by
  match h with
  | .prim =>
    obtain ⟨token, value, hn, hv, rfl⟩ := Primitive.parse_eq_accepted hr
    exact .literal (Cursor.next_on hn hw) hv
  | .undefined _ | .exhausted _ _ | .unexpected _ _ _ _ => cases hr
  | .keyword ht hn hl ha =>
    obtain ⟨args, hargs, rfl⟩ := Reply.map_eq_accepted hr
    have hahead := (Cursor.next_reaches hn).1
    have hkeep := ha.keeps hahead.within_right
    rw [hargs] at hkeep
    exact .keyword ht (Cursor.next_on hn (hkeep.starts hw)) hl
      (ha.on hahead.within_right hargs hp hw)
  | .fallback ht hn hl he hrest =>
    have hr' := Reply.mapError_eq_accepted hr
    have hadv := hrest.advances hc
    rw [hr'] at hadv
    have hnext := Cursor.next_on hn ((hadv.ahead_reaches hn).starts hw)
    exact .fallback ht hnext hl he (hrest.on hc hr' hp hw)
  | .rep hitems =>
    obtain ⟨⟨items, exit⟩, hreply, rfl⟩ := Reply.map_eq_accepted hr
    exact .rep (hitems.on hc hreply hp.1 hp.2 hw)

theorem ReadsArgs.on {v : Vocabulary ι W V} {es : List (Expr ι V)} {c : Cursor}
    {r : Reply (List (Program ι W V))} (h : ReadsArgs v es c r) (hc : c.Within)
    {ps : List (Program ι W V)} {c' : Cursor} (hr : r = .accepted ps c')
    (hps : Program.ClosedAll ps) {words : List String} (hw : c'.Starts words) :
    ReadsArgs v es (c.on words) (.accepted ps (c'.on words)) := by
  match h with
  | .nil =>
    cases hr
    exact .nil
  | .cons he hes =>
    obtain ⟨ps, hrest, rfl⟩ := Reply.map_eq_accepted hr
    have hreach := (he.advances hc).1
    have hkeep := hes.keeps hreach.within_right
    rw [hrest] at hkeep
    exact .cons (he.on hc rfl hps.1 (hkeep.starts hw))
      (hes.on hreach.within_right hrest hps.2 hw)
  | .failed _ => cases hr

theorem ReadsItems.on {v : Vocabulary ι W V} {r : Repetition V} {child : Expr ι V}
    {c : Cursor} {reply : Reply (List (Program ι W V) × Option Token)}
    (h : ReadsItems v r child c reply) (hc : c.Within) {ps : List (Program ι W V)}
    {exit : Option Token} {c' : Cursor} (hr : reply = .accepted (ps, exit) c')
    (hexit : exit.isSome) (hps : Program.ClosedAll ps) {words : List String}
    (hw : c'.Starts words) :
    ReadsItems v r child (c.on words) (.accepted (ps, exit) (c'.on words)) := by
  match h with
  | .finished _ =>
    cases hr
    cases hexit
  | .exit hn he =>
    cases hr
    exact .exit (Cursor.next_on hn hw) he
  | .item hn he hp hi =>
    obtain ⟨⟨ps, exit⟩, hrest, e⟩ := Reply.map_eq_accepted hr
    cases e
    have hadv := hp.advances hc
    have hkeep := hi.keeps hadv.1.within_right
    rw [hrest] at hkeep
    have hmiddle := hkeep.starts hw
    exact .item (Cursor.next_on hn ((hadv.ahead_reaches hn).starts hmiddle)) he
      (hp.on hc rfl hps.1 hmiddle) (hi.on hadv.1.within_right hrest hexit hps.2 hw)
  | .failed _ _ _ => cases hr

end

/-! ## Failures -/

theorem blame_position? (tag : String) (token : Token) (error : Error) :
    (blame tag token error).position? = error.position? := by
  cases error with
  | unreadable word position expected reason =>
    unfold blame
    dsimp only
    split
    · next hpos =>
      rw [hpos]
      rfl
    · rfl
  | exhausted _ _ | unexpected _ _ _ | trailing _ _ | mismatch _ _ _ | undefinedType _
  | alreadyDefined _ | handler _ | io _ => rfl

theorem ReadsArgs.le_position {v : Vocabulary ι W V} {es : List (Expr ι V)} {c c' : Cursor}
    {error : Error} (h : ReadsArgs v es c (.rejected error c')) (hc : c.Within) {position : Nat}
    (hp : error.position? = some position) : c.index ≤ position := by
  obtain ⟨e, -, c₀, hr, hf⟩ := h.fault hc rfl
  exact Nat.le_trans hr.le (hf.le_position hr.within_right hp)

theorem ReadsItems.le_position {v : Vocabulary ι W V} {r : Repetition V} {child : Expr ι V}
    {c c' : Cursor} {error : Error} (h : ReadsItems v r child c (.rejected error c'))
    (hc : c.Within) {position : Nat} (hp : error.position? = some position) :
    c.index ≤ position := by
  obtain ⟨c₀, hr, hf⟩ := h.fault hc rfl
  exact Nat.le_trans hr.le (hf.le_position hr.within_right hp)

/-- A failure to read past the end does not point at a word. -/
theorem Cursor.not_lt_of_next_error {c : Cursor} {expected : String} {error : Error}
    {position : Nat} (hn : c.next expected = .error error)
    (hp : error.position? = some position) : ¬ position < c.tokens.length := by
  obtain ⟨hle, rfl⟩ := Cursor.next_error hn
  cases hp
  exact Nat.not_lt.mpr hle

/-- The word that was looked at is among those up to the position. -/
theorem Cursor.next_on_of_take {c ahead : Cursor} {expected : String} {token : Token}
    {words : List String} {position : Nat} (hn : c.next expected = .ok (token, ahead))
    (h : c.tokens.take (position + 1) <+: words) (hle : c.index ≤ position) :
    (c.on words).next expected = .ok (token, ahead.on words) := by
  refine Cursor.next_on hn ?_
  obtain ⟨-, -, rfl⟩ := Cursor.next_ok hn
  exact Cursor.starts_of_take h (Nat.succ_le_succ hle)

theorem Primitive.on_rejected {v : Vocabulary ι W V} {p : Primitive V} {c c' : Cursor}
    {error : Error} (h : (p.parse c : Reply (Program ι W V)) = .rejected error c')
    {position : Nat} (hp : error.position? = some position) (hlt : position < c.tokens.length)
    {words : List String} (hw : c.tokens.take (position + 1) <+: words) :
    Reads v (.prim p) (c.on words) (.rejected error (c'.on words)) := by
  have hread : Reads v (.prim p) (c.on words) (p.parse (c.on words)) := .prim
  unfold Primitive.parse at h
  split at h
  · next hn =>
    cases h
    exact absurd hlt (Cursor.not_lt_of_next_error hn hp)
  · next token ahead hn =>
    split at h
    · cases h
    · next reason hv =>
      cases h
      cases hp
      have hle := (Cursor.stumbles_next hn (.inl rfl)).le
      have hfail : p.parse (c.on words) = (.rejected
          (.unreadable token.value token.position p.tag reason) (c'.on words) :
            Reply (Program ι W V)) := by
        unfold Primitive.parse
        rw [Cursor.next_on_of_take hn hw hle]
        simp only [hv]
      rwa [hfail] at hread

mutual

/-- A failure is the same on every list that starts with the words up to the one it points at. -/
theorem Reads.on_rejected {v : Vocabulary ι W V} {e : Expr ι V} {c : Cursor}
    {r : Reply (Program ι W V)} (h : Reads v e c r) (hc : c.Within) {error : Error} {c' : Cursor}
    (hr : r = .rejected error c') {position : Nat} (hp : error.position? = some position)
    (hlt : position < c.tokens.length) {words : List String}
    (hw : c.tokens.take (position + 1) <+: words) :
    Reads v e (c.on words) (.rejected error (c'.on words)) := by
  match h with
  | .prim => exact Primitive.on_rejected hr hp hlt hw
  | .undefined _ =>
    cases hr
    cases hp
  | .exhausted _ hn =>
    cases hr
    exact absurd hlt (Cursor.not_lt_of_next_error hn hp)
  | .keyword ht hn hl ha =>
    have hargs := Reply.map_eq_rejected hr
    have hahead := (Cursor.next_reaches hn).1
    have hle := (hargs ▸ ha).le_position hahead.within_right hp
    have hnext := Cursor.next_on_of_take hn hw (Nat.le_trans hahead.le hle)
    rw [← hahead.tokens_eq] at hlt hw
    exact .keyword ht hnext hl (ha.on_rejected hahead.within_right hargs hp hlt hw)
  | .fallback ht hn hl he hrest =>
    obtain ⟨error', hr', rfl⟩ := Reply.mapError_eq_rejected hr
    rw [blame_position?] at hp
    have hle := (hrest.fault hc hr').le_position hc hp
    exact .fallback ht (Cursor.next_on_of_take hn hw hle) hl he (hrest.on_rejected hc hr' hp hlt hw)
  | .unexpected ht hn hl he =>
    cases hr
    cases hp
    have hle := (Cursor.stumbles_next hn (.inl rfl)).le
    exact .unexpected ht (Cursor.next_on_of_take hn hw hle) hl he
  | .rep hitems => exact .rep (hitems.on_rejected hc (Reply.map_eq_rejected hr) hp hlt hw)

theorem ReadsArgs.on_rejected {v : Vocabulary ι W V} {es : List (Expr ι V)} {c : Cursor}
    {r : Reply (List (Program ι W V))} (h : ReadsArgs v es c r) (hc : c.Within) {error : Error}
    {c' : Cursor} (hr : r = .rejected error c') {position : Nat}
    (hp : error.position? = some position) (hlt : position < c.tokens.length)
    {words : List String} (hw : c.tokens.take (position + 1) <+: words) :
    ReadsArgs v es (c.on words) (.rejected error (c'.on words)) := by
  match h with
  | .nil => cases hr
  | .cons he hes =>
    have hrest := Reply.map_eq_rejected hr
    have hreach := (he.advances hc).1
    have hle := (hrest ▸ hes).le_position hreach.within_right hp
    -- what was read before the failure ended in front of the word that is pointed at
    have hclosed := he.closed hc rfl (Nat.lt_of_le_of_lt hle hlt)
    rw [← hreach.tokens_eq] at hlt hw
    exact .cons (he.on hc rfl hclosed (Cursor.starts_of_take hw (by omega)))
      (hes.on_rejected hreach.within_right hrest hp hlt hw)
  | .failed he => exact .failed (he.on_rejected hc (Reply.rejected_eq hr) hp hlt hw)

theorem ReadsItems.on_rejected {v : Vocabulary ι W V} {r : Repetition V} {child : Expr ι V}
    {c : Cursor} {reply : Reply (List (Program ι W V) × Option Token)}
    (h : ReadsItems v r child c reply) (hc : c.Within) {error : Error} {c' : Cursor}
    (hr : reply = .rejected error c') {position : Nat} (hp : error.position? = some position)
    (hlt : position < c.tokens.length) {words : List String}
    (hw : c.tokens.take (position + 1) <+: words) :
    ReadsItems v r child (c.on words) (.rejected error (c'.on words)) := by
  match h with
  | .finished _ | .exit _ _ => cases hr
  | .item hn he hp' hi =>
    have hrest := Reply.map_eq_rejected hr
    have hreach := (hp'.advances hc).1
    have hle := (hrest ▸ hi).le_position hreach.within_right hp
    have hnext := Cursor.next_on_of_take hn hw (Nat.le_trans hreach.le hle)
    have hclosed := hp'.closed hc rfl (Nat.lt_of_le_of_lt hle hlt)
    rw [← hreach.tokens_eq] at hlt hw
    exact .item hnext he (hp'.on hc rfl hclosed (Cursor.starts_of_take hw (by omega)))
      (hi.on_rejected hreach.within_right hrest hp hlt hw)
  | .failed hn he hp' =>
    have hle := (hp'.fault hc (Reply.rejected_eq hr)).le_position hc hp
    exact .failed (Cursor.next_on_of_take hn hw hle) he
      (hp'.on_rejected hc (Reply.rejected_eq hr) hp hlt hw)

end

/-! ## Inputs that are cut short -/

/-- The reading has used up the input, whose end is the cursor: it succeeded there, or asked for
more. -/
inductive Reply.RunsOut {α : Type u} (end' : Cursor) : Reply α → Prop where
  | accepted {value : α} : RunsOut end' (.accepted value end')
  | exhausted {expected : String} :
      RunsOut end' (.rejected (.exhausted expected end'.index) end')

theorem Reply.RunsOut.map {α : Type u} {β : Type v} {c : Cursor} {r : Reply α} (f : α → β)
    (h : r.RunsOut c) : (r.map f).RunsOut c := by
  cases h with
  | accepted => exact .accepted
  | exhausted => exact .exhausted

theorem Reply.RunsOut.blame {α : Type u} {c : Cursor} {r : Reply α} (tag : String) (token : Token)
    (h : r.RunsOut c) : (r.mapError (blame tag token)).RunsOut c := by
  cases h with
  | accepted => exact .accepted
  | exhausted => exact .exhausted

theorem Cursor.next_of_finished {c : Cursor} (h : c.finished = true) (expected : String) :
    c.next expected = .error (.exhausted expected c.index) :=
  next_of_length_le (Nat.le_of_eq ((finished_iff c).mp h).symm) expected

/-- At the end of the input, whatever can be read elsewhere runs out of words. -/
theorem Reads.runsOut {v : Vocabulary ι W V} {e : Expr ι V} {c c' : Cursor} {p : Program ι W V}
    (h : Reads v e c (.accepted p c')) {d : Cursor} (hd : d.finished = true) :
    ∃ r, Reads v e d r ∧ r.RunsOut d := by
  cases e with
  | prim q =>
    have hread : Reads v (.prim q) d (q.parse d) := .prim
    have hfail : q.parse d = (.rejected (.exhausted q.tag d.index) d : Reply (Program ι W V)) := by
      unfold Primitive.parse
      rw [Cursor.next_of_finished hd]
    rw [hfail] at hread
    exact ⟨_, hread, .exhausted⟩
  | type name =>
    have htable : ∃ table, v.table name = some table := by
      cases ht : v.table name with
      | some table => exact ⟨table, rfl⟩
      | none =>
        generalize hr : Reply.accepted p c' = r at h
        cases h with
        | undefined _ => cases hr
        | exhausted ht' _ | keyword ht' _ _ _ | fallback ht' _ _ _ _ | unexpected ht' _ _ _ =>
          rw [ht] at ht'
          cases ht'
    obtain ⟨table, ht⟩ := htable
    exact ⟨_, .exhausted ht (Cursor.next_of_finished hd _), .exhausted⟩
  | rep r child => exact ⟨_, .rep (.finished hd), .accepted⟩

theorem ReadsArgs.runsOut {v : Vocabulary ι W V} {es : List (Expr ι V)} {c : Cursor}
    {r : Reply (List (Program ι W V))} (h : ReadsArgs v es c r) {ps : List (Program ι W V)}
    {c' : Cursor} (hr : r = .accepted ps c') {d : Cursor} (hd : d.finished = true) :
    ∃ r', ReadsArgs v es d r' ∧ r'.RunsOut d := by
  match h with
  | .nil => exact ⟨_, .nil, .accepted⟩
  | .cons he hes =>
    obtain ⟨ps, hps, -⟩ := Reply.map_eq_accepted hr
    obtain ⟨r₁, hread, hout⟩ := he.runsOut hd
    cases hout with
    | accepted =>
      obtain ⟨r₂, hread₂, hout₂⟩ := hes.runsOut hps hd
      exact ⟨_, .cons hread hread₂, hout₂.map _⟩
    | exhausted => exact ⟨_, .failed hread, .exhausted⟩
  | .failed _ => cases hr

theorem Cursor.finished_take {tokens : List String} {n : Nat} (h : n ≤ tokens.length) :
    Cursor.finished ⟨tokens.take n, n⟩ = true := by
  rw [finished_iff, List.length_take, Nat.min_eq_left h]

theorem Cursor.starts_take {c : Cursor} {n : Nat} (h : c.index ≤ n) : c.Starts (c.tokens.take n) :=
  List.take_prefix_take_left h

/-- A word in front of the cut is still there. -/
theorem Cursor.next_on_cut {c ahead : Cursor} {expected : String} {token : Token} {n : Nat}
    {words : List String} (hn : c.next expected = .ok (token, ahead)) (hlt : c.index < n)
    (hw : words = c.tokens.take n) :
    ahead.index ≤ n ∧ (c.on words).next expected = .ok (token, ahead.on words) := by
  have hreach := (Cursor.next_reaches hn).1
  have hstep : ahead.index ≤ n := by
    obtain ⟨-, -, rfl⟩ := Cursor.next_ok hn
    exact hlt
  have hstarts : ahead.Starts words := by
    rw [hw, ← hreach.tokens_eq]
    exact Cursor.starts_take hstep
  exact ⟨hstep, Cursor.next_on hn hstarts⟩

mutual

/-- If the input of a success is cut behind its first `n` words, the reading runs out of words. -/
theorem Reads.cut {v : Vocabulary ι W V} {e : Expr ι V} {c : Cursor}
    {r : Reply (Program ι W V)} (h : Reads v e c r) (hc : c.Within) {p : Program ι W V}
    {c' : Cursor} (hr : r = .accepted p c') {n : Nat} (hle : c.index ≤ n) (hlt : n < c'.index)
    {words : List String} (hw : words = c.tokens.take n) :
    ∃ r', Reads v e (c.on words) r' ∧ r'.RunsOut ⟨words, n⟩ := by
  have hn : n ≤ c.tokens.length := by
    have hadv := h.advances hc
    rw [hr] at hadv
    exact Nat.le_of_lt (Nat.lt_of_lt_of_le hlt hadv.1.within)
  rcases Nat.eq_or_lt_of_le hle with heq | hahead
  · have hfin : (c.on words).finished = true := by
      rw [hw, Cursor.on, heq]
      exact Cursor.finished_take hn
    obtain ⟨r', hread, hout⟩ := (hr ▸ h).runsOut hfin
    rw [Cursor.on, heq] at hout
    exact ⟨r', hread, hout⟩
  · match h with
    | .prim =>
      obtain ⟨token, value, hn', -, -⟩ := Primitive.parse_eq_accepted hr
      obtain ⟨-, -, rfl⟩ := Cursor.next_ok hn'
      exact absurd hlt (Nat.not_lt.mpr hahead)
    | .undefined _ | .exhausted _ _ | .unexpected _ _ _ _ => cases hr
    | .keyword ht hn' hl ha =>
      obtain ⟨args, hargs, -⟩ := Reply.map_eq_accepted hr
      have hreach := (Cursor.next_reaches hn').1
      obtain ⟨hstep, hnext⟩ := Cursor.next_on_cut hn' hahead hw
      rw [← hreach.tokens_eq] at hw
      obtain ⟨r', hread, hout⟩ := ha.cut hreach.within_right hargs hstep hlt hw
      exact ⟨_, .keyword ht hnext hl hread, hout.map _⟩
    | .fallback ht hn' hl he hrest =>
      obtain ⟨r', hread, hout⟩ := hrest.cut hc (Reply.mapError_eq_accepted hr) hle hlt hw
      exact ⟨_, .fallback ht (Cursor.next_on_cut hn' hahead hw).2 hl he hread, hout.blame _ _⟩
    | .rep hitems =>
      obtain ⟨⟨items, exit⟩, hreply, -⟩ := Reply.map_eq_accepted hr
      obtain ⟨r', hread, hout⟩ := hitems.cut hc hreply hle hlt hw
      exact ⟨_, .rep hread, hout.map _⟩

theorem ReadsArgs.cut {v : Vocabulary ι W V} {es : List (Expr ι V)} {c : Cursor}
    {r : Reply (List (Program ι W V))} (h : ReadsArgs v es c r) (hc : c.Within)
    {ps : List (Program ι W V)} {c' : Cursor} (hr : r = .accepted ps c') {n : Nat}
    (hle : c.index ≤ n) (hlt : n < c'.index) {words : List String} (hw : words = c.tokens.take n) :
    ∃ r', ReadsArgs v es (c.on words) r' ∧ r'.RunsOut ⟨words, n⟩ := by
  match h with
  | .nil =>
    cases hr
    omega
  | @ReadsArgs.cons _ _ _ _ _ _ _ c₁ _ _ he hes =>
    obtain ⟨ps, hps, -⟩ := Reply.map_eq_accepted hr
    have hreach := (he.advances hc).1
    have hkeep := hes.keeps hreach.within_right
    rw [hps] at hkeep
    have hend : n < c.tokens.length := by
      rw [← hreach.tokens_eq]
      exact Nat.lt_of_lt_of_le hlt hkeep.within
    have hw₁ : words = c₁.tokens.take n := by rw [hreach.tokens_eq, hw]
    rcases Nat.lt_or_ge n c₁.index with hinside | hbehind
    · obtain ⟨r₁, hread, hout⟩ := he.cut hc rfl hle hinside hw
      cases hout with
      | accepted =>
        obtain ⟨r₂, hread₂, hout₂⟩ := hes.runsOut hps
          (hw ▸ Cursor.finished_take (Nat.le_of_lt hend))
        exact ⟨_, .cons hread hread₂, hout₂.map _⟩
      | exhausted => exact ⟨_, .failed hread, .exhausted⟩
    · have hclosed := he.closed hc rfl (Nat.lt_of_le_of_lt hbehind hend)
      obtain ⟨r₂, hread₂, hout₂⟩ := hes.cut hreach.within_right hps hbehind hlt hw₁
      exact ⟨_, .cons (he.on hc rfl hclosed (hw₁ ▸ Cursor.starts_take hbehind)) hread₂,
        hout₂.map _⟩
  | .failed _ => cases hr

theorem ReadsItems.cut {v : Vocabulary ι W V} {r : Repetition V} {child : Expr ι V}
    {c : Cursor} {reply : Reply (List (Program ι W V) × Option Token)}
    (h : ReadsItems v r child c reply) (hc : c.Within) {ps : List (Program ι W V)}
    {exit : Option Token} {c' : Cursor} (hr : reply = .accepted (ps, exit) c') {n : Nat}
    (hle : c.index ≤ n) (hlt : n < c'.index) {words : List String} (hw : words = c.tokens.take n) :
    ∃ reply', ReadsItems v r child (c.on words) reply' ∧ reply'.RunsOut ⟨words, n⟩ := by
  have hend : n < c.tokens.length := by
    have hkeep := h.keeps hc
    rw [hr] at hkeep
    exact Nat.lt_of_lt_of_le hlt hkeep.within
  have hfin : Cursor.finished ⟨words, n⟩ = true := hw ▸ Cursor.finished_take (Nat.le_of_lt hend)
  rcases Nat.eq_or_lt_of_le hle with rfl | hahead
  · exact ⟨_, .finished hfin, .accepted⟩
  · match h with
    | .finished _ =>
      cases hr
      omega
    | .exit hn _ =>
      cases hr
      obtain ⟨-, -, rfl⟩ := Cursor.next_ok hn
      exact absurd hlt (Nat.not_lt.mpr hahead)
    | @ReadsItems.item _ _ _ _ _ _ _ _ c₁ _ _ _ hn he hp hi =>
      obtain ⟨⟨ps, exit⟩, hrest, -⟩ := Reply.map_eq_accepted hr
      have hreach := (hp.advances hc).1
      have hnext := (Cursor.next_on_cut hn hahead hw).2
      have hw₁ : words = c₁.tokens.take n := by rw [hreach.tokens_eq, hw]
      rcases Nat.lt_or_ge n c₁.index with hinside | hbehind
      · obtain ⟨r₁, hread, hout⟩ := hp.cut hc rfl hle hinside hw
        cases hout with
        | accepted => exact ⟨_, .item hnext he hread (.finished hfin), .accepted⟩
        | exhausted => exact ⟨_, .failed hnext he hread, .exhausted⟩
      · have hclosed := hp.closed hc rfl (Nat.lt_of_le_of_lt hbehind hend)
        obtain ⟨r₂, hread₂, hout₂⟩ := hi.cut hreach.within_right hrest hbehind hlt hw₁
        exact ⟨_, .item hnext he (hp.on hc rfl hclosed (hw₁ ▸ Cursor.starts_take hbehind)) hread₂,
          hout₂.map _⟩
    | .failed _ _ _ => cases hr

end

/-! ## Programs -/

/-- The end of an accepted program. -/
theorem Language.end_of_parse {l : Language ι W V} {words : List String} {p : Program ι W V}
    {c : Cursor} (h : l.parse words = .accepted p c) : c = ⟨words, words.length⟩ := by
  obtain ⟨hread, hf⟩ := Language.parse_eq_accepted.mp h
  have htokens : c.tokens = words := (hread.advances (Cursor.within_ofTokens words)).1.tokens_eq
  rw [Cursor.finished_iff, htokens] at hf
  exact Cursor.eq_mk htokens hf

/-- A success depends on the words that it has read. Unless one of its lists was ended by the end
of the input, which there cannot be in front of a word, the reading gives the same program, and
with it the same trace and the same work, at the same index whatever comes behind it. So a program
all of whose lists were closed cannot be extended: the next word is left over. -/
theorem success_depends_on_words_read (l : Language ι W V) :
    (∀ (e : Expr ι V) (words : List String) (i : Nat) (p : Program ι W V) (c : Cursor),
      i ≤ words.length → e.parse l.vocabulary ⟨words, i⟩ = .accepted p c →
      (c.index < words.length → p.Closed) ∧
      (p.Closed → ∀ rest, e.parse l.vocabulary ⟨words.take c.index ++ rest, i⟩ =
        .accepted p ⟨words.take c.index ++ rest, c.index⟩)) ∧
    ∀ (words : List String) (p : Program ι W V) (c : Cursor),
      l.parse words = .accepted p c → p.Closed → ∀ word rest,
        l.parse (words ++ word :: rest) =
          .rejected (.trailing word words.length)
            ⟨words ++ word :: rest, words.length + 1⟩ := by
  constructor
  · intro e words i p c hi h
    have hc : Cursor.Within ⟨words, i⟩ := hi
    have hread := (reads_iff hc).mpr ⟨h, by rintro ⟨⟩⟩
    have hreach := (hread.advances hc).1
    refine ⟨hread.closed hc rfl, fun hp rest => ?_⟩
    have hw : c.Starts (words.take c.index ++ rest) := by
      have htokens : c.tokens = words := hreach.tokens_eq
      rw [Cursor.Starts, htokens]
      exact List.prefix_append ..
    have hwithin : (Cursor.on ⟨words, i⟩ (words.take c.index ++ rest)).Within := by
      have hlength := hw.length_le
      have hle : i ≤ c.index := hreach.le
      have hend : c.index ≤ c.tokens.length := hreach.within_right
      rw [List.length_take, Nat.min_eq_left hend] at hlength
      exact Nat.le_trans hle hlength
    exact ((reads_iff hwithin).mp (hread.on hc rfl hp hw)).1
  · intro words p c h hp word rest
    obtain ⟨hread, -⟩ := Language.parse_eq_accepted.mp h
    rw [Language.end_of_parse h] at hread
    have hw : Cursor.Starts ⟨words, words.length⟩ (words ++ word :: rest) := by
      rw [Cursor.Starts, List.take_length]
      exact List.prefix_append ..
    have hon := hread.on (Cursor.within_ofTokens words) rfl hp hw
    have hword : (words ++ word :: rest)[words.length]? = some word := by
      rw [List.getElem?_append_right (Nat.le_refl _), Nat.sub_self, List.getElem?_cons_zero]
    have hnext : (Cursor.on ⟨words, words.length⟩ (words ++ word :: rest)).next l.tag =
        .ok (⟨word, words.length⟩, ⟨words ++ word :: rest, words.length + 1⟩) :=
      Cursor.next_of_getElem? hword l.tag
    exact Language.parse_eq_rejected.mpr (.inr ⟨p, _, _, hon, hnext, rfl⟩)

/-- A list of words that `-` has ended, and then a word that is left over. Without the `-`, the
word would be one more of the list. -/
theorem success_depends_on_words_read_toolbox :
    Demo.Toolbox.language.parse ["writeFile", "out.txt", "join", ",", "a", "-", "b", "c"] =
        .rejected (.trailing "b" 6)
          ⟨["writeFile", "out.txt", "join", ",", "a", "-", "b", "c"], 7⟩ ∧
      ∃ p c, Demo.Toolbox.language.parse ["writeFile", "out.txt", "join", ",", "a"] =
          .accepted p c ∧
        (¬ p.Closed) ∧ ∃ q c', Demo.Toolbox.language.parse
          ["writeFile", "out.txt", "join", ",", "a", "b"] = .accepted q c' := by
  refine ⟨?_, _, _, rfl, by simp [Program.Closed, Program.ClosedAll], _, _, rfl⟩
  exact (success_depends_on_words_read Demo.Toolbox.language).2
    ["writeFile", "out.txt", "join", ",", "a", "-"] _ _ rfl
    (by simp [Program.Closed, Program.ClosedAll]) "b" ["c"]

/-- A failure depends on the words up to the one that it points at, and is the same whatever comes
behind them. So an accepted program that is cut short is accepted, or runs out of words. -/
theorem failure_depends_on_words_up_to (l : Language ι W V) :
    (∀ (words : List String) (error : Error) (c : Cursor) (position : Nat),
      l.parse words = .rejected error c → error.position? = some position →
      position < words.length → ∀ rest,
        l.parse (words.take (position + 1) ++ rest) =
          .rejected error ⟨words.take (position + 1) ++ rest, c.index⟩) ∧
    ∀ (words : List String) (p : Program ι W V) (c : Cursor) (front : List String),
      l.parse words = .accepted p c → front <+: words →
      (∃ q, l.parse front = .accepted q ⟨front, front.length⟩) ∨
        ∃ expected, l.parse front =
          .rejected (.exhausted expected front.length) ⟨front, front.length⟩ := by
  constructor
  · intro words error c position h hp hlt rest
    have hc := Cursor.within_ofTokens words
    have hw : words.take (position + 1) <+: words.take (position + 1) ++ rest :=
      List.prefix_append ..
    rcases Language.parse_eq_rejected.mp h with hread | ⟨p, c₀, token, hread, hn, rfl⟩
    · exact Language.parse_eq_rejected.mpr (.inl (hread.on_rejected hc rfl hp hlt hw))
    · -- the root was read in front of the word that is left over, and is closed
      cases hp
      have hreach := (hread.advances hc).1
      have htokens : c₀.tokens = words := hreach.tokens_eq
      have hposition : token.position = c₀.index := (Cursor.next_ok hn).2.1
      rw [hposition] at hlt hw ⊢
      have hstarts : c₀.Starts (words.take (c₀.index + 1) ++ rest) :=
        Cursor.starts_of_take (htokens ▸ hw) (Nat.le_succ _)
      have hon := hread.on hc rfl (hread.closed hc rfl hlt) hstarts
      exact Language.parse_eq_rejected.mpr (.inr ⟨p, _, token, hon,
        Cursor.next_on_of_take hn (htokens ▸ hw) (Nat.le_refl _), by rw [hposition]⟩)
  · intro words p c front h hfront
    have hc := Cursor.within_ofTokens words
    rcases Nat.lt_or_ge front.length words.length with hlt | hge
    · obtain ⟨hread, -⟩ := Language.parse_eq_accepted.mp h
      have hcut : front.length < c.index := by
        rw [Language.end_of_parse h]
        exact hlt
      obtain ⟨r, hfrontRead, hout⟩ :=
        hread.cut hc rfl (Nat.zero_le _) hcut (List.prefix_iff_eq_take.mp hfront)
      cases hout with
      | @accepted q =>
        refine .inl ⟨q, Language.parse_eq_accepted.mpr ⟨hfrontRead, ?_⟩⟩
        rw [Cursor.finished_iff]
      | @exhausted expected =>
        exact .inr ⟨expected, Language.parse_eq_rejected.mpr (.inl hfrontRead)⟩
    · cases hfront.eq_of_length_le hge
      exact .inl ⟨p, Language.end_of_parse h ▸ h⟩

/-- A word that no source starts with is refused whatever comes behind it; and what comes before
the last word of a program, cut there, asks for a source. -/
theorem failure_depends_on_words_up_to_toolbox :
    Demo.Toolbox.language.parse ["writeFile", "out.txt", "joyn", "token", "a"] =
        .rejected (.unexpected "joyn" 2 "source")
          ⟨["writeFile", "out.txt", "joyn", "token", "a"], 2⟩ ∧
      ((∃ q, Demo.Toolbox.language.parse ["writeFile", "out.txt"] =
          .accepted q ⟨["writeFile", "out.txt"], 2⟩) ∨
        ∃ expected, Demo.Toolbox.language.parse ["writeFile", "out.txt"] =
          .rejected (.exhausted expected 2) ⟨["writeFile", "out.txt"], 2⟩) :=
  ⟨(failure_depends_on_words_up_to Demo.Toolbox.language).1
      ["writeFile", "out.txt", "joyn", ","] _ _ 2 rfl rfl (by decide) ["token", "a"],
    (failure_depends_on_words_up_to Demo.Toolbox.language).2
      ["writeFile", "out.txt", "token", "a"] _ _ ["writeFile", "out.txt"] rfl
      (List.prefix_append ..)⟩

end Parlance
