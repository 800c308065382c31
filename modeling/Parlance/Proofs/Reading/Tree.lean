import Parlance.Demo.Toolbox
import Parlance.Proofs.Reading.Rules

/-
  Program trees, and reading as the inverse of writing out their leaves. `WellFormed v e ends t`
  says what a trace of the expression `e` looks like, without mention of cursors or of reading;
  `ends` says that the input ends behind the tree. That is the only thing a tree has to know of
  its surroundings: a repetition without its exit word is well formed only there.

  `Reads.wellFormed` and `WellFormed.reads` are the two directions, by induction on the rules of
  reading and on the tree. `parse_inverts_leaves` puts them together for whole programs. It holds
  of every language: where types are undefined or fallbacks run in a circle, there are fewer
  trees, and just as few programs that are accepted.
-/

namespace Parlance

variable {ι W V : Type}

/-! ## Well-formed trees -/

mutual

/-- The trace is a tree of the expression. -/
inductive WellFormed (v : Vocabulary ι W V) : Expr ι V → Bool → Trace → Prop where
  /-- One leaf with a word that the primitive takes. -/
  | literal {p : Primitive V} {ends : Bool} {token : Token} {value : V} :
      p.convert token.value = .ok value → WellFormed v (.prim p) ends (.leaf p.tag token)
  /-- A keyword of the type, and one tree per argument of its rule. -/
  | call {name : ι} {ends : Bool} {table : Table ι W V} {keyword : Token} {rule : Rule ι W V}
      {args : List Trace} :
      v.table name = some table → table.lookup keyword.value = some rule →
      WellFormedArgs v rule.args ends args →
      WellFormed v (.type name) ends (.branch (v.tag name) (.leaf "fn" keyword :: args))
  /-- A tree of the fallback whose first word is no keyword of the type. -/
  | fallback {name : ι} {ends : Bool} {table : Table ι W V} {e : Expr ι V} {first : Token}
      {t : Trace} :
      v.table name = some table → table.fallback = some e → t.tokens.head? = some first →
      first.value ∉ table.keywords → WellFormed v e ends t → WellFormed v (.type name) ends t
  /-- Items, and the exit word behind them. -/
  | closed {r : Repetition V} {child : Expr ι V} {ends : Bool} {items : List Trace}
      {token : Token} :
      WellFormedItems v r child false items → r.exit = some token.value →
      WellFormed v (.rep r child) ends
        (.branch ((Expr.rep r child).tag v.tag)
          (items ++ [.leaf ((Expr.rep r child).tag v.tag ++ ".exit") token]))
  /-- Items up to the end of the input. -/
  | unclosed {r : Repetition V} {child : Expr ι V} {items : List Trace} :
      WellFormedItems v r child true items →
      WellFormed v (.rep r child) true (.branch ((Expr.rep r child).tag v.tag) items)

/-- One tree per expression, in order. Behind a tree the input ends if it ends behind the last one
and no later tree has a leaf. -/
inductive WellFormedArgs (v : Vocabulary ι W V) : List (Expr ι V) → Bool → List Trace → Prop where
  | nil {ends : Bool} : WellFormedArgs v [] ends []
  | cons {e : Expr ι V} {es : List (Expr ι V)} {ends : Bool} {t : Trace} {ts : List Trace} :
      WellFormed v e (ends && (Trace.tokensAll ts).isEmpty) t → WellFormedArgs v es ends ts →
      WellFormedArgs v (e :: es) ends (t :: ts)

/-- Trees of the child, none of which starts with the exit word. -/
inductive WellFormedItems (v : Vocabulary ι W V) :
    Repetition V → Expr ι V → Bool → List Trace → Prop where
  | nil {r : Repetition V} {child : Expr ι V} {ends : Bool} : WellFormedItems v r child ends []
  | cons {r : Repetition V} {child : Expr ι V} {ends : Bool} {first : Token} {t : Trace}
      {ts : List Trace} :
      t.tokens.head? = some first → r.exit ≠ some first.value →
      WellFormed v child (ends && (Trace.tokensAll ts).isEmpty) t →
      WellFormedItems v r child ends ts → WellFormedItems v r child ends (t :: ts)

end

/-- A tree of a whole program: a tree of the root up to the end of the input, under the tag of the
language, with its leaves numbered from left to right. -/
def Language.IsProgramTree (l : Language ι W V) (t : Trace) : Prop :=
  (∃ body, t = .branch l.tag [body] ∧ WellFormed l.vocabulary l.root true body) ∧
    t.tokens.map Token.position = List.range t.tokens.length

/-! ## Tokens in a list of words -/

/-- The tokens are words of the list, from the index on and with their positions. -/
def Spells (words : List String) : Nat → List Token → Prop
  | _, [] => True
  | i, token :: rest =>
    words[i]? = some token.value ∧ token.position = i ∧ Spells words (i + 1) rest

theorem spells_append {words : List String} {i : Nat} {a b : List Token} :
    Spells words i (a ++ b) ↔ Spells words i a ∧ Spells words (i + a.length) b := by
  induction a generalizing i with
  | nil => simp [Spells]
  | cons token a ih =>
    simp only [List.cons_append, Spells, ih, List.length_cons]
    have e : i + 1 + a.length = i + (a.length + 1) := by omega
    rw [e, and_assoc, and_assoc]

theorem Spells.map_value {words : List String} {i : Nat} {tokens : List Token}
    (h : Spells words i tokens) : tokens.map Token.value = (words.drop i).take tokens.length := by
  induction tokens generalizing i with
  | nil => simp
  | cons token tokens ih =>
    obtain ⟨hw, -, hrest⟩ := h
    obtain ⟨hlt, hget⟩ := List.getElem?_eq_some_iff.mp hw
    rw [List.drop_eq_getElem_cons hlt, List.length_cons, List.take_succ_cons, List.map_cons,
      ih hrest, hget]

theorem Spells.map_position {words : List String} {i : Nat} {tokens : List Token}
    (h : Spells words i tokens) : tokens.map Token.position = List.range' i tokens.length := by
  induction tokens generalizing i with
  | nil => rfl
  | cons token tokens ih =>
    obtain ⟨-, hpos, hrest⟩ := h
    rw [List.map_cons, ih hrest, hpos, List.length_cons, List.range'_succ]

/-- Tokens that are numbered from `i` on spell their own words. -/
theorem spells_of_positions (front : List String) {tokens : List Token}
    (h : tokens.map Token.position = List.range' front.length tokens.length) :
    Spells (front ++ tokens.map Token.value) front.length tokens := by
  induction tokens generalizing front with
  | nil => trivial
  | cons token tokens ih =>
    rw [List.map_cons, List.length_cons, List.range'_succ] at h
    obtain ⟨hpos, hrest⟩ := List.cons.inj h
    have hih := ih (front ++ [token.value]) (by simpa using hrest)
    refine ⟨by simp, hpos, ?_⟩
    simpa using hih

/-- The second cursor stands behind the tokens that start at the first. -/
structure Cursor.Covers (c c' : Cursor) (tokens : List Token) : Prop where
  reaches : c.Reaches c'
  index_eq : c'.index = c.index + tokens.length
  spells : Spells c.tokens c.index tokens

theorem Cursor.Covers.nil {c : Cursor} (hc : c.Within) : c.Covers c [] :=
  ⟨Cursor.Reaches.refl hc, rfl, trivial⟩

theorem Cursor.covers_next {c ahead : Cursor} {expected : String} {token : Token}
    (hn : c.next expected = .ok (token, ahead)) : c.Covers ahead [token] := by
  have hr := (Cursor.next_reaches hn).1
  obtain ⟨hw, hpos, rfl⟩ := Cursor.next_ok hn
  exact ⟨hr, rfl, hw, hpos, trivial⟩

theorem Cursor.Covers.append {c c' c'' : Cursor} {a b : List Token} (h : c.Covers c' a)
    (h' : c'.Covers c'' b) : c.Covers c'' (a ++ b) := by
  refine ⟨h.reaches.trans h'.reaches, ?_, spells_append.mpr ⟨h.spells, ?_⟩⟩
  · rw [h'.index_eq, h.index_eq, List.length_append, Nat.add_assoc]
  · rw [← h.reaches.tokens_eq, ← h.index_eq]
    exact h'.spells

theorem Cursor.Covers.split {c c'' : Cursor} {a b : List Token} (h : c.Covers c'' (a ++ b)) :
    ∃ c', c.Covers c' a ∧ c'.Covers c'' b := by
  obtain ⟨hr, hi, hs⟩ := h
  obtain ⟨hsa, hsb⟩ := spells_append.mp hs
  rw [List.length_append] at hi
  have hw := hr.within
  refine ⟨⟨c.tokens, c.index + a.length⟩, ⟨⟨rfl, Nat.le_add_right _ _, ?_⟩, rfl, hsa⟩,
    ⟨hr.tokens_eq, ?_, hw⟩, ?_, hsb⟩
  all_goals
    dsimp only
    omega

theorem Cursor.Covers.eq_of_nil {c c' : Cursor} (h : c.Covers c' []) : c' = c := by
  obtain ⟨⟨ht, -, -⟩, hi, -⟩ := h
  cases c
  cases c'
  cases ht
  cases hi
  rfl

/-- In front of tokens, the first of them is the next word. -/
theorem Cursor.Covers.next_cons {c c' : Cursor} {token : Token} {rest : List Token}
    (h : c.Covers c' (token :: rest)) (expected : String) :
    ∃ ahead, c.next expected = .ok (token, ahead) ∧ ahead.Covers c' rest := by
  obtain ⟨hr, hi, hw, hpos, hs⟩ := h
  rw [List.length_cons] at hi
  refine ⟨⟨c.tokens, c.index + 1⟩, ?_, ⟨hr.tokens_eq, ?_, hr.within⟩, ?_, hs⟩
  · rw [Cursor.next_of_getElem? hw, ← hpos]
  · dsimp only
    omega
  · dsimp only
    omega

theorem Cursor.Covers.next {c c' : Cursor} {tokens : List Token} {first : Token}
    (h : c.Covers c' tokens) (hf : tokens.head? = some first) (expected : String) :
    ∃ ahead, c.next expected = .ok (first, ahead) := by
  obtain ⟨rest, rfl⟩ := List.head?_eq_some_iff.mp hf
  obtain ⟨ahead, hn, -⟩ := h.next_cons expected
  exact ⟨ahead, hn⟩

/-- If something was read in front of a word, that word was the first of it. -/
theorem Cursor.Covers.head_of_next {c c' ahead : Cursor} {tokens : List Token} {token : Token}
    {expected : String} (h : c.Covers c' tokens) (hn : c.next expected = .ok (token, ahead))
    (hlt : c.index < c'.index) : tokens.head? = some token := by
  cases hfirst : tokens.head? with
  | none =>
    have hi := h.index_eq
    rw [List.head?_eq_none_iff.mp hfirst, List.length_nil] at hi
    omega
  | some first =>
    obtain ⟨ahead', hn'⟩ := h.next hfirst expected
    rw [hn'] at hn
    cases hn
    rfl

/-- In front of tokens the input has ended if there are none and it has ended behind them. -/
theorem Cursor.Covers.finished_eq {c c' : Cursor} {tokens : List Token}
    (h : c.Covers c' tokens) : c.finished = (c'.finished && tokens.isEmpty) := by
  have hw := h.reaches.within
  have hi := h.index_eq
  unfold Cursor.finished
  rw [h.reaches.tokens_eq]
  cases tokens with
  | nil =>
    have e : c'.index = c.index := hi
    simp [e]
  | cons token tokens =>
    rw [List.length_cons] at hi
    have hlt : c.index ≠ c.tokens.length := by omega
    simp [hlt]

theorem Table.lookup_eq_none_iff {t : Table ι W V} {word : String} :
    t.lookup word = none ↔ word ∉ t.keywords := by
  unfold Table.lookup Table.keywords
  rw [List.find?_eq_none]
  simp

/-! ## Traces of lists -/

theorem Trace.tokensAll_append (ts us : List Trace) :
    Trace.tokensAll (ts ++ us) = Trace.tokensAll ts ++ Trace.tokensAll us := by
  induction ts with
  | nil => simp [Trace.tokensAll]
  | cons t ts ih => simp [Trace.tokensAll, ih]

theorem Trace.tokensAll_exit (tag : String) (exit : Option Token) :
    Trace.tokensAll (exit.toList.map (Trace.leaf tag)) = exit.toList := by
  cases exit <;> simp [Trace.tokensAll, Trace.tokens]

/-! ## What is read is well formed -/

mutual

theorem Reads.wellFormed {v : Vocabulary ι W V} {e : Expr ι V} {c : Cursor}
    {r : Reply (Program ι W V)} (h : Reads v e c r) (hc : c.Within) {p : Program ι W V}
    {c' : Cursor} (hr : r = .accepted p c') :
    WellFormed v e c'.finished p.trace ∧ c.Covers c' p.trace.tokens := by
  match h with
  | .prim =>
    obtain ⟨token, value, hn, hv, rfl⟩ := Primitive.parse_eq_accepted hr
    exact ⟨.literal hv, Cursor.covers_next hn⟩
  | .undefined _ | .exhausted _ _ | .unexpected _ _ _ _ => cases hr
  | .keyword ht hn hl ha =>
    obtain ⟨args, hargs, rfl⟩ := Reply.map_eq_accepted hr
    obtain ⟨hwf, hcov⟩ := ha.wellFormed (Cursor.next_reaches hn).1.within_right hargs
    exact ⟨.call ht hl hwf, (Cursor.covers_next hn).append hcov⟩
  | .fallback ht hn hl he hrest =>
    have hr' := Reply.mapError_eq_accepted hr
    have hadv := hrest.advances hc
    rw [hr'] at hadv
    obtain ⟨hwf, hcov⟩ := hrest.wellFormed hc hr'
    have hfirst := hcov.head_of_next hn (hadv.index_lt hn)
    exact ⟨.fallback ht he hfirst (Table.lookup_eq_none_iff.mp hl) hwf, hcov⟩
  | .rep hitems =>
    obtain ⟨⟨items, exit⟩, hreply, rfl⟩ := Reply.map_eq_accepted hr
    obtain ⟨hwf, hend, hexit, hcov⟩ := hitems.wellFormed hc hreply
    simp only [Program.trace, Trace.tokens, Trace.tokensAll_append, Trace.tokensAll_exit]
    refine ⟨?_, hcov⟩
    cases exit with
    | none =>
      rw [hend rfl]
      simpa using WellFormed.unclosed hwf
    | some token => exact .closed hwf (hexit token rfl)

theorem ReadsArgs.wellFormed {v : Vocabulary ι W V} {es : List (Expr ι V)} {c : Cursor}
    {r : Reply (List (Program ι W V))} (h : ReadsArgs v es c r) (hc : c.Within)
    {ps : List (Program ι W V)} {c' : Cursor} (hr : r = .accepted ps c') :
    WellFormedArgs v es c'.finished (Program.traceAll ps) ∧
      c.Covers c' (Trace.tokensAll (Program.traceAll ps)) := by
  match h with
  | .nil =>
    cases hr
    exact ⟨.nil, .nil hc⟩
  | .cons he hes =>
    obtain ⟨ps, hps, rfl⟩ := Reply.map_eq_accepted hr
    obtain ⟨hwf, hcov⟩ := he.wellFormed hc rfl
    obtain ⟨hwfs, hcovs⟩ := hes.wellFormed hcov.reaches.within_right hps
    rw [hcovs.finished_eq] at hwf
    exact ⟨.cons hwf hwfs, hcov.append hcovs⟩
  | .failed _ => cases hr

/-- How the items end: with the exit word, or with the input. -/
theorem ReadsItems.wellFormed {v : Vocabulary ι W V} {r : Repetition V} {child : Expr ι V}
    {c : Cursor} {reply : Reply (List (Program ι W V) × Option Token)}
    (h : ReadsItems v r child c reply) (hc : c.Within) {ps : List (Program ι W V)}
    {exit : Option Token} {c' : Cursor} (hr : reply = .accepted (ps, exit) c') :
    WellFormedItems v r child exit.isNone (Program.traceAll ps) ∧
      (exit = none → c'.finished = true) ∧
      (∀ token, exit = some token → r.exit = some token.value) ∧
      c.Covers c' (Trace.tokensAll (Program.traceAll ps) ++ exit.toList) := by
  match h with
  | .finished hf =>
    cases hr
    exact ⟨.nil, fun _ => hf, fun _ ht => (nomatch ht), .nil hc⟩
  | .exit hn he =>
    cases hr
    refine ⟨.nil, fun ht => (nomatch ht), ?_, Cursor.covers_next hn⟩
    rintro _ ⟨⟩
    exact he
  | .item hn he hp hi =>
    obtain ⟨⟨ps, exit⟩, hps, e⟩ := Reply.map_eq_accepted hr
    cases e
    obtain ⟨hwf, hcov⟩ := hp.wellFormed hc rfl
    obtain ⟨hwfs, hend, hexit, hcovs⟩ := hi.wellFormed hcov.reaches.within_right hps
    have hfirst := hcov.head_of_next hn ((hp.advances hc).index_lt hn)
    have hflag : (c'.finished &&
          (Trace.tokensAll (Program.traceAll ps) ++ exit.toList).isEmpty) =
        (exit.isNone && (Trace.tokensAll (Program.traceAll ps)).isEmpty) := by
      cases exit with
      | none => simp [hend]
      | some token => simp
    rw [hcovs.finished_eq, hflag] at hwf
    have hcover := hcov.append hcovs
    rw [← List.append_assoc] at hcover
    exact ⟨.cons hfirst he hwf hwfs, hend, hexit, hcover⟩
  | .failed _ _ _ => cases hr

end

/-! ## What is well formed is read -/

theorem Reads.literal {v : Vocabulary ι W V} {prim : Primitive V} {c ahead : Cursor}
    {token : Token} {value : V} (hn : c.next prim.tag = .ok (token, ahead))
    (hv : prim.convert token.value = .ok value) :
    Reads v (.prim prim) c (.accepted (.literal prim.tag token value) ahead) := by
  have e : prim.parse c = .accepted (.literal prim.tag token value : Program ι W V) ahead := by
    unfold Primitive.parse
    simp only [hn, hv]
  rw [← e]
  exact .prim

mutual

theorem WellFormed.reads {v : Vocabulary ι W V} {e : Expr ι V} {ends : Bool} {t : Trace}
    (h : WellFormed v e ends t) {c c' : Cursor} (hcov : c.Covers c' t.tokens)
    (hends : ends = true → c'.finished = true) :
    ∃ p, Reads v e c (.accepted p c') ∧ p.trace = t := by
  match h with
  | .literal hv =>
    obtain ⟨ahead, hn, hrest⟩ := hcov.next_cons _
    cases hrest.eq_of_nil
    exact ⟨_, .literal hn hv, rfl⟩
  | .call ht hl ha =>
    obtain ⟨ahead, hn, hrest⟩ := hcov.next_cons _
    obtain ⟨ps, hps, rfl⟩ := ha.reads hrest hends
    exact ⟨_, .keyword ht hn hl hps, rfl⟩
  | .fallback ht he hf hk hwf =>
    obtain ⟨ahead, hn⟩ := hcov.next hf _
    obtain ⟨p, hp, rfl⟩ := hwf.reads hcov hends
    exact ⟨p, .fallback ht hn (Table.lookup_eq_none_iff.mpr hk) he hp, rfl⟩
  | .closed hi he =>
    rw [Trace.tokens, Trace.tokensAll_append] at hcov
    obtain ⟨ps, hps, rfl⟩ := hi.reads (some _) hcov (fun h => nomatch h) (fun h => nomatch h)
      (by rintro _ ⟨⟩; exact he)
    exact ⟨_, .rep hps, rfl⟩
  | .unclosed hi =>
    rw [Trace.tokens, ← List.append_nil (Trace.tokensAll _)] at hcov
    obtain ⟨ps, hps, rfl⟩ := hi.reads none hcov (fun _ => rfl) (fun _ => hends rfl)
      (fun _ h => nomatch h)
    refine ⟨_, .rep hps, ?_⟩
    rw [Program.trace, Option.toList_none, List.map_nil, List.append_nil]

theorem WellFormedArgs.reads {v : Vocabulary ι W V} {es : List (Expr ι V)} {ends : Bool}
    {ts : List Trace} (h : WellFormedArgs v es ends ts) {c c' : Cursor}
    (hcov : c.Covers c' (Trace.tokensAll ts)) (hends : ends = true → c'.finished = true) :
    ∃ ps, ReadsArgs v es c (.accepted ps c') ∧ Program.traceAll ps = ts := by
  match h with
  | .nil =>
    cases hcov.eq_of_nil
    exact ⟨[], .nil, rfl⟩
  | .cons he hes =>
    obtain ⟨c₁, hcov₁, hcov₂⟩ := hcov.split
    obtain ⟨p, hp, rfl⟩ := he.reads hcov₁ (by
      rw [Bool.and_eq_true]
      rintro ⟨hends', hnone⟩
      rw [hcov₂.finished_eq, hends hends', hnone]
      rfl)
    obtain ⟨ps, hps, rfl⟩ := hes.reads hcov₂ hends
    exact ⟨p :: ps, .cons hp hps, rfl⟩

theorem WellFormedItems.reads {v : Vocabulary ι W V} {r : Repetition V} {child : Expr ι V}
    {ends : Bool} {ts : List Trace} (h : WellFormedItems v r child ends ts) (exit : Option Token)
    {c c' : Cursor} (hcov : c.Covers c' (Trace.tokensAll ts ++ exit.toList))
    (hends : ends = true → exit = none) (hfin : exit = none → c'.finished = true)
    (hexit : ∀ token, exit = some token → r.exit = some token.value) :
    ∃ ps, ReadsItems v r child c (.accepted (ps, exit) c') ∧ Program.traceAll ps = ts := by
  match h with
  | .nil =>
    cases exit with
    | none =>
      cases hcov.eq_of_nil
      exact ⟨[], .finished (hfin rfl), rfl⟩
    | some token =>
      obtain ⟨ahead, hn, hrest⟩ := hcov.next_cons ((Expr.rep r child).tag v.tag)
      cases hrest.eq_of_nil
      exact ⟨[], .exit hn (hexit token rfl), rfl⟩
  | .cons hf he hwf hrest =>
    rw [Trace.tokensAll, List.append_assoc] at hcov
    obtain ⟨c₁, hcov₁, hcov₂⟩ := hcov.split
    obtain ⟨ahead, hn⟩ := hcov₁.next hf ((Expr.rep r child).tag v.tag)
    obtain ⟨p, hp, rfl⟩ := hwf.reads hcov₁ (by
      rw [Bool.and_eq_true]
      rintro ⟨hends', hnone⟩
      have hexit' := hends hends'
      rw [hcov₂.finished_eq, hfin hexit', hexit', Option.toList_none, List.append_nil, hnone]
      rfl)
    obtain ⟨ps, hps, rfl⟩ := hrest.reads exit hcov₂ hends hfin hexit
    exact ⟨p :: ps, .item hn he hp hps, rfl⟩

end

/-! ## Whole programs -/

theorem Language.tokens_trace (l : Language ι W V) (p : Program ι W V) :
    (l.trace p).tokens = p.trace.tokens := by
  rw [Language.trace, Trace.tokens, Trace.tokensAll, Trace.tokensAll, List.append_nil]

/-- The trace of an accepted program is a tree of the root that has the words for its leaves. -/
theorem Language.wellFormed_of_parse {l : Language ι W V} {words : List String}
    {p : Program ι W V} {c : Cursor} (h : l.parse words = .accepted p c) :
    WellFormed l.vocabulary l.root true p.trace ∧ p.trace.tokens.map Token.value = words := by
  obtain ⟨hread, hf⟩ := Language.parse_eq_accepted.mp h
  obtain ⟨hwf, hcov⟩ := hread.wellFormed (Cursor.within_ofTokens words) rfl
  rw [hf] at hwf
  have hall : p.trace.tokens.length = words.length := by
    have hi := hcov.index_eq
    rw [Cursor.finished_iff, hcov.reaches.tokens_eq, hi] at hf
    simpa [Cursor.ofTokens] using hf
  refine ⟨hwf, ?_⟩
  rw [hcov.spells.map_value, hall]
  simp [Cursor.ofTokens]

/-- Reading inverts writing out the leaves of a program tree. The trace of an accepted program is
a program tree, and its leaves are the words that were read, in order and with their positions;
and the words of the leaves of any program tree are accepted, with that very tree as the trace. -/
theorem parse_inverts_leaves (l : Language ι W V) :
    (∀ words p c, l.parse words = .accepted p c →
      l.IsProgramTree (l.trace p) ∧ (l.trace p).tokens.map Token.value = words) ∧
    ∀ t, l.IsProgramTree t →
      ∃ p c, l.parse (t.tokens.map Token.value) = .accepted p c ∧ l.trace p = t := by
  constructor
  · intro words p c h
    obtain ⟨hread, hf⟩ := Language.parse_eq_accepted.mp h
    obtain ⟨hwf, hcov⟩ := hread.wellFormed (Cursor.within_ofTokens words) rfl
    rw [hf] at hwf
    have hpos := hcov.spells.map_position
    have hval := hcov.spells.map_value
    have hall : p.trace.tokens.length = words.length := by
      have hi := hcov.index_eq
      rw [Cursor.finished_iff, hcov.reaches.tokens_eq, hi] at hf
      simpa [Cursor.ofTokens] using hf
    refine ⟨⟨⟨p.trace, rfl, hwf⟩, ?_⟩, ?_⟩
    · rw [l.tokens_trace, hpos, List.range_eq_range']
      rfl
    · rw [l.tokens_trace, hval, hall]
      simp [Cursor.ofTokens]
  · rintro t ⟨⟨body, rfl, hwf⟩, hpos⟩
    have htokens : (Trace.branch l.tag [body]).tokens = body.tokens := by
      rw [Trace.tokens, Trace.tokensAll, Trace.tokensAll, List.append_nil]
    rw [htokens] at hpos ⊢
    rw [List.range_eq_range'] at hpos
    have hs : Spells (body.tokens.map Token.value) 0 body.tokens := spells_of_positions [] hpos
    have hcov : (Cursor.ofTokens (body.tokens.map Token.value)).Covers
        ⟨body.tokens.map Token.value, body.tokens.length⟩ body.tokens :=
      ⟨⟨rfl, Nat.zero_le _, by simp [Cursor.ofTokens]⟩, by simp [Cursor.ofTokens], hs⟩
    have hf : Cursor.finished ⟨body.tokens.map Token.value, body.tokens.length⟩ = true := by
      simp [Cursor.finished]
    obtain ⟨p, hp, rfl⟩ := hwf.reads hcov fun _ => hf
    exact ⟨p, _, Language.parse_eq_accepted.mpr ⟨hp, hf⟩, rfl⟩

namespace Demo.Toolbox

/-- The tree of `writeFile out.txt join , a b -`. -/
def joinTree : Trace :=
  .branch "l.toolbox" [.branch "command" [.leaf "fn" ⟨"writeFile", 0⟩,
    .leaf "string" ⟨"out.txt", 1⟩,
    .branch "source" [.leaf "fn" ⟨"join", 2⟩, .leaf "string" ⟨",", 3⟩,
      .branch "r.string" [.leaf "string" ⟨"a", 4⟩, .leaf "string" ⟨"b", 5⟩,
        .leaf "r.string.exit" ⟨"-", 6⟩]]]]

theorem isProgramTree_joinTree : language.IsProgramTree joinTree := by
  have hwords : WellFormed vocabulary words true (.branch "r.string"
      ([.leaf "string" ⟨"a", 4⟩, .leaf "string" ⟨"b", 5⟩] ++ [.leaf "r.string.exit" ⟨"-", 6⟩])) :=
    .closed (.cons rfl (by decide) (.literal rfl) (.cons rfl (by decide) (.literal rfl) .nil)) rfl
  exact ⟨⟨_, rfl, .call rfl rfl (.cons (.literal rfl) (.cons
    (.call rfl rfl (.cons (.literal rfl) (.cons hwords .nil))) .nil))⟩, rfl⟩

end Demo.Toolbox

/-- The leaves of a tree with a closed list inside a call are read back to the tree. -/
theorem parse_inverts_leaves_joinTree :
    Demo.Toolbox.language.IsProgramTree Demo.Toolbox.joinTree ∧
      ∃ p c, Demo.Toolbox.language.parse ["writeFile", "out.txt", "join", ",", "a", "b", "-"] =
        .accepted p c ∧ Demo.Toolbox.language.trace p = Demo.Toolbox.joinTree :=
  ⟨Demo.Toolbox.isProgramTree_joinTree,
    (parse_inverts_leaves Demo.Toolbox.language).2 Demo.Toolbox.joinTree
      Demo.Toolbox.isProgramTree_joinTree⟩

end Parlance
