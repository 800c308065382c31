import Parlance.Demo.Calc
import Parlance.Proofs.Reading.Locality
import Parlance.Proofs.Running.Causality

/-
  Closing a list at the end of the input. A list ends with its exit word or with the input, and
  at the end of the input several lists can end together, one inside the other or one behind the
  other. If the exit word of the first of them is added to the input, this list takes it: what was
  read before is closed, so that it is read again as it was (`Reads.on`), and all that stands
  behind the list are lists without items, which end at the new end as they did at the old one
  (`Reads.at_end`). The lists around it go on behind the added word, and end there.

  `Program.stops` has the lists of a program in the order in which they came to an end. Each is
  found in the trace by its path, and `Trace.grow` adds a node to the branch at a path.
-/

namespace Parlance

variable {ι W V : Type}

/-! ## Places in a trace -/

namespace Trace

/-- The trace at a path of child indices. -/
def at? : Trace → List Nat → Option Trace
  | t, [] => some t
  | leaf .., _ :: _ => none
  | branch _ children, i :: path => children[i]?.bind fun t => t.at? path

/-- Adds a last child to the branch at a path. -/
def grow : Trace → List Nat → Trace → Trace
  | leaf tag token, _, _ => leaf tag token
  | branch tag children, [], child => branch tag (children ++ [child])
  | branch tag children, i :: path, child =>
    branch tag (children.modify i fun t => t.grow path child)

theorem at?_branch (tag : String) (before : List Trace) (t : Trace) (after : List Trace)
    (path : List Nat) :
    (branch tag (before ++ t :: after)).at? (before.length :: path) = t.at? path := by
  rw [at?, List.getElem?_append_right (Nat.le_refl _), Nat.sub_self]
  rfl

theorem grow_branch (tag : String) (before : List Trace) (t : Trace) (after : List Trace)
    (path : List Nat) (child : Trace) :
    (branch tag (before ++ t :: after)).grow (before.length :: path) child =
      branch tag (before ++ t.grow path child :: after) := by
  rw [grow]
  exact congrArg (branch tag) (List.modifyTailIdx_add _ 0 before (t :: after))

end Trace

/-! ## How lists came to an end -/

/-- A list that came to an end: where its branch stands in the trace, and the exit word that was
read. Without one it was the end of the input. -/
structure Stop (V : Type) where
  path : List Nat
  tag : String
  repetition : Repetition V
  exit : Option Token

namespace Stop

/-- The same list, seen from the node that has it below its child at the index. -/
def under (i : Nat) (s : Stop V) : Stop V := { s with path := i :: s.path }

/-- The end of the input ended the list. -/
def ranOut (s : Stop V) : Bool := s.exit.isNone

end Stop

namespace Program

mutual

/-- The lists of a program in the order in which they came to an end: the lists in the items of a
list before the list itself. The keyword of a call is its first child. -/
def stops : Program ι W V → List (Stop V)
  | literal .. => []
  | call _ _ _ args => stopsAll args 1
  | list tag r items exit => stopsAll items 0 ++ [⟨[], tag, r, exit⟩]
termination_by structural p => p

/-- The lists of several programs, which are children from the index on. -/
def stopsAll : List (Program ι W V) → Nat → List (Stop V)
  | [], _ => []
  | p :: rest, i => p.stops.map (Stop.under i) ++ stopsAll rest (i + 1)
termination_by structural ps => ps

end

/-- The first list that the end of the input ended. -/
def firstOpen? (p : Program ι W V) : Option (Stop V) := p.stops.find? Stop.ranOut

/-- The first such list in several programs. -/
def firstOpenAll? (ps : List (Program ι W V)) (i : Nat) : Option (Stop V) :=
  (stopsAll ps i).find? Stop.ranOut

theorem firstOpenAll?_cons (p : Program ι W V) (ps : List (Program ι W V)) (i : Nat) :
    firstOpenAll? (p :: ps) i =
      (p.firstOpen?.map (Stop.under i)).or (firstOpenAll? ps (i + 1)) := by
  rw [firstOpenAll?, stopsAll, List.find?_append, List.find?_map]
  rfl

theorem firstOpen?_list (tag : String) (r : Repetition V) (items : List (Program ι W V))
    (exit : Option Token) :
    (list tag r items exit).firstOpen? =
      (firstOpenAll? items 0).or (if exit.isNone then some ⟨[], tag, r, exit⟩ else none) := by
  rw [firstOpen?, stops, List.find?_append, List.find?_cons, List.find?_nil]
  unfold Stop.ranOut
  cases exit <;> rfl

mutual

/-- A program is closed if the end of the input has ended no list. -/
theorem firstOpen?_eq_none_iff (p : Program ι W V) : p.firstOpen? = none ↔ p.Closed := by
  match p with
  | literal tag token value => exact iff_of_true rfl trivial
  | call tag keyword rule args => exact firstOpenAll?_eq_none_iff args 1
  | list tag r items exit =>
    rw [firstOpen?_list, Option.or_eq_none_iff, firstOpenAll?_eq_none_iff items 0, Closed]
    cases exit <;> simp
termination_by structural p

theorem firstOpenAll?_eq_none_iff (ps : List (Program ι W V)) (i : Nat) :
    firstOpenAll? ps i = none ↔ ClosedAll ps := by
  match ps with
  | [] => exact iff_of_true rfl trivial
  | p :: ps =>
    rw [firstOpenAll?_cons, Option.or_eq_none_iff, Option.map_eq_none_iff,
      firstOpen?_eq_none_iff p, firstOpenAll?_eq_none_iff ps (i + 1), ClosedAll]
termination_by structural ps

end

mutual

/-- The branch of a list stands in the trace at its path. -/
theorem exists_at?_of_mem_stops (p : Program ι W V) {s : Stop V} (hs : s ∈ p.stops) :
    ∃ children, p.trace.at? s.path = some (.branch s.tag children) := by
  match p with
  | literal tag token value => cases hs
  | call tag keyword rule args =>
    have hargs := exists_at?_of_mem_stopsAll args [.leaf "fn" keyword] [] tag hs
    rwa [List.append_nil] at hargs
  | list tag r items exit =>
    rw [stops, List.mem_append] at hs
    rw [trace]
    rcases hs with hs | hs
    · exact exists_at?_of_mem_stopsAll items [] _ tag hs
    · obtain rfl := List.mem_singleton.mp hs
      exact ⟨_, rfl⟩
termination_by structural p

theorem exists_at?_of_mem_stopsAll (ps : List (Program ι W V)) (before after : List Trace)
    (tag : String) {s : Stop V} (hs : s ∈ stopsAll ps before.length) :
    ∃ children, (Trace.branch tag (before ++ (traceAll ps ++ after))).at? s.path =
      some (.branch s.tag children) := by
  match ps with
  | [] => cases hs
  | p :: ps =>
    rw [stopsAll, List.mem_append] at hs
    rw [traceAll, List.cons_append]
    rcases hs with hs | hs
    · obtain ⟨s₀, hs₀, rfl⟩ := List.mem_map.mp hs
      obtain ⟨children, hat⟩ := exists_at?_of_mem_stops p hs₀
      exact ⟨children, (Trace.at?_branch ..).trans hat⟩
    · have hrest := exists_at?_of_mem_stopsAll ps (before ++ [p.trace]) after tag
        (by rwa [List.length_append])
      rwa [List.append_assoc] at hrest
termination_by structural ps

end

/-! ## Programs that differ in one exit word -/

/-- Whatever it means to call a rule, the programs do the same. -/
def SameWork (p q : Program ι W V) : Prop :=
  ∀ (W' : Type) (invoke : Token → Rule ι W V → List V → Job W' V V),
    p.jobWith invoke = q.jobWith invoke

/-- The second program is the first, in which the list has read the token as its exit word. -/
structure Shut (s : Stop V) (token : Token) (p q : Program ι W V) : Prop where
  trace : q.trace = p.trace.grow s.path (.leaf (s.tag ++ ".exit") token)
  work : q.SameWork p

/-- The same of several programs, which are children from the index on. -/
structure ShutAll (i : Nat) (s : Stop V) (token : Token) (ps qs : List (Program ι W V)) : Prop where
  trace (tag : String) (before after : List Trace) : before.length = i →
    Trace.branch tag (before ++ (traceAll qs ++ after)) =
      (Trace.branch tag (before ++ (traceAll ps ++ after))).grow s.path
        (.leaf (s.tag ++ ".exit") token)
  work (W' : Type) (invoke : Token → Rule ι W V → List V → Job W' V V) :
    jobAllWith invoke qs = jobAllWith invoke ps

variable {s : Stop V} {token : Token}

theorem Shut.head {p q : Program ι W V} (h : Shut s token p q) (i : Nat)
    (ps : List (Program ι W V)) : ShutAll i (s.under i) token (p :: ps) (q :: ps) where
  trace tag before after hbefore := by
    subst hbefore
    rw [traceAll, traceAll, List.cons_append, List.cons_append, h.trace]
    exact (Trace.grow_branch ..).symm
  work W' invoke := by rw [jobAllWith, jobAllWith, h.work W' invoke]

theorem ShutAll.tail {i : Nat} {ps qs : List (Program ι W V)} (h : ShutAll (i + 1) s token ps qs)
    (p : Program ι W V) : ShutAll i s token (p :: ps) (p :: qs) where
  trace tag before after hbefore := by
    have hrest := h.trace tag (before ++ [p.trace]) after (by rw [List.length_append, hbefore]; rfl)
    rw [List.append_assoc, List.append_assoc] at hrest
    exact hrest
  work W' invoke := by rw [jobAllWith, jobAllWith, h.work W' invoke]

theorem ShutAll.call {args args' : List (Program ι W V)} (h : ShutAll 1 s token args args')
    (tag : String) (keyword : Token) (rule : Rule ι W V) :
    Shut s token (.call tag keyword rule args) (.call tag keyword rule args') where
  trace := by
    have hargs := h.trace tag [.leaf "fn" keyword] [] rfl
    rw [List.append_nil, List.append_nil] at hargs
    exact hargs
  work W' invoke := by rw [jobWith, jobWith, h.work W' invoke]

theorem ShutAll.list {items items' : List (Program ι W V)} (h : ShutAll 0 s token items items')
    (tag : String) (r : Repetition V) (exit : Option Token) :
    Shut s token (.list tag r items exit) (.list tag r items' exit) where
  trace := h.trace tag [] _ rfl
  work W' invoke := by rw [jobWith, jobWith, h.work W' invoke]

/-- A list reads its exit word behind its items, and does what it did. -/
theorem Shut.list (tag : String) (r : Repetition V) (items : List (Program ι W V))
    (token : Token) :
    Shut ⟨[], tag, r, none⟩ token (.list tag r items none) (.list tag r items (some token)) where
  trace := by
    rw [Program.trace, Program.trace, Option.toList_none, List.map_nil, List.append_nil]
    rfl
  work W' invoke := by rw [jobWith, jobWith]

end Program

/-! ## Reading on at the end of the input -/

/-- At the end of the input there is no word to read. -/
theorem Cursor.not_next_of_finished {c ahead : Cursor} (hf : c.finished = true)
    {expected : String} {token : Token} : c.next expected ≠ .ok (token, ahead) := by
  intro hn
  rw [next_of_finished hf] at hn
  cases hn

theorem ReadsItems.at_end {v : Vocabulary ι W V} {r : Repetition V} {child : Expr ι V}
    {c : Cursor} {reply : Reply (List (Program ι W V) × Option Token)}
    (h : ReadsItems v r child c reply) {ps : List (Program ι W V)} {exit : Option Token}
    {c' : Cursor} (hr : reply = .accepted (ps, exit) c') (hf : c.finished = true) {d : Cursor}
    (hd : d.finished = true) : c' = c ∧ ReadsItems v r child d (.accepted (ps, exit) d) := by
  cases h with
  | finished _ =>
    cases hr
    exact ⟨rfl, .finished hd⟩
  | exit hn _ | item hn _ _ _ | failed hn _ _ => exact absurd hn (Cursor.not_next_of_finished hf)

/-- What is accepted at the end of the input is accepted at the end of any input. -/
theorem Reads.at_end {v : Vocabulary ι W V} {e : Expr ι V} {c : Cursor}
    {r : Reply (Program ι W V)} (h : Reads v e c r) {p : Program ι W V} {c' : Cursor}
    (hr : r = .accepted p c') (hf : c.finished = true) {d : Cursor} (hd : d.finished = true) :
    c' = c ∧ Reads v e d (.accepted p d) := by
  cases h with
  | prim =>
    obtain ⟨token, value, hn, -, -⟩ := Primitive.parse_eq_accepted hr
    exact absurd hn (Cursor.not_next_of_finished hf)
  | undefined _ | exhausted _ _ | unexpected _ _ _ _ => cases hr
  | keyword _ hn _ _ | fallback _ hn _ _ _ => exact absurd hn (Cursor.not_next_of_finished hf)
  | rep hitems =>
    obtain ⟨⟨items, exit⟩, hreply, rfl⟩ := Reply.map_eq_accepted hr
    obtain ⟨hend, hread⟩ := hitems.at_end hreply hf hd
    exact ⟨hend, .rep hread⟩

theorem ReadsArgs.at_end {v : Vocabulary ι W V} {es : List (Expr ι V)} {c c' : Cursor}
    {r : Reply (List (Program ι W V))} (h : ReadsArgs v es c r) {ps : List (Program ι W V)}
    (hr : r = .accepted ps c') (hf : c.finished = true) {d : Cursor} (hd : d.finished = true) :
    ReadsArgs v es d (.accepted ps d) := by
  induction es generalizing c r ps with
  | nil =>
    cases h
    cases hr
    exact .nil
  | cons e es ih =>
    cases h with
    | cons he hes =>
      obtain ⟨ps, hps, rfl⟩ := Reply.map_eq_accepted hr
      obtain ⟨rfl, hread⟩ := he.at_end rfl hf hd
      exact .cons hread (ih hes hps hf)
    | failed _ => cases hr

/-- What was read with a list that the end of the input ended stands at that end. -/
theorem Reads.finished_of_firstOpen? {v : Vocabulary ι W V} {e : Expr ι V} {c c' : Cursor}
    {p : Program ι W V} (h : Reads v e c (.accepted p c')) (hc : c.Within) {s : Stop V}
    (hs : p.firstOpen? = some s) : c'.finished = true := by
  have hreach := (h.advances hc).1
  rw [Cursor.finished_iff, hreach.tokens_eq]
  by_contra hne
  have hle := hreach.within
  have hclosed := (Program.firstOpen?_eq_none_iff p).mpr (h.closed hc rfl (by omega))
  rw [hs] at hclosed
  cases hclosed

theorem Cursor.starts_append {c : Cursor} {tokens : List String} (h : c.tokens = tokens)
    (more : List String) : c.Starts (tokens ++ more) := by
  rw [← h]
  exact (List.take_prefix _ _).trans (List.prefix_append _ _)

/-- The words that were read are read again when more stand behind the input. -/
theorem Cursor.next_on_append {c ahead : Cursor} {tokens : List String} (h : c.tokens = tokens)
    {expected : String} {token : Token} (hn : c.next expected = .ok (token, ahead))
    (more : List String) :
    (c.on (tokens ++ more)).next expected = .ok (token, ahead.on (tokens ++ more)) :=
  next_on hn (starts_append ((next_reaches hn).1.tokens_eq.trans h) more)

theorem Cursor.finished_append (tokens : List String) (word : String) :
    Cursor.finished ⟨tokens ++ [word], tokens.length + 1⟩ = true := by
  rw [finished_iff, List.length_append]
  rfl

theorem Cursor.next_append {c : Cursor} {tokens : List String} (h : c.tokens = tokens)
    (hf : c.finished = true) (word expected : String) :
    (c.on (tokens ++ [word])).next expected =
      .ok (⟨word, tokens.length⟩, ⟨tokens ++ [word], tokens.length + 1⟩) := by
  rw [finished_iff, h] at hf
  have hword : (tokens ++ [word])[tokens.length]? = some word := by
    rw [List.getElem?_append_right (Nat.le_refl _), Nat.sub_self, List.getElem?_cons_zero]
  rw [on, hf]
  exact next_of_getElem? hword expected

/-- A list all of whose items are closed, and which the end of the input has ended, takes its exit
word when it is added. -/
theorem ReadsItems.take {v : Vocabulary ι W V} {r : Repetition V} {child : Expr ι V} {c : Cursor}
    {reply : Reply (List (Program ι W V) × Option Token)} (h : ReadsItems v r child c reply)
    (hc : c.Within) {ps : List (Program ι W V)} {c' : Cursor} (hr : reply = .accepted (ps, none) c')
    (hps : Program.ClosedAll ps) {x : String} (hx : r.exit = some x) {tokens : List String}
    (ht : c.tokens = tokens) :
    ReadsItems v r child (c.on (tokens ++ [x]))
      (.accepted (ps, some ⟨x, tokens.length⟩) ⟨tokens ++ [x], tokens.length + 1⟩) := by
  match h with
  | .finished hf =>
    cases hr
    exact .exit (Cursor.next_append ht hf x _) hx
  | .exit _ _ => cases hr
  | .item hn he hp hi =>
    obtain ⟨⟨ps, exit⟩, hrest, e⟩ := Reply.map_eq_accepted hr
    cases e
    have hreach := (hp.advances hc).1
    have ht' := hreach.tokens_eq.trans ht
    have hnext := Cursor.next_on_append ht hn [x]
    exact .item hnext he (hp.on hc rfl hps.1 (Cursor.starts_append ht' [x]))
      (hi.take hreach.within_right hrest hps.2 hx ht')
  | .failed _ _ _ => cases hr

mutual

/-- If the exit word of the first open list is added to the input, that list takes it. -/
theorem Reads.shut {v : Vocabulary ι W V} {e : Expr ι V} {c : Cursor} {r : Reply (Program ι W V)}
    (h : Reads v e c r) (hc : c.Within) {p : Program ι W V} {c' : Cursor}
    (hr : r = .accepted p c') {s : Stop V} (hs : p.firstOpen? = some s) {x : String}
    (hx : s.repetition.exit = some x) {tokens : List String} (ht : c.tokens = tokens) :
    ∃ q, Reads v e (c.on (tokens ++ [x])) (.accepted q ⟨tokens ++ [x], tokens.length + 1⟩) ∧
      Program.Shut s ⟨x, tokens.length⟩ p q := by
  match h with
  | .prim =>
    obtain ⟨token, value, -, -, rfl⟩ := Primitive.parse_eq_accepted hr
    cases hs
  | .undefined _ | .exhausted _ _ | .unexpected _ _ _ _ => cases hr
  | .keyword htable hn hl ha =>
    obtain ⟨args, hargs, rfl⟩ := Reply.map_eq_accepted hr
    have hahead := (Cursor.next_reaches hn).1
    have ht' := hahead.tokens_eq.trans ht
    obtain ⟨args', hread, hshut⟩ := ha.shut hahead.within_right hargs hs hx ht'
    have hnext := Cursor.next_on_append ht hn [x]
    exact ⟨_, .keyword htable hnext hl hread, hshut.call ..⟩
  | .fallback htable hn hl he hrest =>
    obtain ⟨q, hread, hshut⟩ := hrest.shut hc (Reply.mapError_eq_accepted hr) hs hx ht
    have hnext := Cursor.next_on_append ht hn [x]
    exact ⟨q, .fallback htable hnext hl he hread, hshut⟩
  | .rep hitems =>
    obtain ⟨⟨items, exit⟩, hreply, rfl⟩ := Reply.map_eq_accepted hr
    -- the lists in the items came to an end before this one
    rw [Program.firstOpen?_list] at hs
    cases hitem : Program.firstOpenAll? items 0 with
    | some s' =>
      rw [hitem] at hs
      cases hs
      obtain ⟨items', hread, hshut⟩ := hitems.shut hc hreply hitem hx ht
      exact ⟨_, .rep hread, hshut.list ..⟩
    | none =>
      rw [hitem] at hs
      cases exit with
      | some token => cases hs
      | none =>
        cases hs
        have hclosed := (Program.firstOpenAll?_eq_none_iff items 0).mp hitem
        exact ⟨_, .rep (hitems.take hc hreply hclosed hx ht), .list ..⟩

theorem ReadsArgs.shut {v : Vocabulary ι W V} {es : List (Expr ι V)} {c : Cursor}
    {r : Reply (List (Program ι W V))} (h : ReadsArgs v es c r) (hc : c.Within)
    {ps : List (Program ι W V)} {c' : Cursor} (hr : r = .accepted ps c') {i : Nat} {s : Stop V}
    (hs : Program.firstOpenAll? ps i = some s) {x : String} (hx : s.repetition.exit = some x)
    {tokens : List String} (ht : c.tokens = tokens) :
    ∃ qs, ReadsArgs v es (c.on (tokens ++ [x]))
        (.accepted qs ⟨tokens ++ [x], tokens.length + 1⟩) ∧
      Program.ShutAll i s ⟨x, tokens.length⟩ ps qs := by
  match h with
  | .nil =>
    cases hr
    cases hs
  | .cons (p := p) he hes =>
    obtain ⟨ps, hps, rfl⟩ := Reply.map_eq_accepted hr
    have hreach := (he.advances hc).1
    have ht' := hreach.tokens_eq.trans ht
    rw [Program.firstOpenAll?_cons] at hs
    cases hfirst : p.firstOpen? with
    | some s' =>
      rw [hfirst] at hs
      cases hs
      -- what stands behind the first argument was read at the end of the input
      obtain ⟨q, hread, hshut⟩ := he.shut hc rfl hfirst hx ht
      have hf := he.finished_of_firstOpen? hc hfirst
      exact ⟨_, .cons hread (hes.at_end hps hf (Cursor.finished_append tokens x)),
        hshut.head i ps⟩
    | none =>
      rw [hfirst] at hs
      obtain ⟨qs, hread, hshut⟩ := hes.shut hreach.within_right hps hs hx ht'
      have hclosed := (Program.firstOpen?_eq_none_iff p).mp hfirst
      exact ⟨_, .cons (he.on hc rfl hclosed (Cursor.starts_append ht' [x])) hread, hshut.tail p⟩
  | .failed _ => cases hr

theorem ReadsItems.shut {v : Vocabulary ι W V} {r : Repetition V} {child : Expr ι V} {c : Cursor}
    {reply : Reply (List (Program ι W V) × Option Token)} (h : ReadsItems v r child c reply)
    (hc : c.Within) {ps : List (Program ι W V)} {exit : Option Token} {c' : Cursor}
    (hr : reply = .accepted (ps, exit) c') {i : Nat} {s : Stop V}
    (hs : Program.firstOpenAll? ps i = some s) {x : String} (hx : s.repetition.exit = some x)
    {tokens : List String} (ht : c.tokens = tokens) :
    ∃ qs, ReadsItems v r child (c.on (tokens ++ [x]))
        (.accepted (qs, exit) ⟨tokens ++ [x], tokens.length + 1⟩) ∧
      Program.ShutAll i s ⟨x, tokens.length⟩ ps qs := by
  match h with
  | .finished _ | .exit _ _ =>
    cases hr
    cases hs
  | .item (p := p) hn he hp hi =>
    obtain ⟨⟨ps, exit⟩, hps, e⟩ := Reply.map_eq_accepted hr
    cases e
    have hreach := (hp.advances hc).1
    have ht' := hreach.tokens_eq.trans ht
    have hnext := Cursor.next_on_append ht hn [x]
    rw [Program.firstOpenAll?_cons] at hs
    cases hfirst : p.firstOpen? with
    | some s' =>
      rw [hfirst] at hs
      cases hs
      obtain ⟨q, hread, hshut⟩ := hp.shut hc rfl hfirst hx ht
      have hf := hp.finished_of_firstOpen? hc hfirst
      exact ⟨_, .item hnext he hread (hi.at_end hps hf (Cursor.finished_append tokens x)).2,
        hshut.head i ps⟩
    | none =>
      rw [hfirst] at hs
      obtain ⟨qs, hread, hshut⟩ := hi.shut hreach.within_right hps hs hx ht'
      have hclosed := (Program.firstOpen?_eq_none_iff p).mp hfirst
      exact ⟨_, .item hnext he (hp.on hc rfl hclosed (Cursor.starts_append ht' [x])) hread,
        hshut.tail p⟩
  | .failed _ _ _ => cases hr

end

/-- The exit word is optional at the end of the input. If lists of an accepted program were ended
by the end of the input, and the first of them to end has an exit word, the program is accepted
with that word added. The word is read as the exit word of that list and stands as the last child
of its branch, and nothing else changes in the trace. The program does the same: it makes the same
calls, on every schedule, and gives the same result. -/
theorem closing_word_is_optional (l : Language ι W V) (words : List String) (p : Program ι W V)
    (c : Cursor) (s : Stop V) (x : String) (h : l.parse words = .accepted p c)
    (hs : p.firstOpen? = some s) (hx : s.repetition.exit = some x) :
    (∃ children, (l.trace p).at? (0 :: s.path) = some (.branch s.tag children)) ∧
      ∃ q, l.parse (words ++ [x]) = .accepted q ⟨words ++ [x], words.length + 1⟩ ∧
        l.trace q = (l.trace p).grow (0 :: s.path) (.leaf (s.tag ++ ".exit") ⟨x, words.length⟩) ∧
        q.observed = p.observed ∧ q.job = p.job := by
  obtain ⟨hread, -⟩ := Language.parse_eq_accepted.mp h
  constructor
  · exact p.exists_at?_of_mem_stops (List.mem_of_find?_eq_some hs)
  · obtain ⟨q, hq, hshut⟩ := hread.shut (Cursor.within_ofTokens words) rfl hs hx rfl
    refine ⟨q, Language.parse_eq_accepted.mpr ⟨hq, Cursor.finished_append words x⟩, ?_,
      hshut.work _ _, hshut.work _ _⟩
    exact congrArg (fun t => Trace.branch l.tag [t]) hshut.trace

/-- Of two arrays that end together the inner one takes the `-`, and the outer one ends with the
input. -/
theorem closing_word_is_optional_calc :
    ∃ p s, Demo.Calc.language.parse ["sum", "pi", "sum", "pi"] =
        .accepted p ⟨["sum", "pi", "sum", "pi"], 4⟩ ∧
      p.firstOpen? = some s ∧ s.path = [1, 1, 1] ∧ s.repetition.exit = some "-" ∧
      ∃ q, Demo.Calc.language.parse ["sum", "pi", "sum", "pi", "-"] =
          .accepted q ⟨["sum", "pi", "sum", "pi", "-"], 5⟩ ∧
        Demo.Calc.language.trace q =
          .branch "l.calc" [.branch "value" [.leaf "fn" ⟨"sum", 0⟩,
            .branch "r.value" [.branch "value" [.leaf "fn" ⟨"pi", 1⟩],
              .branch "value" [.leaf "fn" ⟨"sum", 2⟩,
                .branch "r.value" [.branch "value" [.leaf "fn" ⟨"pi", 3⟩],
                  .leaf "r.value.exit" ⟨"-", 4⟩]]]]] ∧
        q.job = p.job := by
  refine ⟨_, _, rfl, rfl, rfl, rfl, ?_⟩
  obtain ⟨-, q, hparse, htrace, -, hjob⟩ :=
    closing_word_is_optional Demo.Calc.language ["sum", "pi", "sum", "pi"] _ _ _ "-" rfl rfl rfl
  exact ⟨q, hparse, htrace, hjob⟩

end Parlance
