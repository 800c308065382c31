import Parlance.Demo.Calc
import Parlance.Proofs.Graph
import Parlance.Proofs.Reading.Rules

/-
  Reading comes to an end. The measure is the number of words that remain and, as long as no word
  is read, the length of the silent path that is left: an argument and every item but the first
  are read behind a word, a fallback and the first item are one silent reference further. That an
  item has read a word is `Reads.advances`.
-/

namespace Parlance

variable {ι W V : Type}

theorem exists_readsArgs {v : Vocabulary ι W V} (es : List (Expr ι V)) {c : Cursor}
    (hc : c.Within) (h : ∀ e ∈ es, ∀ c', c.Reaches c' → ∃ r, Reads v e c' r) :
    ∃ r, ReadsArgs v es c r := by
  induction es generalizing c with
  | nil => exact ⟨_, .nil⟩
  | cons e es ih =>
    obtain ⟨r, hr⟩ := h e (by simp) c (Cursor.Reaches.refl hc)
    have hadv := hr.advances hc
    cases r with
    | accepted p c' =>
      obtain ⟨r', hr'⟩ := ih hadv.1.within_right
        fun e' he' c'' hre => h e' (by simp [he']) c'' (hadv.1.trans hre)
      exact ⟨_, .cons hr hr'⟩
    | rejected error c' => exact ⟨_, .failed hr⟩
    | endless => exact absurd rfl hr.ne_endless

/-- The loop of a repetition ends if its child can be read here and at every later place. -/
theorem exists_readsItems {v : Vocabulary ι W V} (r : Repetition V) (child : Expr ι V)
    {c : Cursor} (hc : c.Within) (hfirst : ∃ reply, Reads v child c reply)
    (hlater : ∀ c', c.Reaches c' → c.index < c'.index → ∃ reply, Reads v child c' reply) :
    ∃ reply, ReadsItems v r child c reply := by
  induction hn : c.remaining using Nat.strong_induction_on generalizing c with
  | _ n ih =>
    by_cases hf : c.finished = true
    · exact ⟨_, .finished hf⟩
    · obtain ⟨token, ahead, hnext⟩ := Cursor.exists_next hc hf ((Expr.rep r child).tag v.tag)
      by_cases hexit : r.exit = some token.value
      · exact ⟨_, .exit hnext hexit⟩
      · obtain ⟨reply, hreply⟩ := hfirst
        have hadv := hreply.advances hc
        cases reply with
        | accepted p c' =>
          have hlt : c.index < c'.index := hadv.index_lt hnext
          have hless : c'.remaining < n := hn ▸ hadv.1.remaining_lt hlt
          obtain ⟨rest, hrest⟩ := ih _ hless hadv.1.within_right (hlater c' hadv.1 hlt)
            (fun c'' hr' hlt' => hlater c'' (hadv.1.trans hr') (Nat.lt_trans hlt hlt')) rfl
          exact ⟨_, .item hnext hexit hreply hrest⟩
        | rejected error c' => exact ⟨_, .failed hnext hexit hreply⟩
        | endless => exact absurd rfl hreply.ne_endless

theorem Vocabulary.Grounded.exists_reads {v : Vocabulary ι W V} {e : Expr ι V}
    (h : v.Grounded e) {c : Cursor} (hc : c.Within) : ∃ r, Reads v e c r := by
  induction hn : c.remaining using Nat.strong_induction_on generalizing e c with
  | _ n ihWords =>
    -- Every expression that can be reached is read behind the words that `c` has before it.
    have hlater : ∀ e', v.Reachable e e' → ∀ c', c.Reaches c' → c.index < c'.index →
        ∃ r, Reads v e' c' r := fun e' he' c' hr hlt =>
      ihWords _ (hn ▸ hr.remaining_lt hlt) (h.of_reachable he') hr.within_right rfl
    induction h.acc with
    | intro e _ ihSilent =>
      have hstep : ∀ e', v.Silent e e' → ∃ r, Reads v e' c r := by
        intro e' hs
        have hre : v.Reachable e e' := .of_silent hs
        exact ihSilent e' hs (h.of_reachable hre)
          fun e'' he'' => hlater e'' (hre.trans he'')
      cases e with
      | prim p => exact ⟨_, .prim⟩
      | rep r child =>
        obtain ⟨reply, hreply⟩ := exists_readsItems r child hc (hstep child .item)
          (hlater child (.of_silent .item))
        exact ⟨_, .rep hreply⟩
      | type name =>
        cases ht : v.table name with
        | none => exact ⟨_, .undefined ht⟩
        | some table =>
          cases hnext : c.next (v.tag name) with
          | error error => exact ⟨_, .exhausted ht hnext⟩
          | ok pair =>
            obtain ⟨token, ahead⟩ := pair
            obtain ⟨hr, hlt⟩ := Cursor.next_reaches hnext
            cases hl : table.lookup token.value with
            | some rule =>
              have hmem : rule ∈ table.rules := List.mem_of_find?_eq_some hl
              obtain ⟨r, hargs⟩ := exists_readsArgs rule.args hr.within_right
                fun e' he' c' hr' => hlater e' (.of_argument ht hmem he') c' (hr.trans hr')
                  (Nat.lt_of_lt_of_le hlt hr'.le)
              exact ⟨_, .keyword ht hnext hl hargs⟩
            | none =>
              cases hfb : table.fallback with
              | some e' =>
                obtain ⟨r, hfall⟩ := hstep e' (.fallback ht hfb)
                exact ⟨_, .fallback ht hnext hl hfb hfall⟩
              | none => exact ⟨_, .unexpected ht hnext hl hfb⟩

/-- A language whose silent references form no cycle accepts words or refuses them. -/
theorem Language.parse_ne_endless {l : Language ι W V} (h : l.vocabulary.Grounded l.root)
    (words : List String) : l.parse words ≠ .endless := by
  have hc := Cursor.within_ofTokens words
  obtain ⟨r, hr⟩ := h.exists_reads hc
  unfold Language.parse Language.parseFrom
  rw [((reads_iff hc).mp hr).1]
  cases r with
  | accepted p c =>
    simp only [Reply.andThen]
    split <;> simp
  | rejected error c => simp [Reply.andThen]
  | endless => exact absurd rfl hr.ne_endless

/-- Reading terminates: where silent references form no cycle, every expression, read from any
place of any list of words, gives a reply that is derived by the rules of reading. The derivation
is finite, and so is every repetition in it, whose rounds are its `ReadsItems` nodes. Neither the
depth to which `Expr.parse` opens types nor its bound on the rounds has cut anything off. -/
theorem parse_terminates (v : Vocabulary ι W V) (e : Expr ι V) (h : v.Grounded e)
    (tokens : List String) (i : Nat) (hi : i ≤ tokens.length) :
    e.parse v ⟨tokens, i⟩ ≠ .endless ∧ Reads v e ⟨tokens, i⟩ (e.parse v ⟨tokens, i⟩) := by
  have hc : Cursor.Within ⟨tokens, i⟩ := hi
  obtain ⟨r, hr⟩ := h.exists_reads hc
  obtain ⟨rfl, hne⟩ := (reads_iff hc).mp hr
  exact ⟨hne, hr⟩

namespace Demo.Calc

/-- The number of silent references that can follow an expression of the calculator. -/
def silentRank : Expr Name Value → Nat
  | .prim _ => 0
  | .type .value | .type .boolean => 1
  | .type .arr => 3
  | .rep _ child => silentRank child + 1

theorem grounded (e : Expr Name Value) : vocabulary.Grounded e := by
  refine Vocabulary.Grounded.of_rank silentRank fun e e' hs => ?_
  cases hs with
  | item => exact Nat.lt_succ_self _
  | @fallback name table e' ht hf =>
    cases name <;> cases ht <;> cases hf <;> decide

end Demo.Calc

/-- The arrays of the calculator: their fallback is a repetition of values, and the rules refer
back to arrays. -/
theorem parse_terminates_arrays :
    Demo.Calc.vocabulary.Grounded (.type .arr) ∧
      Expr.parse Demo.Calc.vocabulary (.type .arr) ⟨["-", "double", "1", "add", "2", "x"], 1⟩ ≠
        .endless ∧
      Reads Demo.Calc.vocabulary (.type .arr) ⟨["-", "double", "1", "add", "2", "x"], 1⟩
        (Expr.parse Demo.Calc.vocabulary (.type .arr)
          ⟨["-", "double", "1", "add", "2", "x"], 1⟩) :=
  ⟨Demo.Calc.grounded _, parse_terminates _ _ (Demo.Calc.grounded _) _ _ (by decide)⟩

end Parlance
