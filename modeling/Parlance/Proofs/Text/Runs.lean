import Parlance.Text.Words

/-
  Runs of a text: the longest pieces without a separator, the empty ones left out. A separator
  cuts the runs of a text into those in front of it and those behind it (`runs_append_cons`); what
  separators at the ends of a text, or in greater numbers, do to its runs follows from that.

  The words of a line are the runs between blanks (`words_eq_runs`).
-/

namespace Parlance.Text

variable {α : Type} {sep : α → Bool}

/-- The pieces between the separators that are not empty, from left to right. -/
def runs (sep : α → Bool) (cs : List α) : List (List α) :=
  (cs.splitOnP sep).filter fun piece => !piece.isEmpty

theorem runs_nil : runs sep [] = [] := by
  rw [runs, List.splitOnP_nil]
  rfl

theorem runs_append_cons {c : α} (hc : sep c = true) (front rest : List α) :
    runs sep (front ++ c :: rest) = runs sep front ++ runs sep rest := by
  rw [runs, List.splitOnP_append_cons front rest hc, List.filter_append]
  rfl

theorem runs_cons {c : α} (hc : sep c = true) (rest : List α) :
    runs sep (c :: rest) = runs sep rest := by
  have h := runs_append_cons hc [] rest
  rwa [List.nil_append, runs_nil, List.nil_append] at h

/-- Separators in front do not count. -/
theorem runs_append_of_all {gap : List α} (hgap : ∀ c ∈ gap, sep c = true) (rest : List α) :
    runs sep (gap ++ rest) = runs sep rest := by
  induction gap with
  | nil => rfl
  | cons c gap ih =>
    rw [List.cons_append, runs_cons (hgap c List.mem_cons_self)]
    exact ih fun d hd => hgap d (List.mem_cons_of_mem _ hd)

/-- Where a text goes on with a separator, or ends, its runs so far are closed. -/
theorem runs_append_of_head {rest : List α} (hrest : ∀ c, rest.head? = some c → sep c = true)
    (front : List α) : runs sep (front ++ rest) = runs sep front ++ runs sep rest := by
  cases rest with
  | nil => rw [List.append_nil, runs_nil, List.append_nil]
  | cons c rest =>
    have hc : sep c = true := hrest c rfl
    rw [runs_append_cons hc, runs_cons hc]

theorem runs_of_none {run : List α} (hne : run ≠ []) (hrun : ∀ c ∈ run, sep c = false) :
    runs sep run = [run] := by
  rw [runs, List.splitOnP_eq_singleton hrun]
  simpa using hne

/-- No separator is left in a piece. -/
theorem not_sep_of_mem_splitOnP {cs piece : List α} (h : piece ∈ cs.splitOnP sep) :
    ∀ c ∈ piece, sep c = false := by
  induction cs generalizing piece with
  | nil =>
    rw [List.splitOnP_nil, List.mem_singleton] at h
    rw [h]
    exact nofun
  | cons c cs ih =>
    rw [List.splitOnP_cons_eq_if_modifyHead] at h
    split at h
    · rcases List.mem_cons.mp h with rfl | h
      · exact nofun
      · exact ih h
    · next hc =>
      -- The character joins the first piece of the rest.
      obtain ⟨first, more, hpieces⟩ := List.exists_cons_of_ne_nil (List.splitOnP_ne_nil sep cs)
      rw [hpieces] at ih h
      rcases List.mem_cons.mp h with rfl | h
      · intro d hd
        rcases List.mem_cons.mp hd with rfl | hd
        · simpa using hc
        · exact ih List.mem_cons_self d hd
      · exact ih (List.mem_cons_of_mem _ h)

theorem mem_runs {cs run : List α} (h : run ∈ runs sep cs) :
    run ≠ [] ∧ ∀ c ∈ run, sep c = false := by
  obtain ⟨hpiece, hne⟩ := List.mem_filter.mp h
  exact ⟨by simpa using hne, not_sep_of_mem_splitOnP hpiece⟩

/-! ## Words -/

/-- The word at the front is the first piece, and those behind it are the runs of the rest. -/
theorem splitOnP_eq_scanWords (cs : List Char) :
    ∃ more, cs.splitOnP isBlank = (scanWords cs).1 :: more ∧
      (scanWords cs).2 = more.filter fun piece => !piece.isEmpty := by
  induction cs with
  | nil => exact ⟨[], List.splitOnP_nil, rfl⟩
  | cons c cs ih =>
    obtain ⟨more, hpieces, hrest⟩ := ih
    rw [List.splitOnP_cons_eq_if_modifyHead, hpieces, scanWords]
    dsimp only
    split
    · refine ⟨_, rfl, ?_⟩
      dsimp only
      rw [List.filter_cons, ← hrest, consWord]
      cases (scanWords cs).1.isEmpty <;> rfl
    · exact ⟨more, rfl, hrest⟩

theorem splitBlanks_eq_runs (cs : List Char) : splitBlanks cs = runs isBlank cs := by
  obtain ⟨more, hpieces, hrest⟩ := splitOnP_eq_scanWords cs
  rw [splitBlanks, runs, hpieces, List.filter_cons, ← hrest, consWord]
  cases (scanWords cs).1.isEmpty <;> rfl

theorem words_eq_runs (line : String) :
    words line = (runs isBlank line.toList).map String.ofList := by
  rw [words, splitBlanks_eq_runs]

end Parlance.Text
