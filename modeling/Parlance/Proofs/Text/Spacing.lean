import Parlance.Cli.Session
import Parlance.Proofs.Text.Runs

/-
  Lines and their words. A line is laid out as blanks, and then words, each with the blanks that
  follow it; only behind the last word there may be none (`Spacing`). Every line is laid out so
  (`exists_spacing`), and whatever the blanks are, the words that are read off it are those it
  was laid out with (`Spacing.words_line`). Hence a program that is typed as a line, its words
  joined by spaces, is read and run as the list of its words is.
-/

namespace Parlance.Text

/-- Every character is a blank. -/
def Blank (s : String) : Prop := ∀ c ∈ s.toList, isBlank c = true

/-- There is a character, and none is a blank. -/
def IsWord (s : String) : Prop := s ≠ "" ∧ ∀ c ∈ s.toList, isBlank c = false

/-- A line as it is laid out: blanks, and words with the blanks behind each. -/
structure Spacing where
  lead : String
  /-- The words, and what stands behind each. -/
  cells : List (String × String)
  blank_lead : Blank lead
  isWord : ∀ cell ∈ cells, IsWord cell.1
  blank : ∀ cell ∈ cells, Blank cell.2
  apart : ∀ cell ∈ cells.dropLast, cell.2 ≠ ""

namespace Spacing

/-- The words that are laid out. -/
def words (s : Spacing) : List String := s.cells.map Prod.fst

/-- The line. -/
def line (s : Spacing) : String := s.lead ++ String.join (s.cells.map fun cell => cell.1 ++ cell.2)

end Spacing

theorem toList_ne_nil {s : String} (h : s ≠ "") : s.toList ≠ [] := by
  rwa [Ne, String.toList_eq_nil_iff]

theorem IsWord.runs {s : String} (h : IsWord s) : runs isBlank s.toList = [s.toList] :=
  runs_of_none (toList_ne_nil h.1) h.2

theorem Blank.runs_append {s : String} (h : Blank s) (rest : List Char) :
    Text.runs isBlank (s.toList ++ rest) = Text.runs isBlank rest :=
  runs_append_of_all h rest

/-- Behind a word that others follow there is a blank, so that it ends there. -/
theorem runs_cells {cells : List (String × String)} (hword : ∀ cell ∈ cells, IsWord cell.1)
    (hblank : ∀ cell ∈ cells, Blank cell.2) (hapart : ∀ cell ∈ cells.dropLast, cell.2 ≠ "") :
    runs isBlank (String.join (cells.map fun cell => cell.1 ++ cell.2)).toList =
      cells.map fun cell => cell.1.toList := by
  induction cells with
  | nil => exact runs_nil
  | cons cell rest ih =>
    obtain ⟨w, gap⟩ := cell
    have hw : IsWord w := hword _ List.mem_cons_self
    have hgap : Blank gap := hblank _ List.mem_cons_self
    have hhead : ∀ c, (gap.toList ++
        (String.join (rest.map fun cell => cell.1 ++ cell.2)).toList).head? = some c →
          isBlank c = true := by
      intro c hc
      cases hchars : gap.toList with
      | nil =>
        cases rest with
        | nil => rw [hchars] at hc; cases hc
        | cons second rest =>
          exact absurd (String.toList_eq_nil_iff.mp hchars) (hapart _ List.mem_cons_self)
      | cons d more =>
        rw [hchars] at hc
        cases hc
        exact hgap c (hchars ▸ List.mem_cons_self)
    have hrest : runs isBlank (String.join (rest.map fun cell => cell.1 ++ cell.2)).toList =
        rest.map fun cell => cell.1.toList := by
      refine ih (fun cell h => hword cell (List.mem_cons_of_mem _ h))
        (fun cell h => hblank cell (List.mem_cons_of_mem _ h)) fun cell h => ?_
      cases rest with
      | nil => cases h
      | cons second rest => exact hapart cell (List.mem_cons_of_mem _ h)
    rw [List.map_cons, String.join_cons, String.toList_append, String.toList_append,
      List.append_assoc, runs_append_of_head hhead, hw.runs, hgap.runs_append, hrest]
    rfl

theorem Spacing.words_line (s : Spacing) : Text.words s.line = s.words := by
  rw [words_eq_runs, line, String.toList_append, s.blank_lead.runs_append,
    runs_cells s.isWord s.blank s.apart, List.map_map, words]
  exact List.map_congr_left fun cell _ => String.ofList_toList

theorem isWord_of_mem_words {line w : String} (h : w ∈ words line) : IsWord w := by
  rw [words_eq_runs] at h
  obtain ⟨run, hrun, rfl⟩ := List.mem_map.mp h
  obtain ⟨hne, hrun⟩ := mem_runs hrun
  exact ⟨by simpa using hne, by rwa [String.toList_ofList]⟩

theorem blank_empty : Blank "" := nofun

theorem forall_mem_singleton_append {P : Char → Prop} {c : Char} {s : String} :
    (∀ d ∈ (String.singleton c ++ s).toList, P d) ↔ P c ∧ ∀ d ∈ s.toList, P d := by
  rw [String.toList_append, String.toList_singleton, List.singleton_append, List.forall_mem_cons]

theorem Blank.cons {c : Char} {s : String} (hc : isBlank c = true) (h : Blank s) :
    Blank (String.singleton c ++ s) :=
  forall_mem_singleton_append.mpr ⟨hc, h⟩

/-- A character in front of a word, or alone, makes a word. -/
theorem isWord_cons {c : Char} {s : String} (hc : isBlank c = false)
    (h : ∀ d ∈ s.toList, isBlank d = false) : IsWord (String.singleton c ++ s) :=
  ⟨by simp, forall_mem_singleton_append.mpr ⟨hc, h⟩⟩

namespace Spacing

theorem exists_cons_blank {c : Char} (hc : isBlank c = true) (s : Spacing) :
    ∃ t : Spacing, t.line = String.singleton c ++ s.line :=
  ⟨{ s with lead := String.singleton c ++ s.lead, blank_lead := s.blank_lead.cons hc },
    String.append_assoc⟩

/-- Starts a word in front, with the blanks at the front behind it. -/
theorem exists_cons_start {c : Char} (hc : isBlank c = false) (s : Spacing)
    (hlead : s.cells ≠ [] → s.lead ≠ "") :
    ∃ t : Spacing, t.line = String.singleton c ++ s.line := by
  refine ⟨⟨"", (String.singleton c, s.lead) :: s.cells, blank_empty, ?_, ?_, ?_⟩, ?_⟩
  · rw [List.forall_mem_cons]
    have hword : IsWord (String.singleton c ++ "") := isWord_cons hc nofun
    rw [String.append_empty] at hword
    exact ⟨hword, s.isWord⟩
  · rw [List.forall_mem_cons]
    exact ⟨s.blank_lead, s.blank⟩
  · intro cell h
    by_cases hcells : s.cells = []
    · rw [hcells] at h
      cases h
    · rw [List.dropLast_cons_of_ne_nil hcells] at h
      rcases List.mem_cons.mp h with rfl | h
      · exact hlead hcells
      · exact s.apart cell h
  · simp only [line, List.map_cons, String.join_cons, String.empty_append, String.append_assoc]

/-- Puts a character to the word at the front. -/
theorem exists_cons_grow {c : Char} (hc : isBlank c = false) {w gap : String}
    {rest : List (String × String)} (s : Spacing) (hlead : s.lead = "")
    (hcells : s.cells = (w, gap) :: rest) :
    ∃ t : Spacing, t.line = String.singleton c ++ s.line := by
  have hword := s.isWord
  have hblank := s.blank
  have hapart := s.apart
  rw [hcells, List.forall_mem_cons] at hword hblank
  rw [hcells] at hapart
  refine ⟨⟨"", (String.singleton c ++ w, gap) :: rest, blank_empty, ?_, ?_, ?_⟩, ?_⟩
  · rw [List.forall_mem_cons]
    exact ⟨isWord_cons hc hword.1.2, hword.2⟩
  · rw [List.forall_mem_cons]
    exact hblank
  · cases rest with
    | nil => exact nofun
    | cons second rest =>
      rw [List.dropLast_cons_cons, List.forall_mem_cons] at hapart ⊢
      exact hapart
  · simp only [line, hlead, hcells, List.map_cons, String.join_cons, String.empty_append,
      String.append_assoc]

theorem exists_cons {c : Char} (s : Spacing) :
    ∃ t : Spacing, t.line = String.singleton c ++ s.line := by
  cases hc : isBlank c with
  | true => exact s.exists_cons_blank hc
  | false =>
    by_cases hlead : s.lead = ""
    · cases hcells : s.cells with
      | nil => exact s.exists_cons_start hc fun h => absurd hcells h
      | cons cell rest => exact s.exists_cons_grow hc hlead hcells
    · exact s.exists_cons_start hc fun _ => hlead

end Spacing

theorem exists_spacing (line : String) : ∃ s : Spacing, s.line = line := by
  have hchars : ∀ cs : List Char, ∃ s : Spacing, s.line = String.ofList cs := by
    intro cs
    induction cs with
    | nil => exact ⟨⟨"", [], blank_empty, nofun, nofun, nofun⟩, rfl⟩
    | cons c cs ih =>
      obtain ⟨s, hs⟩ := ih
      rw [String.ofList_cons, ← hs]
      exact s.exists_cons
  obtain ⟨s, hs⟩ := hchars line.toList
  exact ⟨s, hs.trans String.ofList_toList⟩

theorem words_joinWith {tokens : List String} (h : ∀ token ∈ tokens, IsWord token) :
    words (joinWith " " tokens) = tokens := by
  have hruns : runs isBlank (joinWith " " tokens).toList = tokens.map String.toList := by
    induction tokens with
    | nil => exact runs_nil
    | cons token rest ih =>
      have htoken : IsWord token := h token List.mem_cons_self
      cases rest with
      | nil => exact htoken.runs
      | cons second rest =>
        have hrest := ih fun token ht => h token (List.mem_cons_of_mem _ ht)
        have hspace : (token ++ " " ++ joinWith " " (second :: rest)).toList =
            token.toList ++ ' ' :: (joinWith " " (second :: rest)).toList := by
          rw [String.toList_append, String.toList_append, List.append_assoc]
          rfl
        rw [joinWith, hspace, runs_append_cons (by decide), htoken.runs, hrest]
        rfl
  rw [words_eq_runs, hruns, List.map_map]
  exact List.map_id'' (fun token => String.ofList_toList) tokens

/-- Cutting a line into words inverts laying it out. The words of a line are the tokens exactly if
the line is the tokens, none empty and none with a blank in it, with blanks between any two
neighbours and perhaps more of them at the two ends. They are words, and joined by single spaces
they are read again. So a line of tokens joined by spaces is read and run as the list of the tokens
is: it is accepted if that is, with its traces, the text of its value or the failure of its run,
and what the run leaves behind; it is rejected if that is, with the same failure. -/
theorem words_invert_spacing :
    (∀ line tokens, words line = tokens ↔ ∃ s : Spacing, s.line = line ∧ s.words = tokens) ∧
    (∀ line, (∀ w ∈ words line, IsWord w) ∧ words (joinWith " " (words line)) = words line) ∧
    ∀ {ι W V : Type} (app : Cli.App ι W V) (tokens : List String),
      (∀ token ∈ tokens, IsWord token) → ∀ world : W,
        match app.language.parse tokens with
        | .accepted p _ =>
          app.evaluate (joinWith " " tokens) world =
            ((p.job.run { world }).1.map fun value =>
              ⟨(app.language.trace p).plain, (app.language.trace p).typed, app.render value⟩,
            (p.job.run { world }).2.world)
        | .rejected error _ => app.evaluate (joinWith " " tokens) world = (.error error, world)
        | .endless => ∃ error, app.evaluate (joinWith " " tokens) world = (.error error, world) := by
  refine ⟨fun line tokens => ⟨?_, ?_⟩, fun line => ⟨fun w => isWord_of_mem_words,
    words_joinWith fun w => isWord_of_mem_words⟩, fun app tokens h world => ?_⟩
  · rintro rfl
    obtain ⟨s, rfl⟩ := exists_spacing line
    exact ⟨s, rfl, s.words_line.symm⟩
  · rintro ⟨s, rfl, rfl⟩
    exact s.words_line
  · unfold Cli.App.evaluate Cli.App.execute
    rw [words_joinWith h]
    cases app.language.parse tokens with
    | accepted p c =>
      dsimp only [Reply.toExcept]
      cases (p.job.run { world }).1 <;> rfl
    | rejected error c => rfl
    | endless => exact ⟨_, rfl⟩

/-- A no-break space ends a word, and a zero-width space does not. -/
example : words "\u00a0a\u00a0\tb\u200bc\n" = ["a", "b\u200bc"] := by decide

end Parlance.Text
