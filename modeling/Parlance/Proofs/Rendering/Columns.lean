import Mathlib.Algebra.GroupWithZero.Nat
import Parlance.Grammar.Layout

/-
  The printed grammar stands in columns. A block is printed in two passes: the first notes in a
  table how wide each column is, the second prints the symbols and pads each but the last of a
  line to the width of its column.

  The passes are stated here with all that could go wrong in them. The table grows where a line
  is longer than those before it and is changed in place elsewhere (`table`); the second pass
  looks a width up by its index and takes the width of a symbol from it, and each of the two can
  fail (`padding?`, `pieces?`). Nothing does: the table holds the largest width of every column
  (`getElem?_table`), and so each line fits it (`fits_table`). Where the symbols stand follows
  from the widths of the pieces of the line (`sum_take_pieces`).
-/

namespace Parlance

namespace Layout

variable {width : String → Nat}

/-! ## The table of widths -/

/-- Notes a width in column `i`: a new column is added, and one that is narrower is widened. -/
def note (widths : List Nat) (i w : Nat) : List Nat :=
  match widths[i]? with
  | some old => if old < w then widths.set i w else widths
  | none => widths ++ [w]

/-- Notes the widths of a line from column `i` on. -/
def noteFrom (widths : List Nat) : Nat → List Nat → List Nat
  | _, [] => widths
  | i, w :: ws => noteFrom (note widths i w) (i + 1) ws

/-- Notes the widths of all lines, one line after the other. -/
def table (width : String → Nat) (rows : List (List String)) : List Nat :=
  rows.foldl (fun widths row => noteFrom widths 0 (row.map width)) []

theorem note_end (front : List Nat) (w : Nat) : note front front.length w = front ++ [w] := by
  rw [note, List.getElem?_eq_none (Nat.le_refl _)]

theorem note_inside (front widths : List Nat) (old w : Nat) :
    note (front ++ old :: widths) front.length w = front ++ max old w :: widths := by
  have hold : (front ++ old :: widths)[front.length]? = some old := by
    rw [List.getElem?_append_right (Nat.le_refl _), Nat.sub_self, List.getElem?_cons_zero]
  unfold note
  rw [hold]
  dsimp only
  split
  · next h =>
    rw [List.set_append_right _ _ (Nat.le_refl _), Nat.sub_self, List.set_cons_zero,
      Nat.max_eq_right (Nat.le_of_lt h)]
  · next h => rw [Nat.max_eq_left (Nat.le_of_not_lt h)]

/-- The columns in front are left alone, and of the others the larger widths are kept. -/
theorem noteFrom_eq (front widths ws : List Nat) :
    noteFrom (front ++ widths) front.length ws = front ++ maxima widths ws := by
  induction ws generalizing front widths with
  | nil => cases widths <;> rfl
  | cons w ws ih =>
    rw [noteFrom]
    cases widths with
    | nil =>
      have hrest := ih (front ++ [w]) []
      rw [List.append_nil, List.length_append, List.length_singleton] at hrest
      rw [List.append_nil, note_end, hrest, List.append_assoc]
      cases ws <;> rfl
    | cons old widths =>
      have hrest := ih (front ++ [max old w]) widths
      rw [List.length_append, List.length_singleton, List.append_assoc, List.append_assoc] at hrest
      rw [note_inside]
      exact hrest

/-- The table has the columns of the block. -/
theorem table_eq (rows : List (List String)) : table width rows = columns width rows := by
  unfold table columns
  congr
  funext widths row
  exact noteFrom_eq [] widths (row.map width)

/-! ## The widest symbol of a column -/

/-- The largest width in column `k`, among the lines that have one. -/
def widest (width : String → Nat) (rows : List (List String)) (k : Nat) : Nat :=
  ((rows.filterMap (·[k]?)).map width).foldr max 0

theorem widest_cons (row : List String) (rows : List (List String)) (k : Nat) :
    widest width (row :: rows) k =
      max ((row.map width)[k]?.getD 0) (widest width rows k) := by
  unfold widest
  cases h : row[k]? with
  | none => simp [h]
  | some cell => simp [h]

theorem getD_maxima (vs ws : List Nat) (k : Nat) :
    (maxima vs ws)[k]?.getD 0 = max (vs[k]?.getD 0) (ws[k]?.getD 0) := by
  induction vs generalizing ws k with
  | nil => simp [maxima]
  | cons v vs ih =>
    cases ws with
    | nil => simp [maxima]
    | cons w ws =>
      cases k with
      | zero => rfl
      | succ k => exact ih ws k

theorem length_maxima (vs ws : List Nat) :
    (maxima vs ws).length = max vs.length ws.length := by
  induction vs generalizing ws with
  | nil => simp [maxima]
  | cons v vs ih =>
    cases ws with
    | nil => simp [maxima]
    | cons w ws => simp [maxima, ih, Nat.add_max_add_right]

theorem getD_foldl_maxima (rows : List (List String)) (widths : List Nat) (k : Nat) :
    (rows.foldl (fun widths row => maxima widths (row.map width)) widths)[k]?.getD 0 =
      max (widths[k]?.getD 0) (widest width rows k) := by
  induction rows generalizing widths with
  | nil => exact (Nat.max_zero _).symm
  | cons row rows ih => rw [List.foldl_cons, ih, getD_maxima, widest_cons, Nat.max_assoc]

theorem length_le_foldl_maxima (rows : List (List String)) (widths : List Nat) :
    widths.length ≤
        (rows.foldl (fun widths row => maxima widths (row.map width)) widths).length ∧
      ∀ row ∈ rows, row.length ≤
        (rows.foldl (fun widths row => maxima widths (row.map width)) widths).length := by
  induction rows generalizing widths with
  | nil => exact ⟨Nat.le_refl _, nofun⟩
  | cons first rows ih =>
    obtain ⟨hwidths, hrows⟩ := ih (maxima widths (first.map width))
    rw [length_maxima, List.length_map] at hwidths
    refine ⟨Nat.le_trans (Nat.le_max_left ..) hwidths, fun row hrow => ?_⟩
    rcases List.mem_cons.mp hrow with rfl | hrow
    · exact Nat.le_trans (Nat.le_max_right ..) hwidths
    · exact hrows row hrow

/-- Where a line has a symbol, the table has the largest width of that column. -/
theorem getElem?_table {rows : List (List String)} {row : List String} (hrow : row ∈ rows)
    {k : Nat} (hk : k < row.length) : (table width rows)[k]? = some (widest width rows k) := by
  have hlen : k < (columns width rows).length :=
    Nat.lt_of_lt_of_le hk ((length_le_foldl_maxima rows []).2 row hrow)
  have hvalue := @getD_foldl_maxima width rows [] k
  rw [table_eq, List.getElem?_eq_getElem hlen]
  rw [← columns, List.getElem?_eq_getElem hlen] at hvalue
  simpa using hvalue

theorem width_le_widest {rows : List (List String)} {row : List String} (hrow : row ∈ rows)
    {k : Nat} {cell : String} (hk : row[k]? = some cell) : width cell ≤ widest width rows k := by
  induction rows with
  | nil => cases hrow
  | cons first rows ih =>
    rw [widest_cons]
    rcases List.mem_cons.mp hrow with rfl | hrow
    · rw [List.getElem?_map, hk]
      exact Nat.le_max_left ..
    · exact Nat.le_trans (ih hrow) (Nat.le_max_right ..)

/-! ## Lines -/

/-- How many blanks go behind the symbol in column `i`, if the table has that column and the
symbol is not wider. -/
def padding? (width : String → Nat) (widths : List Nat) (i : Nat) (cell : String) : Option Nat :=
  match widths[i]? with
  | some w => if width cell ≤ w then some (w - width cell) else none
  | none => none

/-- What a line is put together from. -/
inductive Piece where
  /-- The bar or blanks. -/
  | filler (text : String)
  | symbol (text : String)

/-- The text of a piece. -/
def Piece.text : Piece → String
  | filler text | symbol text => text

/-- How wide a piece is. In what stands between the symbols every character is one column wide. -/
def Piece.columns (width : String → Nat) : Piece → Nat
  | filler text => text.length
  | symbol text => width text

/-- What is put on a line from column `i` on, piece by piece: a blank, the symbol, and its padding
if it is not the last one. -/
def pieces? (width : String → Nat) (widths : List Nat) : Nat → List String → Option (List Piece)
  | _, [] => some []
  | _, [cell] => some [.filler " ", .symbol cell]
  | i, cell :: rest =>
    match padding? width widths i cell, pieces? width widths (i + 1) rest with
    | some n, some ps => some (.filler " " :: .symbol cell :: .filler (blanks n) :: ps)
    | _, _ => none

/-- The symbols of a line fit the columns. -/
def Fits (width : String → Nat) : List Nat → List String → Prop
  | _, [] => True
  | [], _ :: _ => False
  | w :: ws, cell :: rest => width cell ≤ w ∧ Fits width ws rest

theorem fits_of_getElem? {ws : List Nat} {row : List String}
    (h : ∀ (k : Nat) (cell : String), row[k]? = some cell → ∃ w, ws[k]? = some w ∧ width cell ≤ w) :
    Fits width ws row := by
  induction row generalizing ws with
  | nil => cases ws <;> trivial
  | cons cell row ih =>
    obtain ⟨w, hw, hle⟩ := h 0 cell rfl
    cases ws with
    | nil => cases hw
    | cons w' ws =>
      cases hw
      exact ⟨hle, ih fun k cell hk => h (k + 1) cell hk⟩

/-- No line is longer than the table, and no symbol is wider than its column. -/
theorem fits_table {rows : List (List String)} {row : List String} (hrow : row ∈ rows) :
    Fits width (table width rows) row :=
  fits_of_getElem? fun _ _ hk =>
    ⟨_, getElem?_table hrow (List.getElem?_eq_some_iff.mp hk).1, width_le_widest hrow hk⟩

/-- The pieces of a line that fits the columns. -/
def pieces (width : String → Nat) : List Nat → List String → List Piece
  | _, [] => []
  | _, [cell] => [.filler " ", .symbol cell]
  | ws, cell :: rest =>
    .filler " " :: .symbol cell :: .filler (blanks (ws.headD 0 - width cell)) ::
      pieces width ws.tail rest

theorem pieces?_of_fits {front ws : List Nat} {row : List String} (h : Fits width ws row) :
    pieces? width (front ++ ws) front.length row = some (pieces width ws row) := by
  induction row generalizing front ws with
  | nil => rfl
  | cons cell row ih =>
    match ws, row with
    | [], _ => exact h.elim
    | _ :: _, [] => rfl
    | w :: ws, next :: row =>
      have hpadding : padding? width (front ++ w :: ws) front.length cell =
          some (w - width cell) := by
        unfold padding?
        rw [List.getElem?_append_right (Nat.le_refl _), Nat.sub_self, List.getElem?_cons_zero]
        exact if_pos h.1
      have hrest := @ih (front ++ [w]) ws h.2
      rw [List.append_assoc, List.length_append, List.length_singleton,
        List.singleton_append] at hrest
      rw [pieces?, hpadding, hrest]
      · rfl
      · nofun

theorem length_blanks (n : Nat) : (blanks n).length = n := by
  rw [blanks, String.length_ofList, List.length_replicate]

theorem join_pieces (ws : List Nat) (row : List String) :
    String.join ((pieces width ws row).map Piece.text) = cells width ws row := by
  induction row generalizing ws with
  | nil => cases ws <;> rfl
  | cons cell row ih =>
    match ws, row with
    | [], [] => rfl
    | _ :: _, [] => rfl
    | [], next :: row =>
      have hrest := ih []
      have hempty : blanks (0 - width cell) = "" := by rw [Nat.zero_sub]; rfl
      simp only [pieces, cells, List.map_cons, Piece.text, String.join_cons, List.tail_nil,
        List.headD_nil, hrest, hempty, String.empty_append, String.append_assoc]
    | w :: ws, next :: row =>
      have hrest := ih ws
      simp only [pieces, cells, List.map_cons, Piece.text, String.join_cons, List.tail_cons,
        List.headD_cons, hrest, String.append_assoc]

/-- The symbols are every third piece. -/
theorem getElem?_pieces (ws : List Nat) {row : List String} {i : Nat} {cell : String}
    (h : row[i]? = some cell) : (pieces width ws row)[3 * i + 1]? = some (.symbol cell) := by
  induction row generalizing ws i with
  | nil => cases h
  | cons first row ih =>
    cases row with
    | nil =>
      cases i with
      | zero => exact congrArg (Option.map Piece.symbol) h
      | succ i => cases h
    | cons next row =>
      cases i with
      | zero => exact congrArg (Option.map Piece.symbol) h
      | succ i => exact ih ws.tail h

theorem getLast?_pieces (ws : List Nat) (row : List String) :
    (pieces width ws row).getLast? = row.getLast?.map Piece.symbol := by
  induction row generalizing ws with
  | nil => rfl
  | cons cell row ih =>
    cases row with
    | nil => rfl
    | cons next row =>
      have hne : pieces width ws.tail (next :: row) ≠ [] := by
        cases row <;> simp [pieces]
      simp only [pieces]
      rw [List.getLast?_cons_cons, List.getLast?_cons_cons, List.getLast?_cons_of_ne_nil hne]
      exact ih ws.tail

/-- A symbol stands behind the columns in front of its own, and a blank before each. -/
theorem sum_take_pieces {ws : List Nat} {row : List String} (h : Fits width ws row) {i : Nat}
    (hi : i < row.length) :
    (((pieces width ws row).take (3 * i + 1)).map (Piece.columns width)).sum =
      1 + ((List.range i).map fun k => ws[k]?.getD 0 + 1).sum := by
  induction row generalizing ws i with
  | nil => cases hi
  | cons cell row ih =>
    match ws, row with
    | [], _ => exact h.elim
    | _ :: _, [] =>
      obtain rfl : i = 0 := by simpa using hi
      rfl
    | w :: ws, next :: row =>
      cases i with
      | zero => rfl
      | succ i =>
        have hrest := ih h.2 (Nat.lt_of_succ_lt_succ hi)
        have hle : width cell ≤ w := h.1
        have hone : " ".length = 1 := rfl
        rw [Nat.mul_succ, List.range_succ_eq_map]
        simp [pieces, Piece.columns, length_blanks, hone, Function.comp_def] at hrest ⊢
        omega

/-! ## Printed grammars -/

/-- The symbols of a production as they are printed, line by line. -/
def rows (p : Production) : List (List String) :=
  p.alternatives.map fun alternative => alternative.map Sym.text

/-- The line of an alternative. -/
def line (width : String → Nat) (p : Production) (alternative : List Sym) : String :=
  " |" ++ cells width (columns width (rows p)) (alternative.map Sym.text)

theorem block_eq (width : String → Nat) (p : Production) :
    block width p = (p.tag ++ ":") :: p.alternatives.map (line width p) ++ [""] := by
  unfold block
  dsimp only
  rw [List.map_map]
  rfl

theorem getLast?_append_text {s t : String} {c : Char} (h : t.toList.getLast? = some c) :
    (s ++ t).toList.getLast? = some c := by
  rw [String.toList_append, List.getLast?_append, h, Option.some_or]

/-- No symbol ends in a blank. -/
theorem exists_getLast?_text (symbol : Sym) :
    ∃ c, symbol.text.toList.getLast? = some c ∧ c ≠ ' ' := by
  cases symbol with
  | type tag => exact ⟨'>', getLast?_append_text (by decide), by decide⟩
  | many tag => exact ⟨'*', getLast?_append_text (by decide), by decide⟩
  | exact keyword => exact ⟨'\"', getLast?_append_text (by decide), by decide⟩
  | endOfInput => exact ⟨'I', by decide, by decide⟩

theorem getLast?_join {ps : List Piece} {last : Piece} {c : Char} (h : ps.getLast? = some last)
    (hc : last.text.toList.getLast? = some c) :
    (String.join (ps.map Piece.text)).toList.getLast? = some c := by
  obtain ⟨front, rfl⟩ := List.getLast?_eq_some_iff.mp h
  rw [List.map_append, List.map_singleton, String.toList_join, List.flatMap_append,
    List.flatMap_singleton, List.getLast?_append, hc, Option.some_or]

/-- The pieces of the line of an alternative, the bar first. -/
def linePieces (width : String → Nat) (p : Production) (alternative : List Sym) : List Piece :=
  .filler " |" :: pieces width (table width (rows p)) (alternative.map Sym.text)

theorem line_eq (width : String → Nat) (p : Production) (alternative : List Sym) :
    line width p alternative = String.join ((linePieces width p alternative).map Piece.text) := by
  rw [linePieces, List.map_cons, String.join_cons, join_pieces, table_eq, line]
  rfl

theorem getLast?_linePieces (width : String → Nat) (p : Production) (alternative : List Sym) :
    (linePieces width p alternative).getLast? =
      some ((alternative.getLast?.map fun symbol => .symbol symbol.text).getD (.filler " |")) := by
  rw [linePieces, List.getLast?_cons, getLast?_pieces, List.getLast?_map, Option.map_map]
  rfl

/-- What is in front of a symbol: the bar, and the columns in front of its own with their blanks. -/
theorem sum_take_linePieces {p : Production} {alternative : List Sym}
    (h : alternative ∈ p.alternatives) {i : Nat} (hi : i < alternative.length) :
    (((linePieces width p alternative).take (3 * i + 2)).map (Piece.columns width)).sum =
      3 + ((List.range i).map fun k => widest width (rows p) k + 1).sum := by
  have hrow : alternative.map Sym.text ∈ rows p := List.mem_map_of_mem h
  have hcolumns : (List.range i).map (fun k => (table width (rows p))[k]?.getD 0 + 1) =
      (List.range i).map fun k => widest width (rows p) k + 1 := by
    refine List.map_congr_left fun k hk => ?_
    have hlt : k < (alternative.map Sym.text).length := by
      rw [List.length_map]
      exact Nat.lt_trans (List.mem_range.mp hk) hi
    rw [getElem?_table hrow hlt, Option.getD_some]
  have hfits : Fits width (table width (rows p)) (alternative.map Sym.text) := fits_table hrow
  have hpiece := sum_take_pieces hfits (List.length_map Sym.text ▸ hi)
  have hbar : Piece.columns width (.filler " |") = 2 := rfl
  rw [linePieces, List.take_succ_cons, List.map_cons, List.sum_cons, hbar, hpiece, hcolumns]
  omega

theorem getLast?_line_ne_blank (width : String → Nat) (p : Production) (alternative : List Sym) :
    (line width p alternative).toList.getLast? ≠ some ' ' := by
  have hlast := getLast?_linePieces width p alternative
  rw [line_eq]
  cases ha : alternative.getLast? with
  | none =>
    rw [ha] at hlast
    rw [getLast?_join hlast rfl]
    decide
  | some symbol =>
    rw [ha] at hlast
    obtain ⟨c, hc, hne⟩ := exists_getLast?_text symbol
    rw [getLast?_join hlast hc]
    simpa using hne

/-- The printed grammar is aligned, whatever the widths of the symbols are. It has, for each
production in order, the tag with a colon, one line per alternative, and an empty line. In a block
every width that is looked up is in the table, and no symbol is wider than its column, so that each
line is put together piece by piece. Its symbols are every third piece; the `i`-th of them stands
in column `3` plus, for every column in front, one and the largest width in that column. If the
line is as wide as its pieces are together, that many columns of it are in front of the symbol. The
line ends in its last symbol and not in a blank. -/
theorem printed_columns_align (width : String → Nat) (g : Grammar) :
    text width g = Text.joinWith "\n" (g.productions.flatMap fun p =>
      (p.tag ++ ":") :: p.alternatives.map (line width p) ++ [""]) ∧
    ∀ p ∈ g.productions, ∀ alternative ∈ p.alternatives, ∃ ps,
      (pieces? width (table width (rows p)) 0 (alternative.map Sym.text)).map
        (.filler " |" :: ·) = some ps ∧
      line width p alternative = String.join (ps.map Piece.text) ∧
      (∀ i symbol, alternative[i]? = some symbol →
        let column := 3 + ((List.range i).map fun k => widest width (rows p) k + 1).sum
        ps[3 * i + 2]? = some (.symbol symbol.text) ∧
        ((ps.take (3 * i + 2)).map (Piece.columns width)).sum = column ∧
        ((∀ n, width (String.join ((ps.take n).map Piece.text)) =
            ((ps.take n).map (Piece.columns width)).sum) →
          width (String.join ((ps.take (3 * i + 2)).map Piece.text)) = column)) ∧
      ps.getLast? =
        some ((alternative.getLast?.map fun symbol => .symbol symbol.text).getD (.filler " |")) ∧
      (line width p alternative).toList.getLast? ≠ some ' ' := by
  refine ⟨?_, fun p _ alternative h => ⟨linePieces width p alternative, ?_,
    line_eq width p alternative, fun i symbol hi => ?_, getLast?_linePieces width p alternative,
    getLast?_line_ne_blank width p alternative⟩⟩
  · unfold text
    rw [funext (block_eq width)]
  · have hfits : Fits width (table width (rows p)) (alternative.map Sym.text) :=
      fits_table (List.mem_map_of_mem h)
    have hpieces : pieces? width (table width (rows p)) 0 (alternative.map Sym.text) =
        some (pieces width (table width (rows p)) (alternative.map Sym.text)) :=
      @pieces?_of_fits width [] _ _ hfits
    rw [hpieces]
    rfl
  · have hsum := @sum_take_linePieces width p alternative h i (List.getElem?_eq_some_iff.mp hi).1
    refine ⟨getElem?_pieces _ (by rw [List.getElem?_map, hi]; rfl), hsum, fun hadd => ?_⟩
    rw [hadd, hsum]

/-- On a terminal the third symbol of the second line stands behind columns of five and four. -/
example : text Text.width ⟨[⟨"値", [[.exact "円", .type "値"],
    [.exact "add", .type "値", .many "値"], [], [.endOfInput]]⟩]⟩ =
      "値:\n | \"円\"  <値>\n | \"add\" <値> <値> *\n |\n | EOI\n" := by
  decide +kernel

end Layout

end Parlance
