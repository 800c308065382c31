import Mathlib.Data.List.Basic
import Parlance.Proofs.Rendering.Columns
import Parlance.Proofs.Text.Runs

/-
  The printed grammar, read back. Names that hold no space and no newline come back from the text
  as they went in, however wide the columns are: a line is cut at its spaces, so that padding
  leaves no trace, and what is between them are the words of its symbols (`runs_cells`,
  `Sym.runs_text`). A word tells by its first character what it is, and a star belongs to the tag
  in front of it (`readSymbols_words`). Of the lines, those that start with a space are
  alternatives, those that are empty end a block, and all others are tags (`readLines_block`).
-/

namespace Parlance

/-! ## Plain names -/

/-- There is no space and no newline in the name. -/
def PlainName (name : String) : Prop := ' ' ∉ name.toList ∧ '\n' ∉ name.toList

instance (name : String) : Decidable (PlainName name) := inferInstanceAs (Decidable (_ ∧ _))

/-- The name in the symbol is plain, if it has one. -/
def Sym.Plain : Sym → Prop
  | type name | many name | exact name => PlainName name
  | endOfInput => True

instance : DecidablePred Sym.Plain
  | .type _ | .many _ | .exact _ => inferInstanceAs (Decidable (PlainName _))
  | .endOfInput => isTrue trivial

/-- The tag of the production and all names in its alternatives are plain. -/
def Production.Plain (p : Production) : Prop :=
  PlainName p.tag ∧ ∀ alternative ∈ p.alternatives, ∀ symbol ∈ alternative, symbol.Plain

instance : DecidablePred Production.Plain := fun _ => inferInstanceAs (Decidable (_ ∧ _))

/-- All tags and keywords of the grammar are plain. -/
def Grammar.Plain (g : Grammar) : Prop := ∀ p ∈ g.productions, p.Plain

instance : DecidablePred Grammar.Plain := fun g =>
  inferInstanceAs (Decidable (∀ p ∈ g.productions, p.Plain))

/-! ## Symbols -/

/-- The character separates the words of a line. -/
def isSpace (c : Char) : Bool := c == ' '

/-- The words of the printed symbol. -/
def Sym.words : Sym → List (List Char)
  | type tag => ['<' :: tag.toList ++ ['>']]
  | many tag => ['<' :: tag.toList ++ ['>'], ['*']]
  | exact keyword => ['\"' :: keyword.toList ++ ['\"']]
  | endOfInput => [['E', 'O', 'I']]

theorem PlainName.not_isSpace {name : String} (h : PlainName name) :
    ∀ c ∈ name.toList, isSpace c = false := by
  intro c hc
  have hne : c ≠ ' ' := fun heq => h.1 (heq ▸ hc)
  simpa [isSpace] using hne

/-- A plain name between two characters that are no spaces is one word. -/
theorem PlainName.runs_enclosed {name : String} (h : PlainName name) {opening closing : Char}
    (hopening : isSpace opening = false) (hclosing : isSpace closing = false) :
    Text.runs isSpace (opening :: name.toList ++ [closing]) =
      [opening :: name.toList ++ [closing]] := by
  refine Text.runs_of_none (by simp) fun c hc => ?_
  simp only [List.cons_append, List.mem_cons, List.mem_append, List.not_mem_nil, or_false] at hc
  rcases hc with rfl | hc | rfl
  · exact hopening
  · exact h.not_isSpace c hc
  · exact hclosing

theorem Sym.runs_text {symbol : Sym} (h : symbol.Plain) :
    Text.runs isSpace symbol.text.toList = symbol.words := by
  cases symbol with
  | type tag =>
    have htext : (type tag).text.toList = '<' :: tag.toList ++ ['>'] := by
      simp [text]
    rw [htext]
    exact PlainName.runs_enclosed h (by decide) (by decide)
  | many tag =>
    have htext : (many tag).text.toList = ('<' :: tag.toList ++ ['>']) ++ ' ' :: ['*'] := by
      simp [text]
    rw [htext, Text.runs_append_cons (by decide),
      PlainName.runs_enclosed h (by decide) (by decide)]
    rfl
  | exact keyword =>
    have htext : (exact keyword).text.toList = '\"' :: keyword.toList ++ ['\"'] := by
      simp [text]
    rw [htext]
    exact PlainName.runs_enclosed h (by decide) (by decide)
  | endOfInput => rfl

/-- What stands in front of a closing character. -/
def enclosed? (closing : Char) (cs : List Char) : Option String :=
  if cs.getLast? = some closing then some (String.ofList cs.dropLast) else none

theorem enclosed?_concat (closing : Char) (name : String) :
    enclosed? closing (name.toList ++ [closing]) = some name := by
  simp [enclosed?]

/-- The symbols with the given words. -/
def readSymbols : List (List Char) → Option (List Sym)
  | [] => some []
  | ('<' :: name) :: ['*'] :: rest =>
    (enclosed? '>' name).bind fun tag => (readSymbols rest).map (.many tag :: ·)
  | ('<' :: name) :: rest =>
    (enclosed? '>' name).bind fun tag => (readSymbols rest).map (.type tag :: ·)
  | ('\"' :: name) :: rest =>
    (enclosed? '\"' name).bind fun keyword => (readSymbols rest).map (.exact keyword :: ·)
  | ['E', 'O', 'I'] :: rest => (readSymbols rest).map (.endOfInput :: ·)
  | _ => none

theorem head?_words_ne_star (alternative : List Sym) :
    (alternative.flatMap Sym.words).head? ≠ some ['*'] := by
  cases alternative with
  | nil => exact nofun
  | cons symbol rest => cases symbol <;> simp [Sym.words]

/-- A tag that no star follows stands for itself. -/
theorem readSymbols_type {rest : List (List Char)} (h : rest.head? ≠ some ['*']) (tag : String) :
    readSymbols (('<' :: tag.toList ++ ['>']) :: rest) =
      (readSymbols rest).map (.type tag :: ·) := by
  rw [List.cons_append, readSymbols, enclosed?_concat]
  · rfl
  · rintro more rfl
    exact h rfl

theorem readSymbols_words (alternative : List Sym) :
    readSymbols (alternative.flatMap Sym.words) = some alternative := by
  induction alternative with
  | nil => rfl
  | cons symbol rest ih =>
    have hstar := head?_words_ne_star rest
    rw [List.flatMap_cons]
    cases symbol with
    | type tag =>
      rw [Sym.words, List.singleton_append, readSymbols_type hstar, ih]
      rfl
    | many tag => simp [Sym.words, readSymbols, enclosed?_concat, ih]
    | exact keyword => simp [Sym.words, readSymbols, enclosed?_concat, ih]
    | endOfInput => simp [Sym.words, readSymbols, ih]

namespace Layout

/-! ## Lines -/

variable {width : String → Nat}

theorem toList_blanks (n : Nat) : (blanks n).toList = List.replicate n ' ' := String.toList_ofList

/-- The characters of a line: a space, the first symbol, its padding, and the characters of the
line without it. -/
theorem toList_cells_cons (widths : List Nat) (cell next : String) (rest : List String) :
    (cells width widths (cell :: next :: rest)).toList =
      ' ' :: (cell.toList ++ (List.replicate (widths.headD 0 - width cell) ' ' ++
        (cells width widths.tail (next :: rest)).toList)) := by
  cases widths with
  | nil => simp [cells]
  | cons w widths => simp [cells, toList_blanks]

theorem toList_cells_singleton (widths : List Nat) (cell : String) :
    (cells width widths [cell]).toList = ' ' :: cell.toList := by
  simp [cells]

/-- Spaces are put before every symbol, also behind the padding of the one before. -/
theorem head?_padding (n : Nat) (widths : List Nat) (cell : String) (rest : List String) :
    (List.replicate n ' ' ++ (cells width widths (cell :: rest)).toList).head? = some ' ' := by
  cases n with
  | succ n => rfl
  | zero =>
    cases rest with
    | nil => rw [toList_cells_singleton]; rfl
    | cons next rest => rw [toList_cells_cons]; rfl

/-- The words of a line are those of its symbols, one after the other. -/
theorem runs_cells (widths : List Nat) (row : List String) :
    Text.runs isSpace (cells width widths row).toList =
      row.flatMap fun cell => Text.runs isSpace cell.toList := by
  induction row generalizing widths with
  | nil => cases widths <;> exact Text.runs_nil
  | cons cell row ih =>
    have hspace : isSpace ' ' = true := rfl
    cases row with
    | nil =>
      rw [toList_cells_singleton, Text.runs_cons hspace, List.flatMap_singleton]
    | cons next rest =>
      have hhead : ∀ c, (List.replicate (widths.headD 0 - width cell) ' ' ++
          (cells width widths.tail (next :: rest)).toList).head? = some c → isSpace c = true := by
        intro c hc
        rw [head?_padding] at hc
        cases hc
        exact hspace
      have hpadding : ∀ c ∈ List.replicate (widths.headD 0 - width cell) ' ', isSpace c = true :=
        fun c hc => (List.eq_of_mem_replicate hc).symm ▸ hspace
      rw [toList_cells_cons, Text.runs_cons hspace, Text.runs_append_of_head hhead,
        Text.runs_append_of_all hpadding, ih]
      rfl

theorem newline_not_mem_text {symbol : Sym} (h : symbol.Plain) : '\n' ∉ symbol.text.toList := by
  cases symbol with
  | type name | many name | exact name => simp [Sym.text, h.2]
  | endOfInput => decide

theorem newline_not_mem_cells {widths : List Nat} {row : List String}
    (h : ∀ cell ∈ row, '\n' ∉ cell.toList) : '\n' ∉ (cells width widths row).toList := by
  induction row generalizing widths with
  | nil => cases widths <;> exact List.not_mem_nil
  | cons cell row ih =>
    rw [List.forall_mem_cons] at h
    cases row with
    | nil =>
      rw [toList_cells_singleton]
      simpa using h.1
    | cons next rest =>
      rw [toList_cells_cons]
      simpa using ⟨h.1, ih h.2⟩

theorem newline_not_mem_line {p : Production} {alternative : List Sym}
    (h : ∀ symbol ∈ alternative, symbol.Plain) : '\n' ∉ (line width p alternative).toList := by
  have hcells : ∀ cell ∈ alternative.map Sym.text, '\n' ∉ cell.toList := by
    rw [List.forall_mem_map]
    exact fun symbol hsymbol => newline_not_mem_text (h symbol hsymbol)
  simpa [line] using newline_not_mem_cells hcells

/-! ## Blocks -/

/-- The alternatives at the front of the lines, and the productions behind them. -/
def readLines : List (List Char) → Option (List (List Sym) × List Production)
  | [] => some ([], [])
  | [] :: rest => (readLines rest).bind fun (alternatives, ps) =>
    if alternatives.isEmpty then some ([], ps) else none
  | (' ' :: '|' :: cells) :: rest => (readLines rest).bind fun (alternatives, ps) =>
    (readSymbols (Text.runs isSpace cells)).map fun alternative => (alternative :: alternatives, ps)
  | header :: rest => (readLines rest).bind fun (alternatives, ps) =>
    (enclosed? ':' header).map fun tag => ([], ⟨tag, alternatives⟩ :: ps)

/-- The grammar with the given text. -/
def read? (text : String) : Option Grammar :=
  (readLines (text.toList.splitOn '\n')).map fun (_, ps) => ⟨ps⟩

theorem readLines_line {p : Production} {alternative : List Sym}
    (h : ∀ symbol ∈ alternative, symbol.Plain) (rest : List (List Char)) :
    readLines ((line width p alternative).toList :: rest) =
      (readLines rest).map fun (alternatives, ps) => (alternative :: alternatives, ps) := by
  have hwords : Text.runs isSpace
      (cells width (columns width (rows p)) (alternative.map Sym.text)).toList =
        alternative.flatMap Sym.words := by
    rw [runs_cells, List.flatMap_map]
    exact List.flatMap_congr fun symbol hsymbol => Sym.runs_text (h symbol hsymbol)
  have hline : (line width p alternative).toList =
      ' ' :: '|' :: (cells width (columns width (rows p)) (alternative.map Sym.text)).toList := by
    rw [line, String.toList_append]
    rfl
  rw [hline, readLines, hwords, readSymbols_words]
  exact Option.map_eq_bind.symm

theorem readLines_tag {tag : String} (h : PlainName tag) (rest : List (List Char)) :
    readLines ((tag ++ ":").toList :: rest) =
      (readLines rest).map fun (alternatives, ps) => ([], ⟨tag, alternatives⟩ :: ps) := by
  have hheader : (tag ++ ":").toList = tag.toList ++ [':'] := String.toList_append
  have hempty : tag.toList ++ [':'] ≠ [] := by simp
  have hspace : ∀ cells, tag.toList ++ [':'] ≠ ' ' :: '|' :: cells := by
    intro cells heq
    have hmem : ' ' ∈ tag.toList ++ [':'] := heq ▸ List.mem_cons_self
    simp [h.1] at hmem
  rw [hheader, readLines, enclosed?_concat]
  · exact Option.map_eq_bind.symm
  · exact hempty
  · exact hspace

/-- The lines of alternatives in front of the empty line that ends their block. -/
theorem readLines_lines (p : Production) {alternatives : List (List Sym)}
    (h : ∀ alternative ∈ alternatives, ∀ symbol ∈ alternative, symbol.Plain)
    {rest : List (List Char)} {ps : List Production} (hrest : readLines rest = some ([], ps)) :
    readLines ((alternatives.map (line width p)).map String.toList ++ [] :: rest) =
      some (alternatives, ps) := by
  induction alternatives with
  | nil => simp [readLines, hrest]
  | cons alternative alternatives ih =>
    rw [List.forall_mem_cons] at h
    rw [List.map_cons, List.map_cons, List.cons_append, readLines_line h.1, ih h.2]
    rfl

theorem readLines_block {p : Production} (h : p.Plain) {rest : List (List Char)}
    {ps : List Production} (hrest : readLines rest = some ([], ps)) :
    readLines ((block width p).map String.toList ++ rest) = some ([], p :: ps) := by
  have hblock : (block width p).map String.toList ++ rest =
      (p.tag ++ ":").toList ::
        ((p.alternatives.map (line width p)).map String.toList ++ [] :: rest) := by
    rw [block_eq]
    simp
  rw [hblock, readLines_tag h.1, readLines_lines p h.2 hrest]
  rfl

theorem readLines_blocks {ps : List Production} (h : ∀ p ∈ ps, p.Plain) :
    readLines ((ps.flatMap (block width)).map String.toList) = some ([], ps) := by
  induction ps with
  | nil => rfl
  | cons p ps ih =>
    rw [List.forall_mem_cons] at h
    rw [List.flatMap_cons, List.map_append]
    exact readLines_block h.1 (ih h.2)

theorem splitOn_joinWith {lines : List String} (hne : lines ≠ [])
    (h : ∀ line ∈ lines, '\n' ∉ line.toList) :
    (Text.joinWith "\n" lines).toList.splitOn '\n' = lines.map String.toList := by
  have hnewline : "\n".toList = ['\n'] := rfl
  rw [Text.joinWith_eq_intercalate, String.toList_intercalate, hnewline]
  refine List.splitOn_intercalate '\n' ?_ ?_
  · simpa using h
  · simpa using hne

theorem newline_not_mem_block {p : Production} (h : p.Plain) :
    ∀ line ∈ block width p, '\n' ∉ line.toList := by
  rw [block_eq]
  intro line hline
  simp only [List.cons_append, List.mem_cons, List.mem_append, List.mem_map, List.not_mem_nil,
    or_false] at hline
  rcases hline with rfl | ⟨alternative, halternative, rfl⟩ | rfl
  · simp [h.1.2]
  · exact newline_not_mem_line (h.2 alternative halternative)
  · decide

/-- Reading inverts printing. -/
theorem read?_text {g : Grammar} (h : g.Plain) (width : String → Nat) :
    read? (text width g) = some g := by
  obtain ⟨ps⟩ := g
  cases ps with
  | nil => rfl
  | cons p ps =>
    have hlines : (p :: ps).flatMap (block width) ≠ [] := by simp [block_eq]
    have hplain : ∀ line ∈ (p :: ps).flatMap (block width), '\n' ∉ line.toList := by
      intro line hline
      obtain ⟨q, hq, hline⟩ := List.mem_flatMap.mp hline
      exact newline_not_mem_block (h q hq) line hline
    rw [read?, text, splitOn_joinWith hlines hplain, readLines_blocks h]
    rfl

end Layout

/-- The printed grammar determines the grammar. If two grammars whose tags and keywords hold no
space and no newline are printed alike, on a terminal or with columns of any widths, they have the
same productions, in the same order and with the same alternatives: one reader gives both back. -/
theorem printed_grammar_determines {g g' : Grammar} (hg : g.Plain) (hg' : g'.Plain) :
    (g.format = g'.format ↔ g.productions = g'.productions) ∧
    (∀ width width', Layout.text width g = Layout.text width' g' →
      g.productions = g'.productions) ∧
    ∀ width, Layout.read? (Layout.text width g) = some g := by
  have hinj : ∀ width width', Layout.text width g = Layout.text width' g' →
      g.productions = g'.productions := by
    intro width width' heq
    have hread := Layout.read?_text hg width
    rw [heq, Layout.read?_text hg' width', Option.some.injEq] at hread
    rw [hread]
  refine ⟨⟨hinj Text.width Text.width, fun h => ?_⟩, hinj, Layout.read?_text hg⟩
  rw [Grammar.format, Layout.text, h]
  rfl

/-- Names made of the characters that lines are made of, an empty one, an alternative without
symbols and a tag without alternatives. -/
def Layout.awkward (alternative : List Sym) : Grammar :=
  ⟨[⟨"a:", [alternative, [], [.exact "\"", .endOfInput]]⟩, ⟨"", []⟩, ⟨"|", [[.exact ""]]⟩]⟩

/-- It shows behind which tag the star stands. -/
theorem printed_grammar_determines_star :
    (Layout.awkward [.type "<", .many ">"]).Plain ∧
    (Layout.awkward [.many "<", .type ">"]).Plain ∧
    (Layout.awkward [.type "<", .many ">"]).format ≠
      (Layout.awkward [.many "<", .type ">"]).format := by
  have hfirst : (Layout.awkward [.type "<", .many ">"]).Plain := by decide
  have hsecond : (Layout.awkward [.many "<", .type ">"]).Plain := by decide
  refine ⟨hfirst, hsecond, fun heq => ?_⟩
  have h := (printed_grammar_determines hfirst hsecond).1.mp heq
  revert h
  decide

/-- A name with a space in it can look like two. -/
example : Grammar.format ⟨[⟨"t", [[.type "a> <b"]]⟩]⟩ =
    Grammar.format ⟨[⟨"t", [[.type "a", .type "b"]]⟩]⟩ := by
  decide +kernel

end Parlance
