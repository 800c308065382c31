import Mathlib.Data.List.Basic
import Parlance.Grammar
import Parlance.Trace

/-
  Written documents can be told apart. What is proved is that a document ends where its text says
  so: if two documents are followed by something, and all is the same text, then the documents are
  the same and so is what follows (`Json.write_inj`). A string ends at the first quote that is not
  escaped, a number at the first character that is no digit, and an array or object at the bracket
  that stands where a comma could stand.

  This holds in every style whose line breaks are blank, so in `compactStyle` and in
  `prettyStyle`. Traces and grammars are determined by their documents, and hence by the texts of
  these.
-/

namespace Parlance

namespace Json

/-! ## Strings -/

/-- The value of a lower-case hexadecimal digit. -/
def hexValue (c : Char) : Nat := if c.toNat < 58 then c.toNat - 48 else c.toNat - 87

theorem hexValue_hexDigit : ∀ d < 16, hexValue (hexDigit d) = d := by decide

/-- The first character of what stands inside a string, and what follows it. -/
def unescape : List Char → Option (Char × List Char)
  | '\\' :: 'b' :: rest => some ('\x08', rest)
  | '\\' :: 'f' :: rest => some ('\x0c', rest)
  | '\\' :: 'n' :: rest => some ('\n', rest)
  | '\\' :: 'r' :: rest => some ('\r', rest)
  | '\\' :: 't' :: rest => some ('\t', rest)
  | '\\' :: 'u' :: '0' :: '0' :: high :: low :: rest =>
    some (Char.ofNat (16 * hexValue high + hexValue low), rest)
  | '\\' :: c :: rest => some (c, rest)
  | c :: rest => some (c, rest)
  | [] => none

theorem unescape_escapeChar (c : Char) (rest : List Char) :
    unescape (escapeChar c ++ rest) = some (c, rest) := by
  unfold escapeChar
  split
  case h_8 hquote hbackslash _ _ _ _ _ =>
    split
    · next hcontrol =>
      have hhigh := hexValue_hexDigit (c.toNat / 16) (by omega)
      have hlow := hexValue_hexDigit (c.toNat % 16) (by omega)
      simp only [List.cons_append, unescape, hhigh, hlow, Nat.div_add_mod, List.nil_append,
        Char.ofNat_toNat]
    · rw [List.singleton_append, unescape.eq_def]
      split <;> simp_all
  all_goals rfl

theorem head?_escapeChar (c : Char) : (escapeChar c).head? ≠ some '\"' := by
  unfold escapeChar
  split
  case h_8 hquote _ _ _ _ _ _ =>
    split
    · simp
    · simpa using hquote
  all_goals decide

/-- The end of a string does not look like a character inside it. -/
theorem quote_ne_escaped (c : Char) (rest rest' : List Char) :
    '\"' :: rest' ≠ escapeChar c ++ rest := by
  intro h
  have hhead := congrArg List.head? h
  cases he : escapeChar c with
  | nil =>
    have hread := unescape_escapeChar c []
    rw [he] at hread
    cases hread
  | cons first more =>
    rw [he] at hhead
    exact head?_escapeChar c (he ▸ hhead.symm)

/-- What stands inside a string ends at the first quote that is not escaped. -/
theorem escaped_inj {cs cs' rest rest' : List Char}
    (h : cs.foldr (fun c text => escapeChar c ++ text) ('\"' :: rest) =
      cs'.foldr (fun c text => escapeChar c ++ text) ('\"' :: rest')) :
    cs = cs' ∧ rest = rest' := by
  induction cs generalizing cs' with
  | nil =>
    cases cs' with
    | nil => exact ⟨rfl, (List.cons.inj h).2⟩
    | cons c' cs' => exact absurd h (quote_ne_escaped _ _ _)
  | cons c cs ih =>
    cases cs' with
    | nil => exact absurd h.symm (quote_ne_escaped _ _ _)
    | cons c' cs' =>
      have hread := congrArg unescape h
      simp only [List.foldr_cons, unescape_escapeChar, Option.some.injEq, Prod.mk.injEq] at hread
      obtain ⟨rfl, hmore⟩ := hread
      obtain ⟨rfl, hrest⟩ := ih hmore
      exact ⟨rfl, hrest⟩

theorem writeString_inj {s s' : String} {rest rest' : List Char}
    (h : writeString s rest = writeString s' rest') : s = s' ∧ rest = rest' := by
  obtain ⟨hs, hrest⟩ := escaped_inj (List.cons.inj h).2
  exact ⟨String.toList_inj.mp hs, hrest⟩

/-! ## Numbers -/

/-- No digit stands in front. -/
def NoDigit (rest : List Char) : Prop := ∀ c, rest.head? = some c → c.isDigit = false

theorem isDigit_of_mem_repr {n : Nat} {c : Char} (h : c ∈ n.repr.toList) : c.isDigit = true := by
  rw [Nat.toList_repr] at h
  exact Nat.isDigit_of_mem_toDigits (by decide) (by decide) h

theorem takeWhile_repr (n : Nat) {rest : List Char} (h : NoDigit rest) :
    (n.repr.toList ++ rest).takeWhile Char.isDigit = n.repr.toList := by
  have hstop : rest.takeWhile Char.isDigit = [] := by
    cases rest with
    | nil => rfl
    | cons c rest => rw [List.takeWhile_cons, h c rfl]; rfl
  rw [List.takeWhile_append_of_pos fun c hc => isDigit_of_mem_repr hc, hstop, List.append_nil]

theorem repr_toList_inj {n n' : Nat} (h : n.repr.toList = n'.repr.toList) : n = n' := by
  rw [Nat.toList_repr, Nat.toList_repr] at h
  have hvalue := congrArg (Nat.ofDigitChars 10 · 0) h
  rwa [Nat.ofDigitChars_toDigits (by decide) (by decide),
    Nat.ofDigitChars_toDigits (by decide) (by decide)] at hvalue

/-- A number ends at the first character that is no digit. -/
theorem repr_inj {n n' : Nat} {rest rest' : List Char} (hr : NoDigit rest) (hr' : NoDigit rest')
    (h : n.repr.toList ++ rest = n'.repr.toList ++ rest') : n = n' ∧ rest = rest' := by
  have hdigits := congrArg (List.takeWhile Char.isDigit) h
  rw [takeWhile_repr n hr, takeWhile_repr n' hr'] at hdigits
  rw [hdigits] at h
  exact ⟨repr_toList_inj hdigits, List.append_cancel_left h⟩

/-! ## How documents begin and end -/

/-- How a document begins: with some digit, or with a mark. -/
inductive Kind where
  | digit
  | quote
  | bracket
  | brace
  deriving DecidableEq

/-- The kind of a document. -/
def kind : Json → Kind
  | num _ => .digit
  | str _ => .quote
  | arr _ => .bracket
  | obj _ => .brace

/-- The kind of document that begins with a character. -/
def Kind.ofChar? (c : Char) : Option Kind :=
  if c.isDigit then some .digit
  else if c = '\"' then some .quote
  else if c = '[' then some .bracket
  else if c = '\x7b' then some .brace
  else none

theorem head?_write (style : Style) (level : Nat) (j : Json) (rest : List Char) :
    (j.write style level rest).head?.bind Kind.ofChar? = some j.kind := by
  cases j with
  | num n =>
    rw [write]
    cases hd : n.repr.toList with
    | nil =>
      rw [Nat.toList_repr] at hd
      exact absurd hd Nat.toDigits_ne_nil
    | cons d ds =>
      have hdigit : d.isDigit = true := isDigit_of_mem_repr (n := n) (hd ▸ List.mem_cons_self)
      simp [Kind.ofChar?, hdigit, kind]
  | str s =>
    rw [write]
    rfl
  | arr items =>
    rw [write]
    split <;> rfl
  | obj fields =>
    rw [write]
    split <;> rfl

/-- Nothing but blanks and ends of lines is put between the items of a document. -/
def Style.Blank (style : Style) : Prop :=
  ∀ level, ∀ c ∈ style.lineBreak level, c = ' ' ∨ c = '\n'

theorem blank_compactStyle : compactStyle.Blank := by
  intro level c hc
  cases hc

theorem blank_prettyStyle : prettyStyle.Blank := by
  intro level c hc
  rcases List.mem_cons.mp hc with rfl | hc
  · exact .inr rfl
  · exact .inl (List.eq_of_mem_replicate hc)

/-- What stands behind the last item of an array or object: neither a digit nor a comma. -/
def Closing (rest : List Char) : Prop :=
  ∀ c, rest.head? = some c → c.isDigit = false ∧ c ≠ ','

/-- A line break is blank, so that what is seen first behind it is blank or stands behind it. -/
theorem Style.Blank.head? {style : Style} (hs : style.Blank) {level : Nat} {rest : List Char}
    {c : Char} (h : (style.lineBreak level ++ rest).head? = some c) :
    c = ' ' ∨ c = '\n' ∨ rest.head? = some c := by
  cases hb : style.lineBreak level with
  | nil =>
    rw [hb] at h
    exact .inr (.inr h)
  | cons b bs =>
    rw [hb] at h
    cases h
    rcases hs level c (hb ▸ List.mem_cons_self) with h | h
    · exact .inl h
    · exact .inr (.inl h)

theorem closing_lineBreak {style : Style} (hs : style.Blank) (level : Nat) {bracket : Char}
    (hb : bracket = ']' ∨ bracket = '\x7d') (rest : List Char) :
    Closing (style.lineBreak level ++ bracket :: rest) := by
  intro c h
  rcases hs.head? h with rfl | rfl | h
  · decide
  · decide
  · cases h
    rcases hb with rfl | rfl <;> decide

/-! ## Items one after the other -/

section

variable {α : Type} {style : Style} {level : Nat}

/-- Items with a comma before each but the first, each written by `w`. -/
def separated (style : Style) (level : Nat) (w : α → List Char → List Char) (first : Bool) :
    List α → List Char → List Char
  | [], rest => rest
  | item :: items, rest =>
    (if first then [] else [',']) ++ style.lineBreak level ++
      w item (separated style level w false items rest)

/-- Items between brackets. -/
def bracketed (style : Style) (level : Nat) (w : α → List Char → List Char)
    (opening closing : Char) (items : List α) (rest : List Char) : List Char :=
  if items.isEmpty then opening :: closing :: rest
  else
    opening :: separated style (level + 1) w true items (style.lineBreak level ++ closing :: rest)

theorem writeItems_eq (first : Bool) (items : List Json) (rest : List Char) :
    writeItems style level first items rest =
      separated style level (write style level) first items rest := by
  induction items generalizing first with
  | nil => rw [writeItems, separated]
  | cons item items ih => rw [writeItems, separated, ih]

theorem writeFields_eq (first : Bool) (fields : List (String × Json)) (rest : List Char) :
    writeFields style level first fields rest =
      separated style level (writeField style level) first fields rest := by
  induction fields generalizing first with
  | nil => rw [writeFields, separated]
  | cons field fields ih => rw [writeFields, separated, ih]

theorem write_arr (items : List Json) (rest : List Char) :
    (arr items).write style level rest =
      bracketed style level (write style (level + 1)) '[' ']' items rest := by
  rw [write, writeItems_eq, bracketed]

theorem write_obj (fields : List (String × Json)) (rest : List Char) :
    (obj fields).write style level rest =
      bracketed style level (writeField style (level + 1)) '\x7b' '\x7d' fields rest := by
  rw [write, writeFields_eq, bracketed]

/-- Where the text of `a` ends can be seen from what is written. -/
def SelfDelimiting (w : α → List Char → List Char) (a : α) : Prop :=
  ∀ ⦃a' : α⦄ ⦃rest rest' : List Char⦄, NoDigit rest → NoDigit rest' → w a rest = w a' rest' →
    a = a' ∧ rest = rest'

theorem noDigit_separated (w : α → List Char → List Char) (items : List α) {rest : List Char}
    (h : Closing rest) : NoDigit (separated style level w false items rest) := by
  cases items with
  | nil => exact fun c hc => (h c hc).1
  | cons item items =>
    rintro c ⟨⟩
    rfl

/-- What closes an array or object does not go on with it. -/
theorem Closing.ne_comma {rest text : List Char} (h : Closing rest) : rest ≠ ',' :: text := by
  rintro rfl
  exact (h ',' rfl).2 rfl

/-- Items that are self-delimiting end where no comma follows. -/
theorem separated_inj {w : α → List Char → List Char} {first : Bool} {items items' : List α}
    (hw : ∀ item ∈ items, SelfDelimiting w item)
    (hf : first = true → (items = [] ↔ items' = [])) {rest rest' : List Char}
    (hr : Closing rest) (hr' : Closing rest')
    (h : separated style level w first items rest = separated style level w first items' rest') :
    items = items' ∧ rest = rest' := by
  induction items generalizing items' first with
  | nil =>
    cases items' with
    | nil => exact ⟨rfl, h⟩
    | cons item' items' =>
      cases first with
      | true => simp at hf
      | false => exact absurd h hr.ne_comma
  | cons item items ih =>
    cases items' with
    | nil =>
      cases first with
      | true => simp at hf
      | false => exact absurd h.symm hr'.ne_comma
    | cons item' items' =>
      rw [separated, separated, List.append_assoc, List.append_assoc] at h
      have htext := List.append_cancel_left (List.append_cancel_left h)
      obtain ⟨rfl, hmore⟩ := hw item List.mem_cons_self (noDigit_separated w items hr)
        (noDigit_separated w items' hr') htext
      have hnot : false = true → (items = [] ↔ items' = []) :=
        fun hfirst => absurd hfirst Bool.false_ne_true
      obtain ⟨rfl, hrest⟩ := ih (fun i hi => hw i (List.mem_cons_of_mem _ hi)) hnot hmore
      exact ⟨rfl, hrest⟩

/-- The bracket that closes an empty array or object is not the beginning of an item. -/
theorem bracket_ne_separated (hs : style.Blank) {w : α → List Char → List Char}
    (hk : ∀ a rest, ((w a rest).head?.bind Kind.ofChar?).isSome) {closing : Char}
    (hc : closing = ']' ∨ closing = '\x7d') {items : List α} (hi : items ≠ [])
    {rest rest' : List Char} : closing :: rest ≠ separated style level w true items rest' := by
  intro h
  obtain ⟨item, items, rfl⟩ := List.exists_cons_of_ne_nil hi
  rw [separated, if_pos rfl, List.nil_append] at h
  have hhead := (congrArg List.head? h).symm
  rcases hs.head? hhead with rfl | rfl | hitem
  · rcases hc with h | h <;> cases h
  · rcases hc with h | h <;> cases h
  · have hkind := hk item (separated style level w false items rest')
    rw [hitem] at hkind
    rcases hc with rfl | rfl <;> cases hkind

theorem bracketed_inj (hs : style.Blank) {w : α → List Char → List Char}
    (hk : ∀ a rest, ((w a rest).head?.bind Kind.ofChar?).isSome) {opening closing : Char}
    (hc : closing = ']' ∨ closing = '\x7d') {items items' : List α}
    (hw : ∀ item ∈ items, SelfDelimiting w item) {rest rest' : List Char}
    (h : bracketed style level w opening closing items rest =
      bracketed style level w opening closing items' rest') : items = items' ∧ rest = rest' := by
  unfold bracketed at h
  simp only [List.isEmpty_iff] at h
  split at h <;> split at h <;> have htail := (List.cons.inj h).2
  · next hi hi' => exact ⟨by rw [hi, hi'], (List.cons.inj htail).2⟩
  · next hi' => exact absurd htail (bracket_ne_separated hs hk hc hi')
  · next hi _ => exact absurd htail.symm (bracket_ne_separated hs hk hc hi)
  · next hi hi' =>
    obtain ⟨rfl, hend⟩ := separated_inj hw (fun _ => iff_of_false hi hi')
      (closing_lineBreak hs level hc rest) (closing_lineBreak hs level hc rest') htail
    exact ⟨rfl, (List.cons.inj (List.append_cancel_left hend)).2⟩

end

/-! ## Documents -/

/-- Documents with one text begin alike. -/
theorem kind_eq {style : Style} {level : Nat} {j j' : Json} {rest rest' : List Char}
    (h : j.write style level rest = j'.write style level rest') : j.kind = j'.kind := by
  have hkind := head?_write style level j rest
  rw [h, head?_write] at hkind
  exact (Option.some.inj hkind).symm

theorem isSome_head?_write (style : Style) (level : Nat) (j : Json) (rest : List Char) :
    ((j.write style level rest).head?.bind Kind.ofChar?).isSome := by
  rw [head?_write]
  rfl

theorem isSome_head?_writeField (style : Style) (level : Nat) (field : String × Json)
    (rest : List Char) : ((writeField style level field rest).head?.bind Kind.ofChar?).isSome := by
  rw [writeField]
  rfl

mutual

/-- A document ends where its text says so. -/
theorem write_inj {style : Style} (hs : style.Blank) (level : Nat) (j : Json) :
    SelfDelimiting (write style level) j := by
  intro j' rest rest' hr hr' h
  have hkind := kind_eq h
  match j, j' with
  | num n, num n' =>
    rw [write, write] at h
    obtain ⟨rfl, hrest⟩ := repr_inj hr hr' h
    exact ⟨rfl, hrest⟩
  | str s, str s' =>
    rw [write, write] at h
    obtain ⟨rfl, hrest⟩ := writeString_inj h
    exact ⟨rfl, hrest⟩
  | arr items, arr items' =>
    rw [write_arr, write_arr] at h
    obtain ⟨rfl, hrest⟩ := bracketed_inj hs (isSome_head?_write style (level + 1)) (.inl rfl)
      (writeItems_inj hs (level + 1) items) h
    exact ⟨rfl, hrest⟩
  | obj fields, obj fields' =>
    rw [write_obj, write_obj] at h
    obtain ⟨rfl, hrest⟩ := bracketed_inj hs (isSome_head?_writeField style (level + 1))
      (.inr rfl) (writeFields_inj hs (level + 1) fields) h
    exact ⟨rfl, hrest⟩
termination_by structural j

theorem writeItems_inj {style : Style} (hs : style.Blank) (level : Nat) (items : List Json) :
    ∀ item ∈ items, SelfDelimiting (write style level) item := by
  match items with
  | [] => exact nofun
  | first :: items =>
    intro item hitem
    rcases List.mem_cons.mp hitem with h | hitem
    · rw [h]
      exact write_inj hs level first
    · exact writeItems_inj hs level items item hitem
termination_by structural items

theorem writeFields_inj {style : Style} (hs : style.Blank) (level : Nat)
    (fields : List (String × Json)) :
    ∀ field ∈ fields, SelfDelimiting (writeField style level) field := by
  match fields with
  | [] => exact nofun
  | first :: fields =>
    intro field hfield
    rcases List.mem_cons.mp hfield with h | hfield
    · rw [h]
      exact writeField_inj hs level first
    · exact writeFields_inj hs level fields field hfield
termination_by structural fields

theorem writeField_inj {style : Style} (hs : style.Blank) (level : Nat) (field : String × Json) :
    SelfDelimiting (writeField style level) field := by
  match field with
  | (key, value) =>
    rintro ⟨key', value'⟩ rest rest' hr hr' h
    rw [writeField, writeField] at h
    obtain ⟨rfl, htext⟩ := writeString_inj h
    obtain ⟨rfl, hrest⟩ := write_inj hs level value hr hr' (List.append_cancel_left htext)
    exact ⟨rfl, hrest⟩
termination_by structural field

end

theorem noDigit_nil : NoDigit [] := nofun

theorem compact_inj {j j' : Json} : j.compact = j'.compact ↔ j = j' := by
  refine ⟨fun h => ?_, fun h => h ▸ rfl⟩
  exact (write_inj blank_compactStyle 0 j noDigit_nil noDigit_nil (String.ofList_injective h)).1

theorem pretty_inj {j j' : Json} : j.pretty = j'.pretty ↔ j = j' := by
  refine ⟨fun h => ?_, fun h => h ▸ rfl⟩
  exact (write_inj blank_prettyStyle 0 j noDigit_nil noDigit_nil (String.ofList_injective h)).1

end Json

/-! ## Traces and grammars -/

theorem Token.toJson_inj {t t' : Token} (h : t.toJson = t'.toJson) : t = t' := by
  obtain ⟨value, position⟩ := t
  obtain ⟨value', position'⟩ := t'
  simpa [Token.toJson] using h

mutual

theorem Trace.toJson_inj {t t' : Trace} (h : t.toJson = t'.toJson) : t = t' := by
  match t, t' with
  | .leaf tag token, .leaf tag' token' =>
    simp only [toJson, Json.obj.injEq, List.cons.injEq, Prod.mk.injEq, Json.str.injEq, true_and,
      and_true] at h
    rw [h.1, Token.toJson_inj h.2]
  | .leaf .., .branch .. => simp [toJson] at h
  | .branch .., .leaf .. => simp [toJson] at h
  | .branch tag children, .branch tag' children' =>
    simp only [toJson, Json.obj.injEq, List.cons.injEq, Prod.mk.injEq, Json.str.injEq,
      Json.arr.injEq, true_and, and_true] at h
    rw [h.1, Trace.toJsonAll_inj h.2]
termination_by structural t

theorem Trace.toJsonAll_inj {ts ts' : List Trace} (h : toJsonAll ts = toJsonAll ts') :
    ts = ts' := by
  match ts, ts' with
  | [], [] => rfl
  | [], _ :: _ => cases h
  | _ :: _, [] => cases h
  | t :: ts, t' :: ts' =>
    rw [toJsonAll, toJsonAll] at h
    obtain ⟨hfirst, hrest⟩ := List.cons.inj h
    rw [Trace.toJson_inj hfirst, Trace.toJsonAll_inj hrest]
termination_by structural ts

end

theorem Sym.toJson_injective : Function.Injective Sym.toJson := by
  intro s s' h
  cases s <;> cases s' <;> simp_all [Sym.toJson]

theorem Production.toJson_injective : Function.Injective Production.toJson := by
  rintro ⟨tag, alternatives⟩ ⟨tag', alternatives'⟩ h
  have hrow : Function.Injective fun alternative : List Sym =>
      Json.arr (alternative.map Sym.toJson) :=
    fun _ _ h => Sym.toJson_injective.list_map (Json.arr.inj h)
  simp only [Production.toJson, Production.alternativesJson, Json.obj.injEq, List.cons.injEq,
    Prod.mk.injEq, Json.str.injEq, Json.arr.injEq, true_and, and_true] at h
  rw [h.1, hrow.list_map h.2]

theorem Grammar.toJson_injective : Function.Injective Grammar.toJson := by
  rintro ⟨productions⟩ ⟨productions'⟩ h
  simp only [Grammar.toJson, Json.obj.injEq, List.cons.injEq, Prod.mk.injEq, Json.arr.injEq,
    true_and, and_true] at h
  rw [Production.toJson_injective.list_map h]

/-- The written documents lose nothing. Two traces with one text are the same, whatever their tags,
words and positions are, in the compact style as well as in the indented one; and two grammars with
one compact text have the same productions, in the same order and with the same alternatives. -/
theorem json_text_determines :
    (∀ t t' : Trace, t.toJson.compact = t'.toJson.compact ↔ t = t') ∧
    (∀ t t' : Trace, t.toJson.pretty = t'.toJson.pretty ↔ t = t') ∧
    ∀ g g' : Grammar, g.toJson.compact = g'.toJson.compact ↔ g.productions = g'.productions := by
  refine ⟨fun t t' => ?_, fun t t' => ?_, fun g g' => ?_⟩
  · rw [Json.compact_inj]
    exact ⟨Trace.toJson_inj, congrArg _⟩
  · rw [Json.pretty_inj]
    exact ⟨Trace.toJson_inj, congrArg _⟩
  · rw [Json.compact_inj]
    refine ⟨fun h => congrArg _ (Grammar.toJson_injective h), fun h => ?_⟩
    rw [Grammar.toJson, h]
    rfl

end Parlance
