import Mathlib.Algebra.Order.Field.Rat
import Mathlib.Data.List.Induction
import Mathlib.Data.List.TakeWhile
import Mathlib.Data.Nat.Digits.Defs
import Mathlib.Tactic.FieldSimp
import Mathlib.Tactic.Ring
import Parlance.Decimal.Numeral

/-
  How numerals are written, and what they denote. A spelling says which digits stand where: before
  the point, behind it, and in the exponent; what it denotes is read off by the places of the
  digits. `Numeral.read?` reads every spelling as the number that it denotes
  (`Spelling.read?_text`), and reads nothing else (`Numeral.exists_spelling`). The spellings that
  are whole numbers by their looks, without a point and an exponent, are those of `readInteger?`.
-/

namespace Parlance.Decimal

/-! ## Spellings -/

/-- The character of a digit. -/
def digit (d : Fin 10) : Char := Char.ofNat (48 + d)

/-- What may stand in front of digits. -/
inductive Sign where
  | absent
  | plus
  | minus
  deriving DecidableEq, Repr

namespace Sign

def text : Sign → List Char
  | absent => []
  | plus => ['+']
  | minus => ['-']

def negative : Sign → Bool
  | absent | plus => false
  | minus => true

/-- The number with the sign. -/
def apply (s : Sign) (n : Nat) : ℤ := if s.negative then -n else n

end Sign

/-- The number that digits denote in base ten, the first being the highest. -/
def natural (ds : List (Fin 10)) : Nat := Nat.ofDigits 10 (ds.reverse.map Fin.val)

/-- An exponent: `e` or `E`, a sign and digits. -/
structure Exponent where
  capital : Bool
  sign : Sign
  digits : List (Fin 10)
  digits_ne_nil : digits ≠ []

/-- How a numeral is written: a sign, digits, perhaps a point and more digits, perhaps an exponent.
There is a digit before the exponent. -/
structure Spelling where
  sign : Sign
  whole : List (Fin 10)
  fraction : Option (List (Fin 10))
  exponent : Option Exponent
  digits_ne_nil : whole ++ fraction.getD [] ≠ []

namespace Exponent

def text (x : Exponent) : List Char :=
  (if x.capital then 'E' else 'e') :: (x.sign.text ++ x.digits.map digit)

def value (x : Exponent) : ℤ := x.sign.apply (natural x.digits)

end Exponent

namespace Spelling

/-- The digits behind the point; there may be none, and no point either. -/
def decimals (s : Spelling) : List (Fin 10) := s.fraction.getD []

/-- What stands behind the digits in front of the point. -/
def tail (s : Spelling) : List Char :=
  s.fraction.elim [] (fun ds => '.' :: ds.map digit) ++ s.exponent.elim [] Exponent.text

def text (s : Spelling) : String :=
  String.ofList (s.sign.text ++ (s.whole.map digit ++ s.tail))

/-- The rational that is denoted: behind the point each digit is worth a tenth of the one before. -/
def value (s : Spelling) : ℚ :=
  (if s.sign.negative then -1 else 1) *
    (natural s.whole + Nat.ofDigits (1 / 10 : ℚ) (0 :: s.decimals.map Fin.val)) *
    10 ^ s.exponent.elim 0 Exponent.value

/-- A whole number by its looks. -/
def Plain (s : Spelling) : Prop := s.fraction = none ∧ s.exponent = none

instance (s : Spelling) : Decidable s.Plain :=
  decidable_of_iff (s.fraction.isNone = true ∧ s.exponent.isNone = true) (by simp [Plain])

end Spelling

/-- The rational that a numeral denotes. -/
def Numeral.value (x : Numeral) : ℚ :=
  (if x.negative then -1 else 1) * x.coefficient * 10 ^ x.exponent

/-! ## Digits -/

@[simp] theorem isDigit_digit (d : Fin 10) : isDigit (digit d) = true := by
  revert d
  decide

@[simp] theorem toNat_digit (d : Fin 10) : (digit d).toNat - 48 = d := by
  revert d
  decide

theorem digit_ne_sign (d : Fin 10) : digit d ≠ '-' ∧ digit d ≠ '+' := by
  revert d
  decide

theorem exists_digits {cs : List Char} (h : ∀ c ∈ cs, isDigit c = true) :
    ∃ ds : List (Fin 10), ds.map digit = cs := by
  induction cs with
  | nil => exact ⟨[], rfl⟩
  | cons c cs ih =>
    obtain ⟨ds, rfl⟩ := ih fun c' hc' => h c' (List.mem_cons_of_mem _ hc')
    have hc := h c List.mem_cons_self
    simp only [isDigit, Bool.and_eq_true, decide_eq_true_eq] at hc
    refine ⟨⟨c.toNat - 48, by omega⟩ :: ds, ?_⟩
    rw [List.map_cons, digit, Nat.add_sub_cancel' hc.1, Char.ofNat_toNat]

theorem digitsValue_append (cs cs' : List Char) :
    digitsValue (cs ++ cs') = digitsValue cs * 10 ^ cs'.length + digitsValue cs' := by
  have hstart : ∀ n, cs'.foldl (fun n c => 10 * n + (c.toNat - 48)) n =
      n * 10 ^ cs'.length + digitsValue cs' := by
    unfold digitsValue
    induction cs' with
    | nil => simp
    | cons c cs' ih =>
      intro n
      rw [List.foldl_cons, List.foldl_cons, ih, ih (10 * 0 + _), List.length_cons, pow_succ]
      ring
  rw [digitsValue, List.foldl_append]
  exact hstart _

theorem digitsValue_digits (ds : List (Fin 10)) : digitsValue (ds.map digit) = natural ds := by
  induction ds using List.reverseRecOn with
  | nil => rfl
  | append_singleton ds d ih =>
    rw [List.map_append, digitsValue_append, ih, natural, natural, List.reverse_append,
      List.reverse_singleton, List.singleton_append, List.map_cons (f := Fin.val),
      Nat.ofDigits_cons]
    simp [digitsValue]
    ring

theorem natural_append (ds ds' : List (Fin 10)) :
    natural (ds ++ ds') = natural ds * 10 ^ ds'.length + natural ds' := by
  rw [← digitsValue_digits, List.map_append, digitsValue_append, digitsValue_digits,
    digitsValue_digits, List.length_map]

/-- Digits behind the point are tenths, hundredths, and so on. -/
theorem ofDigits_tenth (ds : List (Fin 10)) :
    Nat.ofDigits (1 / 10 : ℚ) (0 :: ds.map Fin.val) = natural ds / 10 ^ ds.length := by
  induction ds with
  | nil => simp [natural, Nat.ofDigits]
  | cons d ds ih =>
    have hd : natural (d :: ds) = d * 10 ^ ds.length + natural ds := by
      rw [← List.singleton_append, natural_append]
      simp [natural]
    have hstep : Nat.ofDigits (1 / 10 : ℚ) (0 :: (d :: ds).map Fin.val) =
        1 / 10 * (d + Nat.ofDigits (1 / 10 : ℚ) (0 :: ds.map Fin.val)) := by
      simp [Nat.ofDigits]
    rw [hstep, ih, hd, List.length_cons, pow_succ]
    push_cast
    field_simp

/-! ## Reading the parts -/

/-- A sign is taken off what does not start with one. -/
theorem takeSign_text (s : Sign) {cs : List Char} (h : ∀ c ∈ cs.head?, c ≠ '-' ∧ c ≠ '+') :
    takeSign (s.text ++ cs) = (s.negative, cs) := by
  cases s with
  | plus | minus => rfl
  | absent =>
    unfold takeSign
    split
    · next heq => exact absurd rfl (h '-' (by simpa [Sign.text] using congrArg List.head? heq)).1
    · next heq => exact absurd rfl (h '+' (by simpa [Sign.text] using congrArg List.head? heq)).2
    · rfl

theorem exists_sign (cs : List Char) :
    ∃ s : Sign, cs = s.text ++ (takeSign cs).2 ∧ (takeSign cs).1 = s.negative := by
  unfold takeSign
  split
  · exact ⟨.minus, rfl, rfl⟩
  · exact ⟨.plus, rfl, rfl⟩
  · exact ⟨.absent, rfl, rfl⟩

theorem readDigits?_digits {ds : List (Fin 10)} (h : ds ≠ []) :
    readDigits? (ds.map digit) = some (natural ds) := by
  have hall : (ds.map digit).all isDigit = true := by simp
  rw [readDigits?, hall, digitsValue_digits]
  simp [h]

theorem exists_of_readDigits? {cs : List Char} {n : Nat} (h : readDigits? cs = some n) :
    ∃ ds : List (Fin 10), ds ≠ [] ∧ ds.map digit = cs ∧ natural ds = n := by
  unfold readDigits? at h
  split at h
  · next hcs =>
    simp only [Bool.and_eq_true, Bool.not_eq_true', List.isEmpty_eq_false_iff,
      List.all_eq_true] at hcs
    obtain ⟨ds, rfl⟩ := exists_digits hcs.2
    cases h
    exact ⟨ds, by simpa using hcs.1, rfl, (digitsValue_digits ds).symm⟩
  · cases h

theorem head?_digits {ds : List (Fin 10)} (cs : List Char) (h : ds ≠ []) :
    ∀ c ∈ (ds.map digit ++ cs).head?, c ≠ '-' ∧ c ≠ '+' := by
  obtain ⟨d, ds', rfl⟩ := List.exists_cons_of_ne_nil h
  simp [digit_ne_sign]

/-- Digits are taken up to what does not start with one. -/
theorem takeWhile_digits (ds : List (Fin 10)) {cs : List Char}
    (h : ∀ c ∈ cs.head?, isDigit c = false) :
    (ds.map digit ++ cs).takeWhile isDigit = ds.map digit ∧
      (ds.map digit ++ cs).dropWhile isDigit = cs := by
  have hall : ∀ c ∈ ds.map digit, isDigit c = true := by simp
  rw [List.takeWhile_append_of_pos hall, List.dropWhile_append_of_pos hall]
  cases cs with
  | nil => simp
  | cons c cs => simp [h c rfl]

/-- A sign and digits are read as a whole number. -/
theorem readInteger?_text (s : Sign) {ds : List (Fin 10)} (h : ds ≠ []) :
    readInteger? (String.ofList (s.text ++ ds.map digit)) = some (s.apply (natural ds)) := by
  have hsign : takeSign (s.text ++ ds.map digit) = (s.negative, ds.map digit) :=
    takeSign_text s (by simpa using head?_digits [] h)
  simp only [readInteger?, String.toList_ofList, hsign, readDigits?_digits h]
  rfl

theorem exists_of_readInteger? {word : String} {n : ℤ} (h : readInteger? word = some n) :
    ∃ (s : Sign) (ds : List (Fin 10)), ds ≠ [] ∧ word.toList = s.text ++ ds.map digit := by
  unfold readInteger? at h
  obtain ⟨s, hs, -⟩ := exists_sign word.toList
  obtain ⟨k, hk, -⟩ := Option.map_eq_some_iff.mp h
  obtain ⟨m, hm, -⟩ := Option.bind_eq_some_iff.mp hk
  obtain ⟨ds, hne, hds, -⟩ := exists_of_readDigits? hm
  exact ⟨s, ds, hne, hds ▸ hs⟩

/-- Behind its mark an exponent is a whole number. -/
theorem readExponent?_cons (c : Char) (rest : List Char) :
    readExponent? (c :: rest) =
      if c = 'e' ∨ c = 'E' then readInteger? (String.ofList rest) else none := by
  rw [readExponent?, readInteger?, String.toList_ofList]

theorem readExponent?_text (x : Option Exponent) :
    readExponent? (x.elim [] Exponent.text) = some (x.elim 0 Exponent.value) := by
  cases x with
  | none => rfl
  | some x =>
    have hmark : ∀ capital : Bool,
        (if capital then 'E' else 'e') = 'e' ∨ (if capital then 'E' else 'e') = 'E' := by decide
    rw [Option.elim_some, Exponent.text, readExponent?_cons, if_pos (hmark x.capital)]
    exact readInteger?_text x.sign x.digits_ne_nil

theorem exists_exponent {cs : List Char} {e : ℤ} (h : readExponent? cs = some e) :
    ∃ x : Option Exponent, x.elim [] Exponent.text = cs := by
  cases cs with
  | nil => exact ⟨none, rfl⟩
  | cons c rest =>
    rw [readExponent?_cons] at h
    split at h
    · next hc =>
      obtain ⟨sign, ds, hne, hrest⟩ := exists_of_readInteger? h
      rw [String.toList_ofList] at hrest
      refine ⟨some ⟨decide (c = 'E'), sign, ds, hne⟩, ?_⟩
      rcases hc with rfl | rfl <;> simp [Exponent.text, hrest]
    · cases h

/-! ## Reading a numeral -/

theorem Exponent.head?_text (x : Option Exponent) :
    ∀ c ∈ (x.elim [] Exponent.text).head?, isDigit c = false ∧ c ≠ '.' := by
  cases x with
  | none => simp
  | some x => cases hx : x.capital <;> simp [Exponent.text, hx] <;> decide

namespace Spelling

variable (s : Spelling)

theorem takeFraction_text : takeFraction (s.whole.map digit ++ s.tail) =
    (s.whole.map digit, s.decimals.map digit, s.exponent.elim [] Exponent.text) := by
  have hexponent := Exponent.head?_text s.exponent
  unfold tail decimals
  cases s.fraction with
  | none =>
    obtain ⟨htake, hdrop⟩ := takeWhile_digits s.whole fun c hc => (hexponent c hc).1
    simp only [Option.elim_none, List.nil_append, Option.getD_none, List.map_nil]
    unfold takeFraction
    simp only [htake, hdrop]
    split
    · next heq => exact absurd rfl (hexponent '.' (by rw [heq]; rfl)).2
    · rfl
  | some ds =>
    have hpoint : ∀ c ∈ ('.' :: (ds.map digit ++ s.exponent.elim [] Exponent.text)).head?,
        isDigit c = false := by
      intro c hc
      cases hc
      decide
    obtain ⟨htake, hdrop⟩ := takeWhile_digits s.whole hpoint
    obtain ⟨htake', hdrop'⟩ := takeWhile_digits ds fun c hc => (hexponent c hc).1
    unfold takeFraction
    simp only [Option.elim_some, List.cons_append, Option.getD_some, htake, hdrop, htake', hdrop']

theorem head?_body : ∀ c ∈ (s.whole.map digit ++ s.tail).head?, c ≠ '-' ∧ c ≠ '+' := by
  by_cases hwhole : s.whole = []
  · -- The first character is the point, because there is a digit behind it.
    obtain ⟨ds, hds⟩ : ∃ ds, s.fraction = some ds := by
      refine Option.ne_none_iff_exists'.mp fun hnone => s.digits_ne_nil ?_
      simp [hwhole, hnone]
    simp [hwhole, tail, hds]
  · exact head?_digits _ hwhole

/-- Every spelling is read as what it denotes. -/
theorem read?_text : ∃ x, Numeral.read? s.text = some x ∧ x.value = s.value := by
  have hne : ¬ ((s.whole.map digit).isEmpty && (s.decimals.map digit).isEmpty) = true := by
    have h := s.digits_ne_nil
    simpa [decimals, List.isEmpty_iff] using h
  refine ⟨⟨s.sign.negative, natural (s.whole ++ s.decimals),
    s.exponent.elim 0 Exponent.value - s.decimals.length⟩, ?_, ?_⟩
  · simp only [Numeral.read?, text, String.toList_ofList, takeSign_text s.sign s.head?_body,
      takeFraction_text, if_neg hne, readExponent?_text, Option.map_some, ← List.map_append,
      digitsValue_digits, List.length_map]
  · rw [Numeral.value, value, natural_append, ofDigits_tenth, zpow_sub₀ (by norm_num),
      zpow_natCast]
    push_cast
    field_simp

end Spelling

theorem exists_digits_takeWhile (cs : List Char) :
    ∃ ds : List (Fin 10), ds.map digit = cs.takeWhile isDigit :=
  exists_digits fun _ hc => List.mem_takeWhile_imp hc

theorem exists_fraction (cs : List Char) :
    ∃ (whole : List (Fin 10)) (fraction : Option (List (Fin 10))),
      cs = whole.map digit ++ (fraction.elim [] (fun ds => '.' :: ds.map digit) ++
        (takeFraction cs).2.2) ∧
      (takeFraction cs).1 = whole.map digit ∧
      (takeFraction cs).2.1 = (fraction.getD []).map digit := by
  obtain ⟨whole, hwhole⟩ := exists_digits_takeWhile cs
  have hcs := List.takeWhile_append_dropWhile (p := isDigit) (l := cs)
  unfold takeFraction
  dsimp only
  split
  · next rest hrest =>
    obtain ⟨ds, hds⟩ := exists_digits_takeWhile rest
    refine ⟨whole, some ds, ?_, hwhole.symm, hds.symm⟩
    rw [← hcs, hrest]
    simp [hwhole, hds]
  · exact ⟨whole, none, by simp [hwhole], hwhole.symm, rfl⟩

/-- Nothing is read but spellings. -/
theorem Numeral.exists_spelling {word : String} {x : Numeral} (h : Numeral.read? word = some x) :
    ∃ s : Spelling, s.text = word := by
  obtain ⟨sign, hsign, -⟩ := exists_sign word.toList
  obtain ⟨whole, fraction, hbody, hwhole, hfraction⟩ := exists_fraction (takeSign word.toList).2
  unfold Numeral.read? at h
  simp only [hwhole, hfraction] at h
  split at h
  · cases h
  · next hne =>
    obtain ⟨e, he, -⟩ := Option.map_eq_some_iff.mp h
    obtain ⟨exponent, hexponent⟩ := exists_exponent he
    refine ⟨⟨sign, whole, fraction, exponent, fun hnil => hne ?_⟩, ?_⟩
    · simp [List.append_eq_nil_iff.mp hnil]
    · rw [Spelling.text, Spelling.tail, hexponent, ← hbody, ← hsign, String.ofList_toList]

/-! ## Whole numbers -/

namespace Spelling

variable {s : Spelling}

/-- What looks like a whole number is read as the one that it denotes. -/
theorem Plain.readInteger?_text (h : s.Plain) :
    ∃ n : ℤ, readInteger? s.text = some n ∧ s.value = n := by
  have hne : s.whole ≠ [] := fun hnil => s.digits_ne_nil (by simp [hnil, h.1])
  refine ⟨s.sign.apply (natural s.whole), ?_, ?_⟩
  · have htail : s.tail = [] := by simp [tail, h.1, h.2]
    rw [text, htail, List.append_nil]
    exact Decimal.readInteger?_text s.sign hne
  · cases hs : s.sign <;>
      simp [value, decimals, h.1, h.2, hs, Sign.negative, Sign.apply, Nat.ofDigits]

theorem exists_not_digit (h : ¬ s.Plain) : ∃ c ∈ s.tail, isDigit c = false := by
  cases hf : s.fraction with
  | some ds => exact ⟨'.', by simp [tail, hf], by decide⟩
  | none =>
    obtain ⟨x, hx⟩ : ∃ x, s.exponent = some x := Option.ne_none_iff_exists'.mp fun hx => h ⟨hf, hx⟩
    have hmark : (if x.capital then 'E' else 'e') ∈ s.tail := by
      simp [tail, hf, hx, Exponent.text]
    exact ⟨_, hmark, by cases x.capital <;> decide⟩

/-- What does not look like a whole number is not read as one. -/
theorem readInteger?_eq_none (h : ¬ s.Plain) : readInteger? s.text = none := by
  obtain ⟨c, hc, hdigit⟩ := exists_not_digit h
  have hall : (s.whole.map digit ++ s.tail).all isDigit = false :=
    List.all_eq_false.mpr ⟨c, List.mem_append_right _ hc, by simp [hdigit]⟩
  simp only [readInteger?, text, String.toList_ofList, takeSign_text s.sign s.head?_body,
    readDigits?, hall, Bool.and_false]
  rfl

end Spelling

theorem exists_plain {word : String} {n : ℤ} (h : readInteger? word = some n) :
    ∃ s : Spelling, s.Plain ∧ s.text = word := by
  obtain ⟨sign, ds, hne, hword⟩ := exists_of_readInteger? h
  refine ⟨⟨sign, ds, none, none, by simpa using hne⟩, ⟨rfl, rfl⟩, ?_⟩
  simp [Spelling.text, Spelling.tail, ← hword]

end Parlance.Decimal
