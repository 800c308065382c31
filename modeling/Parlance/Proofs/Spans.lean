import Mathlib.Algebra.GroupWithZero.Nat
import Parlance.ProgramText

/-
  Spans of tokens in the joined line. `ProgramText.text_eq` splits the line at a token into what
  stands before it, the token, and what stands behind it; what stands before it is as many bytes
  long as its span says (`ProgramText.spanAt_of_getElem?`). Hence the span cuts the token out of
  the bytes of the line, whatever characters the tokens are made of, and whether or not they are
  empty.

  The line can be put together token by token, with the bytes counted on the way; one step of that
  is `ProgramText.push`, and what it makes of a list of tokens is `ProgramText.ofTokens`
  (`ofTokens_concat` for a step, `foldl_push` for a run).
-/

namespace Parlance

/-- The bytes of the text that lie in the span are those of the piece. -/
def Span.Cuts (s : Span) (text piece : String) : Prop :=
  text.toByteArray.extract s.offset (s.offset + s.length) = piece.toByteArray

/-- The first byte behind the span. -/
def Span.stop (s : Span) : Nat := s.offset + s.length

/-- The span lies in the text, and starts and stops between two characters. -/
structure Span.Within (s : Span) (text : String) : Prop where
  stop_le : s.stop ≤ text.utf8ByteSize
  starts : String.Pos.Raw.IsValid text ⟨s.offset⟩
  stops : String.Pos.Raw.IsValid text ⟨s.stop⟩

theorem Span.cuts_append (before piece after : String) :
    (⟨before.utf8ByteSize, piece.utf8ByteSize⟩ : Span).Cuts (before ++ piece ++ after) piece := by
  have hsize : (before ++ piece).toByteArray.size =
      before.utf8ByteSize + piece.utf8ByteSize := String.utf8ByteSize_append
  have hbehind : after.toByteArray.extract
      (before.utf8ByteSize - (before ++ piece).toByteArray.size)
      (before.utf8ByteSize + piece.utf8ByteSize - (before ++ piece).toByteArray.size) =
        ByteArray.empty := by
    rw [hsize, Nat.sub_self, ByteArray.extract_eq_empty_iff]
    omega
  unfold Cuts
  rw [String.toByteArray_append, ByteArray.extract_append, hbehind, ByteArray.append_empty,
    String.toByteArray_append]
  exact ByteArray.extract_append_eq_right rfl rfl

theorem Span.within_append (before piece after : String) :
    (⟨before.utf8ByteSize, piece.utf8ByteSize⟩ : Span).Within (before ++ piece ++ after) where
  stop_le := by
    rw [stop, String.utf8ByteSize_append, String.utf8ByteSize_append]
    exact Nat.le_add_right ..
  starts := String.Pos.Raw.isValid_iff_exists_append.mpr
    ⟨before, piece ++ after, String.append_assoc, rfl⟩
  stops := String.Pos.Raw.isValid_iff_exists_append.mpr
    ⟨before ++ piece, after, rfl, by rw [String.rawEndPos, String.utf8ByteSize_append]; rfl⟩

namespace ProgramText

/-- What stands before the token with the given index: every earlier token, and a space. -/
def lead (tokens : List String) (i : Nat) : String :=
  String.join ((tokens.take i).map (· ++ " "))

theorem lead_cons (first : String) (rest : List String) (i : Nat) :
    lead (first :: rest) (i + 1) = first ++ " " ++ lead rest i := by
  unfold lead
  rw [List.take_succ_cons, List.map_cons, String.join_cons]

theorem lead_succ {tokens : List String} {i : Nat} {token : String}
    (h : tokens[i]? = some token) : lead tokens (i + 1) = lead tokens i ++ token ++ " " := by
  unfold lead
  rw [List.take_add_one, h, Option.toList_some, List.map_append, String.join_append,
    List.map_singleton, String.join_cons, String.join_nil, String.append_empty,
    String.append_assoc]

/-- The number of bytes before the token with the given index. -/
def leadSize (tokens : List String) (i : Nat) : Nat :=
  ((tokens.take i).map fun token => token.utf8ByteSize + 1).sum

theorem leadSize_cons (first : String) (rest : List String) (i : Nat) :
    leadSize (first :: rest) (i + 1) = first.utf8ByteSize + 1 + leadSize rest i := by
  unfold leadSize
  rw [List.take_succ_cons, List.map_cons, List.sum_cons]

theorem utf8ByteSize_lead (tokens : List String) (i : Nat) :
    (lead tokens i).utf8ByteSize = leadSize tokens i := by
  unfold lead leadSize
  induction tokens.take i with
  | nil => rfl
  | cons token rest ih =>
    have hspace : " ".utf8ByteSize = 1 := rfl
    rw [List.map_cons, String.join_cons, String.utf8ByteSize_append, String.utf8ByteSize_append,
      hspace, ih, List.map_cons, List.sum_cons]

/-- The line, split at a token. -/
theorem text_eq {tokens : List String} {i : Nat} {token : String} (h : tokens[i]? = some token) :
    ∃ after, (ofTokens tokens).text = lead tokens i ++ token ++ after := by
  unfold ofTokens
  dsimp only
  induction tokens generalizing i with
  | nil => cases h
  | cons first rest ih =>
    cases i with
    | zero =>
      cases h
      have hlead : lead (token :: rest) 0 = "" := rfl
      rw [hlead, String.empty_append]
      cases rest with
      | nil => exact ⟨"", by rw [Text.joinWith, String.append_empty]⟩
      | cons second rest => exact ⟨" " ++ Text.joinWith " " (second :: rest), by
          rw [Text.joinWith, String.append_assoc]⟩
    | succ i =>
      cases rest with
      | nil => cases h
      | cons second rest =>
        obtain ⟨after, hafter⟩ := ih h
        refine ⟨after, ?_⟩
        rw [Text.joinWith, hafter, lead_cons]
        simp only [String.append_assoc]

theorem getElem?_spansFrom (offset : Nat) (tokens : List String) (i : Nat) :
    (spansFrom offset tokens)[i]? =
      tokens[i]?.map fun token => ⟨offset + leadSize tokens i, token.utf8ByteSize⟩ := by
  induction tokens generalizing offset i with
  | nil => rfl
  | cons first rest ih =>
    cases i with
    | zero => rfl
    | succ i =>
      rw [spansFrom, List.getElem?_cons_succ, List.getElem?_cons_succ, ih, leadSize_cons]
      simp only [Nat.add_assoc]

theorem getElem?_spans (tokens : List String) (i : Nat) :
    (ofTokens tokens).spans[i]? =
      tokens[i]?.map fun token => ⟨leadSize tokens i, token.utf8ByteSize⟩ := by
  unfold ofTokens
  dsimp only
  rw [getElem?_spansFrom]
  simp only [Nat.zero_add]

/-- The span of a token starts behind what stands before it, and is as long as the token. -/
theorem spanAt_of_getElem? {tokens : List String} {i : Nat} {token : String}
    (h : tokens[i]? = some token) :
    (ofTokens tokens).spanAt i = ⟨leadSize tokens i, token.utf8ByteSize⟩ := by
  rw [spanAt, List.getD_eq_getElem?_getD, getElem?_spans, h, Option.map_some, Option.getD_some]

theorem cuts_spanAt {tokens : List String} {i : Nat} {token : String}
    (h : tokens[i]? = some token) :
    ((ofTokens tokens).spanAt i).Cuts (ofTokens tokens).text token := by
  obtain ⟨after, hafter⟩ := text_eq h
  rw [spanAt_of_getElem? h, hafter, ← utf8ByteSize_lead]
  exact Span.cuts_append _ _ _

/-- Behind the last token, the span is the empty one at the end of the line. -/
theorem spanAt_of_length_le {tokens : List String} {i : Nat} (h : tokens.length ≤ i) :
    (ofTokens tokens).spanAt i = ⟨(ofTokens tokens).text.utf8ByteSize, 0⟩ := by
  rw [spanAt, List.getD_eq_getElem?_getD, getElem?_spans, List.getElem?_eq_none h, Option.map_none,
    Option.getD_none]

/-! ## The line, put together token by token -/

/-- The line with one more token, a space before it unless it is the first, and its span noted. -/
def push (p : ProgramText) (token : String) : ProgramText :=
  let front := if p.spans.isEmpty then p.text else p.text ++ " "
  let text := front ++ token
  ⟨text, p.spans ++ [⟨front.utf8ByteSize, text.utf8ByteSize - front.utf8ByteSize⟩]⟩

/-- In front of a token that follows all the others stands the line so far, with a space behind it
if there is one. -/
theorem lead_length (tokens : List String) :
    lead tokens tokens.length =
      if tokens.isEmpty then (ofTokens tokens).text else (ofTokens tokens).text ++ " " := by
  unfold ofTokens
  dsimp only
  induction tokens with
  | nil => rfl
  | cons first rest ih =>
    rw [List.length_cons, lead_cons, ih]
    cases rest with
    | nil => exact String.append_empty
    | cons second rest =>
      simp only [List.isEmpty_cons, Bool.false_eq_true, if_false, Text.joinWith,
        String.append_assoc]

theorem text_concat (tokens : List String) (token : String) :
    (ofTokens (tokens ++ [token])).text = lead tokens tokens.length ++ token := by
  rw [lead_length]
  cases tokens with
  | nil => exact String.empty_append.symm
  | cons first rest =>
    unfold ofTokens
    dsimp only
    rw [Text.joinWith_eq_intercalate, Text.joinWith_eq_intercalate,
      String.intercalate_append_of_ne_nil (by simp) (by simp), String.intercalate_singleton]
    rfl

theorem spansFrom_concat (offset : Nat) (tokens : List String) (token : String) :
    spansFrom offset (tokens ++ [token]) =
      spansFrom offset tokens ++
        [⟨offset + leadSize tokens tokens.length, token.utf8ByteSize⟩] := by
  induction tokens generalizing offset with
  | nil => rfl
  | cons first rest ih =>
    rw [List.cons_append, spansFrom, ih, spansFrom, List.length_cons, leadSize_cons]
    simp only [List.cons_append, Nat.add_assoc]

theorem length_spansFrom (offset : Nat) (tokens : List String) :
    (spansFrom offset tokens).length = tokens.length := by
  induction tokens generalizing offset with
  | nil => rfl
  | cons first rest ih => rw [spansFrom, List.length_cons, ih, List.length_cons]

theorem getLast?_spans_concat (tokens : List String) (token : String) :
    (ofTokens (tokens ++ [token])).spans.getLast? =
      some ⟨leadSize tokens tokens.length, token.utf8ByteSize⟩ := by
  unfold ofTokens
  dsimp only
  rw [spansFrom_concat, List.getLast?_concat, Nat.zero_add]

theorem ofTokens_concat (tokens : List String) (token : String) :
    ofTokens (tokens ++ [token]) = (ofTokens tokens).push token := by
  have hfront : lead tokens tokens.length =
      if (ofTokens tokens).spans.isEmpty then (ofTokens tokens).text
      else (ofTokens tokens).text ++ " " := by
    rw [lead_length]
    cases tokens <;> rfl
  have hsize : (lead tokens tokens.length ++ token).utf8ByteSize -
      leadSize tokens tokens.length = token.utf8ByteSize := by
    rw [String.utf8ByteSize_append, utf8ByteSize_lead, Nat.add_sub_cancel_left]
  unfold push
  dsimp only
  rw [← hfront, utf8ByteSize_lead, hsize, ← text_concat]
  unfold ofTokens
  rw [spansFrom_concat, Nat.zero_add]

theorem foldl_push (front tokens : List String) :
    tokens.foldl push (ofTokens front) = ofTokens (front ++ tokens) := by
  induction tokens generalizing front with
  | nil => rw [List.append_nil, List.foldl_nil]
  | cons token tokens ih =>
    rw [List.foldl_cons, ← ofTokens_concat, ih, List.append_assoc, List.singleton_append]

/-! ## Tiles -/

/-- Behind a token that another one follows, the line goes on with the space and that token. -/
theorem cuts_space {tokens : List String} {i : Nat} {token next : String}
    (h : tokens[i]? = some token) (hnext : tokens[i + 1]? = some next) :
    (⟨leadSize tokens i + token.utf8ByteSize, 1⟩ : Span).Cuts (ofTokens tokens).text " " := by
  obtain ⟨after, hafter⟩ := text_eq hnext
  have hsize : leadSize tokens i + token.utf8ByteSize =
      (lead tokens i ++ token).utf8ByteSize := by
    rw [String.utf8ByteSize_append, utf8ByteSize_lead]
  rw [hafter, lead_succ h, hsize, String.append_assoc]
  exact Span.cuts_append (lead tokens i ++ token) " " (next ++ after)

theorem leadSize_succ {tokens : List String} {i : Nat} {token : String}
    (h : tokens[i]? = some token) :
    leadSize tokens (i + 1) = leadSize tokens i + token.utf8ByteSize + 1 := by
  rw [← utf8ByteSize_lead, lead_succ h, String.utf8ByteSize_append, String.utf8ByteSize_append,
    utf8ByteSize_lead]
  rfl

theorem within_spanAt (tokens : List String) (position : Nat) :
    ((ofTokens tokens).spanAt position).Within (ofTokens tokens).text := by
  cases h : tokens[position]? with
  | some token =>
    obtain ⟨after, hafter⟩ := text_eq h
    rw [spanAt_of_getElem? h, hafter, ← utf8ByteSize_lead]
    exact Span.within_append _ _ _
  | none =>
    rw [spanAt_of_length_le (List.getElem?_eq_none_iff.mp h)]
    have hend := Span.within_append (ofTokens tokens).text "" ""
    rw [String.append_empty, String.append_empty] at hend
    exact hend

theorem exists_span_of_getElem? {tokens : List String} {i : Nat} {token : String}
    (h : tokens[i]? = some token) :
    ∃ s : Span, (ofTokens tokens).spans[i]? = some s ∧ s.Cuts (ofTokens tokens).text token := by
  have hspan : (ofTokens tokens).spans[i]? = some ((ofTokens tokens).spanAt i) := by
    rw [getElem?_spans, h, spanAt_of_getElem? h]
    rfl
  exact ⟨_, hspan, cuts_spanAt h⟩

theorem offset_of_head? {tokens : List String} {s : Span}
    (h : (ofTokens tokens).spans.head? = some s) : s.offset = 0 := by
  cases tokens with
  | nil => cases h
  | cons first rest =>
    obtain rfl := Option.some.inj h
    rfl

theorem neighbours_of_getElem? {tokens : List String} {i : Nat} {s t : Span}
    (hs : (ofTokens tokens).spans[i]? = some s) (ht : (ofTokens tokens).spans[i + 1]? = some t) :
    t.offset = s.stop + 1 ∧ (⟨s.stop, 1⟩ : Span).Cuts (ofTokens tokens).text " " := by
  rw [getElem?_spans, Option.map_eq_some_iff] at hs ht
  obtain ⟨token, htoken, rfl⟩ := hs
  obtain ⟨next, hnext, rfl⟩ := ht
  exact ⟨leadSize_succ htoken, cuts_space htoken hnext⟩

theorem stop_of_getLast? {tokens : List String} {s : Span}
    (h : (ofTokens tokens).spans.getLast? = some s) :
    s.stop = (ofTokens tokens).text.utf8ByteSize := by
  rcases List.eq_nil_or_concat tokens with rfl | ⟨front, last, rfl⟩
  · cases h
  · rw [List.concat_eq_append] at h ⊢
    rw [getLast?_spans_concat, Option.some.injEq] at h
    rw [← h, text_concat, String.utf8ByteSize_append, utf8ByteSize_lead]
    rfl

/-- The spans tile the line. The line, put together token by token, is the tokens with single
spaces between them, and has one span per token. The bytes in the span of a token are those of the
token; the first span starts at the first byte, from each to the next there is one byte, the
space, and the last one stops at the end of the line. Whatever position is asked for, the answer
is a span that lies in the line, between two characters at either end; past the last token it is
the empty one at the end. -/
theorem spans_tile_line (tokens : List String) :
    let p := tokens.foldl push ⟨"", []⟩
    p = ofTokens tokens ∧
    p.text = " ".intercalate tokens ∧
    p.spans.length = tokens.length ∧
    (∀ (i : Nat) (token : String), tokens[i]? = some token →
      ∃ s : Span, p.spans[i]? = some s ∧ s.Cuts p.text token) ∧
    (∀ s, p.spans.head? = some s → s.offset = 0) ∧
    (∀ (i : Nat) (s t : Span), p.spans[i]? = some s → p.spans[i + 1]? = some t →
      t.offset = s.stop + 1 ∧ (⟨s.stop, 1⟩ : Span).Cuts p.text " ") ∧
    (∀ s, p.spans.getLast? = some s → s.stop = p.text.utf8ByteSize) ∧
    ∀ position, (p.spanAt position).Within p.text ∧
      (tokens.length ≤ position → p.spanAt position = ⟨p.text.utf8ByteSize, 0⟩) := by
  have hpush : tokens.foldl push ⟨"", []⟩ = ofTokens tokens := foldl_push [] tokens
  dsimp only
  rw [hpush]
  exact ⟨rfl, Text.joinWith_eq_intercalate " " tokens, length_spansFrom 0 tokens,
    fun i token => exists_span_of_getElem?, fun s => offset_of_head?,
    fun i s t => neighbours_of_getElem?, fun s => stop_of_getLast?,
    fun position => ⟨within_spanAt tokens position, spanAt_of_length_le⟩⟩

/-- Two empty words and one of three bytes: the spans start behind the spaces. -/
example : ofTokens ["", "値", "", "a"] = ⟨" 値  a", [⟨0, 0⟩, ⟨1, 3⟩, ⟨5, 0⟩, ⟨6, 1⟩]⟩ := by
  decide

end ProgramText

end Parlance
