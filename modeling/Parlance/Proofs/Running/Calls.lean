import Parlance.Proofs.Reading.Programs

/-
  The calls of a program and its value. The keyword nodes of a program in post-order are its
  `calls`, and `value` is what it stands for if the result of each rule is a function of its
  arguments. The two agree on how a program ends: with a value if no call fails, and else with the
  failure of the first call that does (`Program.ends_value`). Up to that one, calls are `made`.
-/

namespace Parlance

variable {ι W V : Type}

/-! ## Calls and values -/

/-- A keyword node of a program, with the programs of its arguments. -/
structure Call (ι W V : Type) where
  keyword : Token
  rule : Rule ι W V
  args : List (Program ι W V)

namespace Program

mutual

/-- The keyword nodes in post-order: a call comes after the calls in its arguments. -/
def calls : Program ι W V → List (Call ι W V)
  | literal .. => []
  | call _ keyword rule args => callsAll args ++ [⟨keyword, rule, args⟩]
  | list _ _ items _ => callsAll items
termination_by structural p => p

/-- The keyword nodes of a list of programs. -/
def callsAll : List (Program ι W V) → List (Call ι W V)
  | [] => []
  | p :: rest => p.calls ++ callsAll rest
termination_by structural ps => ps

end

mutual

/-- What a program stands for if `result rule` is what a rule gives for its arguments: a value, or
the first failure from left to right. -/
def value (result : Rule ι W V → List V → Except Error V) : Program ι W V → Except Error V
  | literal _ _ value => .ok value
  | call _ _ rule args => (valueAll result args).bind (result rule)
  | list _ r items _ => (valueAll result items).map r.gather
termination_by structural p => p

/-- The values of a list of programs in order. -/
def valueAll (result : Rule ι W V → List V → Except Error V) :
    List (Program ι W V) → Except Error (List V)
  | [] => .ok []
  | p :: rest =>
    (p.value result).bind fun value => (valueAll result rest).map fun values => value :: values
termination_by structural ps => ps

end

end Program

namespace Call

/-- What a call gives. -/
def value (result : Rule ι W V → List V → Except Error V) (call : Call ι W V) : Except Error V :=
  (Program.valueAll result call.args).bind (result call.rule)

/-- The call has no value. -/
def fails (result : Rule ι W V → List V → Except Error V) (call : Call ι W V) : Bool :=
  !(call.value result).isOk

/-- The calls up to the first that fails, and that one. -/
def made (result : Rule ι W V → List V → Except Error V) (calls : List (Call ι W V)) :
    List (Call ι W V) :=
  calls.take (calls.findIdx (fails result) + 1)

/-- The entry has the keyword of the call and the values of its arguments. -/
def Logs (result : Rule ι W V → List V → Except Error V) (call : Call ι W V)
    (entry : String × List V) : Prop :=
  entry.1 = call.keyword.value ∧ Program.valueAll result call.args = .ok entry.2

theorem made_singleton (result : Rule ι W V → List V → Except Error V) (call : Call ι W V) :
    made result [call] = [call] := by
  rw [made, List.take_of_length_le]
  simp

/-- How a program with the given calls ends: with a value if none of them fails, and else with the
failure of the first that does. -/
inductive Ends {α : Type} (result : Rule ι W V → List V → Except Error V)
    (calls : List (Call ι W V)) : Except Error α → Prop where
  | ok {value : α} : calls.find? (fails result) = none → Ends result calls (.ok value)
  | failed {call : Call ι W V} {error : Error} :
      calls.find? (fails result) = some call → call.value result = .error error →
      Ends result calls (.error error)

section

variable {α β : Type} {result : Rule ι W V → List V → Except Error V}
  {calls rest : List (Call ι W V)} {value : α} {error : Error}

theorem Ends.append {outcome : Except Error β} (h : Ends result calls (.ok value))
    (h' : Ends result rest outcome) : Ends result (calls ++ rest) outcome := by
  have hfind : (calls ++ rest).find? (fails result) = rest.find? (fails result) := by
    obtain ⟨hnone⟩ := h
    rw [List.find?_append, hnone, Option.none_or]
  cases h' with
  | ok hrest => exact .ok (hfind.trans hrest)
  | failed hrest hval => exact .failed (hfind.trans hrest) hval

theorem Ends.append_error (h : Ends result calls (.error error : Except Error α))
    (rest : List (Call ι W V)) :
    Ends result (calls ++ rest) (.error error : Except Error β) := by
  cases h with
  | failed hcall hval => exact .failed (by rw [List.find?_append, hcall, Option.some_or]) hval

theorem Ends.map {outcome : Except Error α} (h : Ends result calls outcome) (f : α → β) :
    Ends result calls (outcome.map f) := by
  cases h with
  | ok hnone => exact .ok hnone
  | failed hcall hval => exact .failed hcall hval

theorem ends_singleton (result : Rule ι W V → List V → Except Error V) (call : Call ι W V) :
    Ends result [call] (call.value result) := by
  cases h : call.value result with
  | ok value => exact .ok (by simp [fails, h, Except.isOk, Except.toBool])
  | error error =>
    have hfind : [call].find? (fails result) = some call := by
      simp [fails, h, Except.isOk, Except.toBool]
    exact .failed hfind h

/-- If no call fails, the calls that follow are made as well. -/
theorem Ends.made_append (h : Ends result calls (.ok value)) (rest : List (Call ι W V)) :
    made result (calls ++ rest) = made result calls ++ made result rest := by
  obtain ⟨hnone⟩ := h
  have hidx : calls.findIdx (fails result) = calls.length :=
    List.findIdx_eq_length.mpr fun call hcall => by
      simpa using List.find?_eq_none.mp hnone call hcall
  have hall : made result calls = calls := by
    rw [made, List.take_of_length_le (by omega)]
  have e : rest.findIdx (fails result) + calls.length + 1 =
      calls.length + (rest.findIdx (fails result) + 1) := by omega
  rw [hall, made, made, List.findIdx_append, if_neg (by omega), e, List.take_length_add_append]

/-- If a call fails, none of those that follow is made. -/
theorem Ends.made_append_error (h : Ends result calls (.error error : Except Error α))
    (rest : List (Call ι W V)) : made result (calls ++ rest) = made result calls := by
  cases h with
  | @failed call _ hcall _ =>
    have hidx : calls.findIdx (fails result) < calls.length :=
      List.findIdx_lt_length.mpr ⟨call, List.mem_of_find?_eq_some hcall, List.find?_some hcall⟩
    rw [made, made, List.findIdx_append, if_pos hidx, List.take_append_of_le_length hidx]

end

end Call

namespace Program

mutual

/-- A program ends as its calls say. -/
theorem ends_value (result : Rule ι W V → List V → Except Error V) (p : Program ι W V) :
    Call.Ends result p.calls (p.value result) := by
  match p with
  | literal tag token value =>
    rw [calls, Program.value]
    exact .ok rfl
  | call tag keyword rule args =>
    have hargs := ends_valueAll result args
    have hcall := Call.ends_singleton result ⟨keyword, rule, args⟩
    rw [calls, value]
    rw [Call.value] at hcall
    cases hv : valueAll result args with
    | ok values =>
      rw [hv] at hargs hcall
      exact hargs.append hcall
    | error error =>
      rw [hv] at hargs
      exact hargs.append_error _
  | list tag r items exit =>
    rw [calls, value]
    exact (ends_valueAll result items).map r.gather
termination_by structural p

theorem ends_valueAll (result : Rule ι W V → List V → Except Error V)
    (ps : List (Program ι W V)) : Call.Ends result (callsAll ps) (valueAll result ps) := by
  match ps with
  | [] =>
    rw [callsAll, valueAll]
    exact .ok rfl
  | p :: rest =>
    have hp := ends_value result p
    have hrest := ends_valueAll result rest
    rw [callsAll, valueAll]
    cases hv : p.value result with
    | ok value =>
      rw [hv] at hp
      exact hp.append (hrest.map _)
    | error error =>
      rw [hv] at hp
      exact hp.append_error _
termination_by structural ps

end

end Program

/-! ## Keywords in a trace -/

namespace Trace

/-- The keyword of a branch whose first child is tagged as one. -/
def keyword? : List Trace → Option Token
  | leaf tag token :: _ => if tag = "fn" then some token else none
  | _ => none

mutual

/-- The keywords of a trace in post-order. -/
def keywords : Trace → List Token
  | leaf .. => []
  | branch _ children => keywordsAll children ++ (keyword? children).toList

/-- The keywords of a list of traces. -/
def keywordsAll : List Trace → List Token
  | [] => []
  | t :: rest => t.keywords ++ keywordsAll rest

end

theorem keywordsAll_append (ts us : List Trace) :
    keywordsAll (ts ++ us) = keywordsAll ts ++ keywordsAll us := by
  induction ts with
  | nil => simp [keywordsAll]
  | cons t ts ih => simp [keywordsAll, ih]

end Trace

namespace Program

/-- Where no literal is tagged as a keyword, only calls start with a keyword. -/
theorem keyword?_traceAll {S : Repetition V → Prop} {ps : List (Program ι W V)}
    (h : EveryAll (· ≠ "fn") S ps) (tag : String) (exit : Option Token) :
    Trace.keyword? (traceAll ps ++ exit.toList.map (Trace.leaf (tag ++ ".exit"))) = none := by
  match ps with
  | [] =>
    cases exit with
    | none => rfl
    | some token =>
      have hne : tag ++ ".exit" ≠ "fn" := by
        intro he
        have hlen := congrArg String.length he
        rw [String.length_append] at hlen
        have hexit : ".exit".length = 5 := by decide
        have hfn : "fn".length = 2 := by decide
        omega
      exact if_neg hne
  | literal label token value :: rest => exact if_neg h.1
  | call label keyword rule args :: rest => rfl
  | list label r items exit :: rest => rfl

mutual

/-- The keywords of a trace are those of the calls. -/
theorem keywords_trace {S : Repetition V → Prop} (p : Program ι W V)
    (h : p.Every (· ≠ "fn") S) : p.trace.keywords = p.calls.map Call.keyword := by
  match p with
  | literal tag token value => rfl
  | call tag keyword rule args =>
    have hargs := keywordsAll_traceAll args h
    rw [trace, Trace.prepend, Trace.keywords, Trace.keywordsAll, Trace.keywords, hargs, calls,
      List.map_append]
    rfl
  | list tag r items exit =>
    have hexit : Trace.keywordsAll (exit.toList.map (Trace.leaf (tag ++ ".exit"))) = [] := by
      cases exit <;> rfl
    rw [trace, Trace.keywords, keyword?_traceAll h.2, Trace.keywordsAll_append, hexit,
      keywordsAll_traceAll items h.2, calls]
    simp
termination_by structural p

theorem keywordsAll_traceAll {S : Repetition V → Prop} (ps : List (Program ι W V))
    (h : EveryAll (· ≠ "fn") S ps) :
    Trace.keywordsAll (traceAll ps) = (callsAll ps).map Call.keyword := by
  match ps with
  | [] => rfl
  | p :: rest =>
    rw [traceAll, Trace.keywordsAll, callsAll, List.map_append, keywords_trace p h.1,
      keywordsAll_traceAll rest h.2]
termination_by structural ps

end

end Program

end Parlance
