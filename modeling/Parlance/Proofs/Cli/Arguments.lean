import Parlance.Cli.Options

/-
  Options and program on one command line. An option is a flag, or the format of traces with its
  value in the same word or in the next one (`Given`). Options are read from the front, one step
  each (`Scan.exists_run_words`). A value in a word of its own is only kept by its step and looked
  at later, so that the invariant is about what looking at it would give (`Scan.Holds`). Where the
  options end, the rest of the line is the program, as it stands (`Scan.finish_of_holds`).
-/

namespace Parlance.Cli

/-! ## Options as they are given -/

/-- The word for a flag. -/
def Flag.word : Flag → String
  | grammar => "--grammar"
  | trace => "--trace"
  | diagnostics => "--diagnostics"
  | repl => "--repl"

/-- The value for a format. -/
def TraceFormat.value : TraceFormat → String
  | text => "text"
  | json => "json"

/-- An option as it is given. -/
inductive Given where
  | flag (f : Flag)
  /-- The format of traces, with its value behind `=` or as the next word. -/
  | format (f : TraceFormat) (joined : Bool)
  deriving DecidableEq, Repr

namespace Given

/-- The words of the option. -/
def words : Given → List String
  | flag f => [f.word]
  | format f true => ["--trace-format=" ++ f.value]
  | format f false => ["--trace-format", f.value]

/-- Which option it is: a flag, or else the format of traces. -/
def flag? : Given → Option Flag
  | flag f => some f
  | format .. => none

end Given

/-- The flags that are among the options given. -/
def givenFlags (given : List Given) : Options where
  grammar := decide (.flag .grammar ∈ given)
  trace := decide (.flag .trace ∈ given)
  diagnostics := decide (.flag .diagnostics ∈ given)
  repl := decide (.flag .repl ∈ given)

/-- The format of traces that is among the options given. -/
def givenFormat? (given : List Given) : Option TraceFormat :=
  if .format .json true ∈ given ∨ .format .json false ∈ given then some .json
  else if .format .text true ∈ given ∨ .format .text false ∈ given then some .text
  else none

/-- What the options given ask for, with a program behind them. -/
def Options.ofGiven (given : List Given) (program : List String) : Options :=
  { givenFlags given with traceFormat := (givenFormat? given).getD .text, program }

/-- There is no format among the options given. -/
def NoFormat (given : List Given) : Prop := ∀ f joined, .format f joined ∉ given

section
variable {given : List Given}

theorem givenFlags_cons_format (f : TraceFormat) (joined : Bool) :
    givenFlags (.format f joined :: given) = givenFlags given := by
  simp [givenFlags]

theorem givenFormat?_cons_flag (f : Flag) :
    givenFormat? (.flag f :: given) = givenFormat? given := by
  simp [givenFormat?]

theorem givenFormat?_eq_none (h : NoFormat given) : givenFormat? given = none := by
  simp [givenFormat?, h _ _]

theorem givenFormat?_cons_format (h : NoFormat given) (f : TraceFormat) (joined : Bool) :
    givenFormat? (.format f joined :: given) = some f := by
  cases f <;> cases joined <;> simp [givenFormat?, h _ _]

end

/-! ## Words -/

theorem Word.ofString_flag (f : Flag) : ofString f.word = .flag f := by
  cases f <;> decide

theorem Word.ofString_joined (f : TraceFormat) :
    ofString ("--trace-format=" ++ f.value) = .traceFormat (some f.value) := by
  cases f <;> decide

theorem Word.ofString_split : ofString "--trace-format" = .traceFormat none := by
  decide

theorem Word.ofString_value (f : TraceFormat) : ofString f.value = .plain := by
  cases f <;> decide

theorem Word.ofString_plain {word : String} (h : word.toList.head? ≠ some '-') :
    ofString word = .plain := by
  unfold ofString
  split
  · next hword => rw [hword] at h; exact absurd rfl h
  · next hword => rw [hword] at h; exact absurd rfl h
  · rfl

theorem TraceFormat.ofText?_value (f : TraceFormat) : ofText? f.value = some f := by
  cases f <;> rfl

namespace Scan

/-- The options given have all been looked at. -/
def ofGiven (given : List Given) : Scan where
  options := givenFlags given
  format := givenFormat? given

variable {given : List Given}

theorem raise_ofGiven {f : Flag} (h : .flag f ∉ given) :
    (ofGiven given).raise f = .ok (ofGiven (.flag f :: given)) := by
  cases f <;> simp [raise, ofGiven, givenFlags, givenFormat?_cons_flag, h]

theorem setFormat_ofGiven (h : NoFormat given) (f : TraceFormat) (joined : Bool)
    (pending : Option String) :
    ({ ofGiven given with pending } : Scan).setFormat f.value =
      .ok (ofGiven (.format f joined :: given)) := by
  simp [setFormat, ofGiven, givenFormat?_eq_none h, givenFormat?_cons_format h,
    givenFlags_cons_format, TraceFormat.ofText?_value]

/-- Looking at what is still open gives the options given. -/
def Holds (s : Scan) (given : List Given) : Prop := s.settle = .ok (ofGiven given)

theorem holds_ofGiven : (ofGiven given).Holds given := rfl

theorem run_flag {s t u : Scan} {f : Flag} (hs : s.settle = .ok t) (ht : t.raise f = .ok u)
    (rest : List String) : s.run (f.word :: rest) = u.run rest := by
  have hword : f.word ≠ "--" := by cases f <;> decide
  rw [run, if_neg hword, Word.ofString_flag]
  dsimp only
  rw [hs]
  change (t.raise f >>= fun u => u.run rest) = _
  rw [ht]
  rfl

theorem run_joined {s t u : Scan} {f : TraceFormat} (hs : s.settle = .ok t)
    (ht : t.setFormat f.value = .ok u) (rest : List String) :
    s.run (("--trace-format=" ++ f.value) :: rest) = u.run rest := by
  have hword : "--trace-format=" ++ f.value ≠ "--" := by cases f <;> decide
  rw [run, if_neg hword, Word.ofString_joined]
  dsimp only
  rw [hs]
  change (t.setFormat f.value >>= fun u => u.run rest) = _
  rw [ht]
  rfl

/-- The value is only kept: it is looked at when the next option, or the end, is reached. -/
theorem run_split {s t : Scan} {f : TraceFormat} (hs : s.settle = .ok t) (rest : List String) :
    s.run ("--trace-format" :: f.value :: rest) =
      ({ t with pending := some f.value } : Scan).run rest := by
  have hword : "--trace-format" ≠ "--" := by decide
  have hvalue : f.value ≠ "--" := by cases f <;> decide
  rw [run, if_neg hword, Word.ofString_split]
  dsimp only
  rw [hs, if_neg hvalue, Word.ofString_value]
  rfl

/-- Reading one more option. -/
theorem exists_run_words {s : Scan} (hs : s.Holds given) {g : Given}
    (hnew : g.flag? ∉ given.map Given.flag?) :
    ∃ t : Scan, t.Holds (g :: given) ∧ ∀ rest, s.run (g.words ++ rest) = t.run rest := by
  cases g with
  | flag f =>
    have hflag : .flag f ∉ given := fun h => hnew (List.mem_map.mpr ⟨_, h, rfl⟩)
    exact ⟨_, holds_ofGiven, run_flag hs (raise_ofGiven hflag)⟩
  | format f joined =>
    have hformat : NoFormat given := fun f' joined' h => hnew (List.mem_map.mpr ⟨_, h, rfl⟩)
    cases joined with
    | true => exact ⟨_, holds_ofGiven, run_joined hs (setFormat_ofGiven hformat f true none)⟩
    | false =>
      exact ⟨{ ofGiven given with pending := some f.value },
        setFormat_ofGiven hformat f false (some f.value), run_split hs⟩

/-- Reading options one after the other; `before` have been read. -/
theorem exists_run_flatMap {s : Scan} {before : List Given} (hs : s.Holds before)
    (hdistinct : ((given.reverse ++ before).map Given.flag?).Nodup) :
    ∃ t : Scan, t.Holds (given.reverse ++ before) ∧
      ∀ rest, s.run (given.flatMap Given.words ++ rest) = t.run rest := by
  induction given generalizing s before with
  | nil => exact ⟨s, hs, fun _ => rfl⟩
  | cons g more ih =>
    rw [List.reverse_cons, List.append_assoc, List.singleton_append] at hdistinct ⊢
    have hnew : g.flag? ∉ before.map Given.flag? := by
      rw [List.map_append, List.map_cons] at hdistinct
      exact (List.nodup_cons.mp (List.nodup_append.mp hdistinct).2.1).1
    obtain ⟨t, ht, hrun⟩ := exists_run_words hs hnew
    obtain ⟨u, hu, hmore⟩ := ih ht hdistinct
    refine ⟨u, hu, fun rest => ?_⟩
    rw [List.flatMap_cons, List.append_assoc, hrun, hmore]

theorem finish_of_holds {s : Scan} (hs : s.Holds given) (program : List String) :
    s.finish program = .ok (Options.ofGiven given program) := by
  unfold finish
  rw [hs]
  rfl

theorem run_dashes (s : Scan) (program : List String) :
    s.run ("--" :: program) = s.finish program := by
  rw [run, if_pos rfl]

/-- A program that does not start with a dash needs no word in front that ends the options. -/
theorem run_program {program : List String}
    (h : ∀ first, program.head? = some first → first.toList.head? ≠ some '-') (s : Scan) :
    s.run program = s.finish program := by
  cases program with
  | nil => rw [run]
  | cons first rest =>
    have hfirst : first.toList.head? ≠ some '-' := h first rfl
    have hword : first ≠ "--" := by
      rintro rfl
      exact hfirst rfl
    rw [run, if_neg hword, Word.ofString_plain hfirst]

theorem exists_of_bind_eq_ok {α β : Type} {x : Except Refusal α} {f : α → Except Refusal β} {b : β}
    (h : x >>= f = .ok b) : ∃ a, x = .ok a ∧ f a = .ok b := by
  cases x with
  | error e => cases h
  | ok a => exact ⟨a, rfl, h⟩

theorem program_of_finish {s : Scan} {program : List String} {o : Options}
    (h : s.finish program = .ok o) : o.program = program := by
  obtain ⟨t, -, ht⟩ := exists_of_bind_eq_ok h
  cases ht
  rfl

/-- Options are read from the front and the rest is the program, untouched. -/
theorem program_suffix_of_run {s : Scan} {args : List String} {o : Options}
    (h : s.run args = .ok o) : o.program <:+ args := by
  fun_induction run s args with
  | case1 s => exact program_of_finish h ▸ List.suffix_refl _
  | case2 s rest => exact program_of_finish h ▸ List.suffix_cons ..
  | case3 s word rest => exact program_of_finish h ▸ List.suffix_refl _
  | case4 => cases h
  | case5 s word rest _ f _ ih =>
    obtain ⟨t, -, h⟩ := exists_of_bind_eq_ok h
    obtain ⟨u, -, h⟩ := exists_of_bind_eq_ok h
    exact (ih u h).trans (List.suffix_cons ..)
  | case6 | case7 =>
    obtain ⟨t, -, h⟩ := exists_of_bind_eq_ok h
    cases h
  | case8 s word rest _ value _ ih =>
    obtain ⟨t, -, h⟩ := exists_of_bind_eq_ok h
    obtain ⟨u, -, h⟩ := exists_of_bind_eq_ok h
    exact (ih u h).trans (List.suffix_cons ..)
  | case9 s word rest _ _ ih =>
    obtain ⟨t, -, h⟩ := exists_of_bind_eq_ok h
    cases rest with
    | nil => cases h
    | cons value rest =>
      dsimp only at h
      split at h
      · have hrest : value :: rest <:+ word :: value :: rest := List.suffix_cons ..
        exact ((ih t h).trans (List.suffix_cons ..)).trans hrest
      · cases h
      · cases h

end Scan

namespace Options

/-- Only what is given counts, and not in which order. -/
theorem ofGiven_congr {given given' : List Given} (h : ∀ g, g ∈ given ↔ g ∈ given')
    (program : List String) : ofGiven given program = ofGiven given' program := by
  simp only [ofGiven, givenFlags, givenFormat?, h]

/-- Behind the options, in any order, they are asked for, and the program is still to be found. -/
theorem exists_parse_flatMap {given order : List Given} (horder : order.Perm given)
    (hdistinct : (given.map Given.flag?).Nodup) (program : List String) :
    ∃ s : Scan, s.finish program = .ok (ofGiven given program) ∧
      ∀ rest, parse (order.flatMap Given.words ++ rest) = s.run rest := by
  have hstart : ({} : Scan).Holds [] := rfl
  have hreverse : ((order.reverse ++ []).map Given.flag?).Perm (given.map Given.flag?) := by
    rw [List.append_nil]
    exact (order.reverse_perm.trans horder).map _
  obtain ⟨s, hs, hrun⟩ := Scan.exists_run_flatMap hstart (hreverse.nodup_iff.mpr hdistinct)
  have hmem : ∀ g, g ∈ order.reverse ++ [] ↔ g ∈ given := by
    intro g
    rw [List.append_nil, List.mem_reverse, horder.mem_iff]
  refine ⟨s, ?_, hrun⟩
  rw [Scan.finish_of_holds hs, ofGiven_congr hmem]

/-- The options that ask for what the command line asks for. -/
def toGiven (o : Options) : List Given :=
  [(o.grammar, .flag .grammar), (o.trace, .flag .trace), (o.diagnostics, .flag .diagnostics),
    (o.repl, .flag .repl), (true, .format o.traceFormat false)].filterMap fun (asked, g) =>
      if asked then some g else none

theorem ofGiven_toGiven (o : Options) : ofGiven o.toGiven o.program = o := by
  obtain ⟨grammar, trace, format, diagnostics, repl, program⟩ := o
  cases grammar <;> cases trace <;> cases format <;> cases diagnostics <;> cases repl <;> rfl

theorem nodup_toGiven (o : Options) : (o.toGiven.map Given.flag?).Nodup := by
  obtain ⟨grammar, trace, format, diagnostics, repl, program⟩ := o
  cases grammar <;> cases trace <;> cases diagnostics <;> cases repl <;>
    simp [toGiven, Given.flag?]

end Options

/-- Options and program are read back from a command line. Whatever options are given, each at most
once, the format of traces in one word or two, and in whatever order: in front of `--` and any
program they are read as what they ask for, and the program as it stands, be there options or `--`
in it. The `--` can be left out if no program follows, or if its first word does not start with a
dash. So whatever can be asked for has a command line. And whenever a command line is accepted, the
program is what stands at its end. -/
theorem arguments_round_trip {given : List Given} (hdistinct : (given.map Given.flag?).Nodup)
    (program : List String) :
    (∀ order : List Given, order.Perm given →
      Options.parse (order.flatMap Given.words ++ "--" :: program) =
        .ok (Options.ofGiven given program)) ∧
    ((∀ first, program.head? = some first → first.toList.head? ≠ some '-') →
      ∀ order : List Given, order.Perm given →
        Options.parse (order.flatMap Given.words ++ program) =
          .ok (Options.ofGiven given program)) ∧
    (∀ o : Options, Options.parse (o.toGiven.flatMap Given.words ++ "--" :: o.program) = .ok o) ∧
    ∀ args o, Options.parse args = .ok o → o.program <:+ args := by
  have hdashes : ∀ (given order : List Given) (program : List String), order.Perm given →
      (given.map Given.flag?).Nodup →
      Options.parse (order.flatMap Given.words ++ "--" :: program) =
        .ok (Options.ofGiven given program) := by
    intro given order program horder hdistinct
    obtain ⟨s, hs, hrun⟩ := Options.exists_parse_flatMap horder hdistinct program
    rw [hrun, Scan.run_dashes, hs]
  refine ⟨fun order horder => hdashes given order program horder hdistinct,
    fun hdash order horder => ?_, fun o => ?_, fun args o => Scan.program_suffix_of_run⟩
  · obtain ⟨s, hs, hrun⟩ := Options.exists_parse_flatMap horder hdistinct program
    rw [hrun, Scan.run_program hdash, hs]
  · rw [hdashes _ _ _ (.refl _) o.nodup_toGiven, o.ofGiven_toGiven]

/-- The same word is an option in front of `--` and a word of the program behind it, or behind
another word of the program. -/
theorem arguments_round_trip_dashes :
    ([Given.flag .repl, .format .json false].map Given.flag?).Nodup ∧
    Options.parse ["--trace-format", "json", "--repl", "--", "--repl", "--", "-"] =
      .ok { repl := true, traceFormat := .json, program := ["--repl", "--", "-"] } ∧
    Options.parse ["--repl", "--trace-format", "json", "sum", "--repl", "--"] =
      .ok { repl := true, traceFormat := .json, program := ["sum", "--repl", "--"] } := by
  have hdistinct : ([Given.flag .repl, .format .json false].map Given.flag?).Nodup := by decide
  have hdash : ∀ first, ["sum", "--repl", "--"].head? = some first →
      first.toList.head? ≠ some '-' := by
    intro first h
    cases h
    decide
  exact ⟨hdistinct,
    (arguments_round_trip hdistinct ["--repl", "--", "-"]).1 [.format .json false, .flag .repl]
      (.swap ..),
    (arguments_round_trip hdistinct ["sum", "--repl", "--"]).2.1 hdash _ (.refl _)⟩

end Parlance.Cli
