import Parlance.Demo.Toolbox
import Parlance.Proofs.Files.Writing
import Parlance.Proofs.Reading.Termination
import Parlance.Proofs.Reading.Tree
import Parlance.Proofs.Reading.Variation
import Parlance.Proofs.Running.Chain

/-
  File commands, end to end, on any file system. The words that are accepted are `writeFile`, a
  path, and the words of a source (`Demo.Toolbox.parse_command`, `Demo.Toolbox.command_of_parse`);
  the program that is read does what the source says and then writes once. What is asked of the
  files is seen by running the same words on the file system that notes its calls
  (`Demo.Toolbox.Runs`).

  `command_writes_target_once` follows a command through a run, under the laws of
  `FileSystem.Lawful` alone: where the source fails nothing has changed, and otherwise there is one
  writing, of what the source stood for before the run, even if it is the file that is written.
-/

namespace Parlance

/-! ## Runs without waiting -/

/-- The machine at the same time, over another world. -/
def Machine.over {W W' : Type} (m : Machine W) (w : W') : Machine W' :=
  ⟨w, m.now, m.issued, m.frozen⟩

namespace Job

variable {W V α : Type}

/-- A nap of no time changes nothing. -/
theorem run_sleep_zero (m : Machine W) : (sleep 0 : Job W V Nat).run m = (.ok m.now, m) := by
  apply run_of_drive
  rw [enter, sleep, launch]
  simp only [Launch.poll, true_or, if_true, pure, launch]
  exact Thread.drive_done _ _

theorem run_perform (f : W → Except Error α × W) (m : Machine W) :
    (perform f : Job W V α).run m = ((f m.world).1, m.over (f m.world).2) := by
  apply run_of_drive
  rw [enter, perform, launch, launch]
  exact Thread.drive_done _ _

/-- Values that are there at once are gathered at once. -/
theorem sequenceFrom_pure (before values : List V) :
    (sequenceFrom before (values.map pure) : Job W V (List V)) = pure (before ++ values) := by
  induction values generalizing before with
  | nil => rw [List.map_nil, sequenceFrom, List.append_nil]
  | cons value values ih =>
    rw [List.map_cons, sequenceFrom, pure_bind, ih, List.append_assoc, List.singleton_append]

end Job

theorem FileSystem.run_ask {S V α : Type} (f : S → Except String α × S) (m : Machine S) :
    (ask f : Job S V α).run m = ((f m.world).1.mapError .io, m.over (f m.world).2) := by
  rw [ask, Job.run_bind, Job.run_sleep_zero]
  exact Job.run_perform _ m

namespace Demo.Toolbox

variable {S : Type} {files : FileSystem S}

/-! ## Sources -/

/-- What can be written. The word `-` ends a list of words and is not one of them. -/
inductive Source where
  | file (path : String)
  | word (text : String)
  | list (separator : String) (parts : List String) (free : "-" ∉ parts) (closed : Bool)

namespace Source

/-- The words of a source. -/
def words : Source → List String
  | file path => ["readFile", path]
  | word text => ["token", text]
  | list separator parts _ closed =>
    "join" :: separator :: (parts ++ if closed then ["-"] else [])

/-- The text that the source stands for, and the state in which finding out leaves the files. -/
def answer (files : FileSystem S) : Source → S → Except String String × S
  | file path, s => files.readText path s
  | word text, s => (.ok text, s)
  | list separator parts _ _, s => (.ok (Text.joinWith separator parts), s)

/-- What is asked of the files to find out. -/
def calls : Source → List FileCall
  | file path => [.read path]
  | word _ | list .. => []

/-- What is done to find out. -/
def action (files : FileSystem S) : Source → Action S
  | file path => readAction files path
  | word text => .pure (.text text)
  | list separator parts _ _ => .pure (.text (Text.joinWith separator parts))

end Source

/-- The words of a command. -/
def commandWords (path : String) (source : Source) : List String :=
  "writeFile" :: path :: source.words

/-! ## The words that are accepted -/

theorem wellFormed_word {ends : Bool} {t : Trace}
    (h : WellFormed (vocabularyOn files) word ends t) : ∃ token, t.tokens = [token] := by
  cases h with
  | @literal _ _ token => exact ⟨token, rfl⟩

theorem wellFormed_items {r : Repetition Value} (hr : r.exit = some "-") {ends : Bool}
    {ts : List Trace} (h : WellFormedItems (vocabularyOn files) r word ends ts) :
    "-" ∉ (Trace.tokensAll ts).map Token.value := by
  match h with
  | .nil => exact List.not_mem_nil
  | .cons hfirst hexit hitem hrest =>
    obtain ⟨token, htoken⟩ := wellFormed_word hitem
    rw [Trace.tokensAll, htoken, List.map_append, List.mem_append, not_or]
    refine ⟨?_, wellFormed_items hr hrest⟩
    rw [htoken] at hfirst
    cases hfirst
    rw [hr] at hexit
    simpa using fun e => hexit (congrArg some e)

theorem wellFormed_words {ends : Bool} {t : Trace}
    (h : WellFormed (vocabularyOn files) Toolbox.words ends t) :
    ∃ (parts : List String) (closed : Bool), "-" ∉ parts ∧
      t.tokens.map Token.value = parts ++ if closed then ["-"] else [] := by
  cases h with
  | @closed _ _ _ items token hitems hexit =>
    refine ⟨_, true, wellFormed_items rfl hitems, ?_⟩
    have hvalue : token.value = "-" := (Option.some.inj hexit).symm
    rw [Trace.tokens, Trace.tokensAll_append, List.map_append]
    simp [Trace.tokensAll, Trace.tokens, hvalue]
  | @unclosed _ _ items hitems =>
    refine ⟨_, false, wellFormed_items rfl hitems, ?_⟩
    rw [Trace.tokens]
    simp

/-- The first argument of every rule is a word. -/
theorem wellFormed_args {es : List (Expr Name Value)} {ends : Bool} {ts : List Trace}
    (h : WellFormedArgs (vocabularyOn files) (word :: es) ends ts) :
    ∃ first rest, (Trace.tokensAll ts).map Token.value =
        first :: (Trace.tokensAll rest).map Token.value ∧
      WellFormedArgs (vocabularyOn files) es ends rest := by
  cases h with
  | @cons _ _ _ t rest hword hrest =>
    obtain ⟨token, htoken⟩ := wellFormed_word hword
    refine ⟨token.value, rest, ?_, hrest⟩
    rw [Trace.tokensAll, htoken]
    rfl

theorem wellFormed_source {ends : Bool} {t : Trace}
    (h : WellFormed (vocabularyOn files) (.type .source) ends t) :
    ∃ source : Source, t.tokens.map Token.value = source.words := by
  cases h with
  | fallback ht hf => cases ht; cases hf
  | @call _ _ table keyword rule args ht hl hargs =>
    cases ht
    have hrule : rule ∈ sourceRules files := List.mem_of_find?_eq_some hl
    rw [Trace.tokens, Trace.tokensAll, Trace.tokens, List.singleton_append, List.map_cons,
      Table.lookup_keyword hl]
    simp only [sourceRules, List.mem_cons, List.not_mem_nil, or_false] at hrule
    rcases hrule with rfl | rfl | rfl
    · obtain ⟨path, rest, htokens, hnil⟩ := wellFormed_args hargs
      cases hnil
      exact ⟨.file path, by rw [htokens]; rfl⟩
    · obtain ⟨text, rest, htokens, hnil⟩ := wellFormed_args hargs
      cases hnil
      exact ⟨.word text, by rw [htokens]; rfl⟩
    · obtain ⟨separator, rest, htokens, hlist⟩ := wellFormed_args hargs
      cases hlist with
      | cons hwords hnil =>
        cases hnil
        obtain ⟨parts, closed, hopen, hparts⟩ := wellFormed_words hwords
        refine ⟨.list separator parts hopen closed, ?_⟩
        rw [htokens, Trace.tokensAll, Trace.tokensAll, List.append_nil, hparts]
        rfl

/-- Words that are accepted are those of a command. -/
theorem command_of_parse {words : List String} {p : Program Name S Value} {c : Cursor}
    (h : (languageOn files).parse words = .accepted p c) :
    ∃ path source, words = commandWords path source := by
  obtain ⟨htree, rfl⟩ := Language.wellFormed_of_parse h
  generalize p.trace = t at htree
  cases htree with
  | fallback ht hf => cases ht; cases hf
  | @call _ _ table keyword rule args ht hl hargs =>
    cases ht
    have hrule : rule ∈ commandRules files := List.mem_of_find?_eq_some hl
    rw [Trace.tokens, Trace.tokensAll, Trace.tokens, List.singleton_append, List.map_cons,
      Table.lookup_keyword hl]
    obtain rfl := List.mem_singleton.mp hrule
    obtain ⟨path, rest, htokens, hsource⟩ := wellFormed_args hargs
    cases hsource with
    | cons hsource hnil =>
      cases hnil
      obtain ⟨source, hwords⟩ := wellFormed_source hsource
      refine ⟨path, source, ?_⟩
      rw [htokens, Trace.tokensAll, Trace.tokensAll, List.append_nil, hwords]
      rfl

/-! ## The program of a command -/

theorem reads_word {c ahead : Cursor} {text : String} {i : Nat}
    (h : ∀ expected, c.next expected = .ok (⟨text, i⟩, ahead)) :
    Reads (vocabularyOn files) word c
      (.accepted (.literal "string" ⟨text, i⟩ (.text text)) ahead) :=
  Reads.literal (h "string") rfl

/-- The words of a list are read up to `-` or to the end of the input. -/
theorem reads_words (r : Repetition Value) (hr : r.exit = some "-") (parts : List String)
    (hparts : "-" ∉ parts) (closed : Bool) (c : Cursor)
    (hc : c.Faces (parts ++ if closed then ["-"] else [])) :
    ∃ items exit, ReadsItems (vocabularyOn files) r word c
        (.accepted (items, exit) ⟨c.tokens, c.tokens.length⟩) ∧
      Program.jobAllWith (fun _ rule => rule.handler) items =
        (parts.map Value.text).map Job.pure := by
  induction parts generalizing c with
  | nil =>
    cases closed with
    | false =>
      refine ⟨[], none, ?_, rfl⟩
      rw [← hc.index_eq]
      exact .finished ((Cursor.finished_iff c).mpr hc.index_eq)
    | true =>
      obtain ⟨hnext, hrest⟩ := hc.next
      refine ⟨[], some ⟨"-", c.index⟩, ?_, rfl⟩
      rw [← hrest.index_eq]
      exact .exit (hnext _) hr
  | cons part parts ih =>
    obtain ⟨hnext, hrest⟩ := hc.next
    rw [List.mem_cons, not_or] at hparts
    obtain ⟨items, exit, hitems, hjobs⟩ := ih hparts.2 ⟨c.tokens, c.index + 1⟩ hrest
    have hexit : r.exit ≠ some part := by
      rw [hr]
      exact fun e => hparts.1 (Option.some.inj e)
    refine ⟨_, exit, .item (hnext _) hexit (reads_word hnext) hitems, ?_⟩
    rw [Program.jobAllWith, hjobs]
    rfl

theorem gather_texts (parts : List String) : gather (parts.map .text) = .words parts := by
  rw [gather, List.filterMap_map]
  exact congrArg Value.words List.filterMap_some

/-- A source is read, and does what it says. -/
theorem reads_source (files : FileSystem S) (source : Source) (c : Cursor)
    (hc : c.Faces source.words) :
    ∃ p, Reads (vocabularyOn files) (.type .source) c (.accepted p ⟨c.tokens, c.tokens.length⟩) ∧
      p.job = source.action files := by
  have htable : (vocabularyOn files).table .source = some (.ofRules (sourceRules files) none) := rfl
  cases source with
  | file path =>
    obtain ⟨hkeyword, hrest⟩ := hc.next
    obtain ⟨hpath, hend⟩ := hrest.next
    rw [← hend.index_eq]
    exact ⟨_, Reads.keyword htable (hkeyword _) rfl (.cons (reads_word hpath) .nil), rfl⟩
  | word text =>
    obtain ⟨hkeyword, hrest⟩ := hc.next
    obtain ⟨htext, hend⟩ := hrest.next
    rw [← hend.index_eq]
    exact ⟨_, Reads.keyword htable (hkeyword _) rfl (.cons (reads_word htext) .nil), rfl⟩
  | list separator parts hparts closed =>
    obtain ⟨hkeyword, hrest⟩ := hc.next
    obtain ⟨hseparator, hwords⟩ := hrest.next
    obtain ⟨items, exit, hitems, hjobs⟩ := reads_words ⟨.sequential, some "-", gather⟩ rfl parts
      hparts closed _ hwords
    refine ⟨_, Reads.keyword htable (hkeyword _) rfl
      (.cons (reads_word hseparator) (.cons (.rep hitems) .nil)), ?_⟩
    have hgathered : (Job.sequence ((parts.map Value.text).map Job.pure)).map gather =
        (Job.pure (.words parts) : Action S) := by
      rw [Job.sequence, Job.sequenceFrom_pure, Job.map, Job.pure_bind, List.nil_append,
        gather_texts]
    rw [Program.job, Program.jobWith, Program.jobAllWith, Program.jobAllWith, Program.jobWith,
      Program.jobWith, Program.jobAllWith, hjobs]
    simp only [hgathered]
    rfl

/-- The words of a command are accepted. The program does what the source says, and then writes
once. -/
theorem parse_command (files : FileSystem S) (path : String) (source : Source) :
    ∃ p, (languageOn files).parse (commandWords path source) =
        .accepted p ⟨commandWords path source, (commandWords path source).length⟩ ∧
      p.job = (source.action files).bind fun value =>
        writeAction files path (textAt [value] 0) := by
  obtain ⟨hkeyword, hrest⟩ := (Cursor.faces_ofTokens (commandWords path source)).next
  obtain ⟨hpath, hsource⟩ := hrest.next
  obtain ⟨p, hread, hjob⟩ := reads_source files source _ hsource
  have htable : (vocabularyOn files).table .command = some (.ofRules (commandRules files) none) :=
    rfl
  have hcommand := Reads.keyword htable (hkeyword "command") rfl
    (.cons (reads_word hpath) (.cons hread .nil))
  refine ⟨_, Language.parse_eq_accepted.mpr ⟨hcommand, ?_⟩, ?_⟩
  · exact (Cursor.finished_iff _).mpr rfl
  · rw [Program.job] at hjob
    rw [Program.job, Program.jobWith, Program.jobAllWith, Program.jobAllWith, Program.jobWith,
      Program.jobAllWith, hjob, Job.arguments_eq_sequence, Job.sequence, Job.sequenceFrom,
      Job.pure_bind, Job.sequenceFrom, Job.bind_assoc]
    refine congrArg (source.action files).bind (funext fun value => ?_)
    rw [Job.sequenceFrom, Job.pure_bind]
    rfl

/-! ## Words that are refused -/

/-- The types have no fallbacks, so that nothing is read in a circle. -/
theorem grounded_languageOn (files : FileSystem S) :
    (vocabularyOn files).Grounded (.type .command) := by
  refine Vocabulary.Grounded.of_rank sizeOf fun e e' hs => ?_
  cases hs with
  | item =>
    rw [Expr.rep.sizeOf_spec]
    omega
  | @fallback name table e' ht hf => cases name <;> cases ht <;> cases hf

/-- What words are accepted has nothing to do with the files. -/
theorem varies_languageOn {S' : Type} (files : FileSystem S) (files' : FileSystem S') :
    (languageOn files).Varies (fun _ _ => True) Eq (languageOn files') := by
  have hrule : ∀ (rule : Rule Name S Value) handler,
      rule.Varies (fun _ _ => True) Eq (⟨rule.keyword, rule.args, handler⟩ : Rule Name S' Value) :=
    fun rule _ => ⟨rfl, List.forall₂_same.mpr fun e _ => .refl e, trivial⟩
  refine ⟨rfl, .refl _, rfl, rfl, fun name => ?_, fun h => by rw [h]⟩
  cases name with
  | command => exact .some ⟨.cons (hrule ..) .nil, .none⟩
  | source =>
    exact .some ⟨.cons (hrule ..) (.cons (hrule ..) (.cons (hrule ..) .nil)), .none⟩

theorem parse_eq_rejected {S' : Type} {words : List String} {error : Error} {c : Cursor}
    (h : (languageOn files).parse words = .rejected error c) (files' : FileSystem S') :
    (languageOn files').parse words = .rejected error c := by
  have hagree := (varies_languageOn files files').parse words
  rw [h] at hagree
  generalize (languageOn files').parse words = reply at hagree ⊢
  cases hagree
  rfl

/-! ## The run of a command -/

theorem Source.run_action (source : Source) (m : Machine S) :
    (source.action files).run m =
      (((source.answer files m.world).1.mapError .io).map .text,
        m.over (source.answer files m.world).2) := by
  cases source with
  | file path => rw [action, readAction, Job.run_map, FileSystem.read, FileSystem.run_ask]; rfl
  | word text => exact Job.run_pure _ m
  | list separator parts free closed => exact Job.run_pure _ m

theorem run_writeAction (path text : String) (m : Machine S) :
    (writeAction files path text).run m =
      (((files.writeText path text m.world).1.mapError .io).map fun _ => .text (receipt path text),
        m.over (files.writeText path text m.world).2) := by
  rw [writeAction, Job.run_map, FileSystem.write, FileSystem.run_ask]

theorem run_commandWords (path : String) (source : Source) (m : Machine S) :
    (languageOn files).run (commandWords path source) m =
      ((source.action files).bind fun value =>
        writeAction files path (textAt [value] 0)).run m := by
  obtain ⟨p, hparse, hjob⟩ := parse_command files path source
  rw [Language.run, hparse, ← hjob]
  rfl

/-- A source that cannot be obtained is the failure of the run. -/
theorem run_of_fault {path : String} {source : Source} {m : Machine S} {fault : String} {after : S}
    (h : source.answer files m.world = (.error fault, after)) :
    (languageOn files).run (commandWords path source) m = (.error (.io fault), m.over after) := by
  rw [run_commandWords, Job.run_bind, source.run_action, h]
  rfl

/-- The text of the source is written to the path, in the state in which the source left the
files. -/
theorem run_of_text {path : String} {source : Source} {m : Machine S} {text : String} {after : S}
    (h : source.answer files m.world = (.ok text, after)) :
    (languageOn files).run (commandWords path source) m =
      (((files.writeText path text after).1.mapError .io).map fun _ => .text (receipt path text),
        m.over (files.writeText path text after).2) := by
  rw [run_commandWords, Job.run_bind, source.run_action, h]
  exact run_writeAction path text (m.over after)

/-! ## What is asked of the files -/

/-- The words run to the result and leave the files in the state `after`. What is asked of the files
on the way is these calls in order, and nothing else. -/
structure Runs (files : FileSystem S) (words : List String) (m : Machine S)
    (calls : List FileCall) (result : Except Error Value) (after : S) : Prop where
  run_eq : (languageOn files).run words m = (result, m.over after)
  noted_eq : (languageOn files.noted).run words (m.over (m.world, [])) =
    (result, m.over (after, calls))

theorem Source.answer_noted {source : Source} {s after : S} {answer : Except String String}
    (h : source.answer files s = (answer, after)) :
    source.answer files.noted (s, []) = (answer, after, source.calls) := by
  cases source with
  | file path =>
    show ((files.readText path s).1, (files.readText path s).2, [FileCall.read path]) = _
    rw [show files.readText path s = (answer, after) from h]
    rfl
  | word text => cases h; rfl
  | list separator parts free closed => cases h; rfl

/-- To find out what a source stands for changes nothing. -/
theorem Source.answer_keeps {bytes : S → String → Option ByteArray}
    {Alias : S → String → String → Prop} (laws : files.Lawful bytes Alias) (source : Source)
    (s : S) : (source.answer files s).2 = s := by
  cases source with
  | file path => exact laws.read_keeps path s
  | word text => rfl
  | list separator parts free closed => rfl

theorem runs_of_rejected {words : List String} {error : Error} {c : Cursor}
    (h : (languageOn files).parse words = .rejected error c) (m : Machine S) :
    Runs files words m [] (.error error) m.world := by
  constructor
  · rw [Language.run, h]
    rfl
  · rw [Language.run, parse_eq_rejected h]
    rfl

theorem runs_of_fault {path : String} {source : Source} {m : Machine S} {fault : String}
    {after : S} (h : source.answer files m.world = (.error fault, after)) :
    Runs files (commandWords path source) m source.calls (.error (.io fault)) after :=
  ⟨run_of_fault h, run_of_fault (Source.answer_noted h)⟩

theorem runs_of_text (path : String) {source : Source} {m : Machine S} {text : String} {after : S}
    (h : source.answer files m.world = (.ok text, after)) :
    Runs files (commandWords path source) m (source.calls ++ [.write path text])
      (((files.writeText path text after).1.mapError .io).map fun _ => .text (receipt path text))
      (files.writeText path text after).2 :=
  ⟨run_of_text h, by rw [run_of_text (Source.answer_noted h)]; rfl⟩

/-- A file command touches its target only, once, and after its source, in every state of every file
system that obeys the laws. Words that are not those of a command are refused, and the files are not
asked. A source that cannot be read is the failure of the run, and nothing has changed. Otherwise
there is one writing, to the path, of the text that the source stands for before the run, and the
files are left as this writing leaves them. If it fails, so does the run; and else the result says
how many bytes were written, the path leads to a file of these bytes, and every path that leads to
another file leads to what it led to. -/
theorem command_writes_target_once {bytes : S → String → Option ByteArray}
    {Alias : S → String → String → Prop} (laws : files.Lawful bytes Alias) (words : List String)
    (m : Machine S) :
    (∃ error c, (languageOn files).parse words = .rejected error c ∧
      (∀ path source, words ≠ commandWords path source) ∧
      Runs files words m [] (.error error) m.world) ∨
    (∃ path origin fault, words = commandWords path (.file origin) ∧
      files.readText origin m.world = (.error fault, m.world) ∧
      Runs files words m [.read origin] (.error (.io fault)) m.world) ∨
    ∃ path source text written after result, words = commandWords path source ∧
      source.answer files m.world = (.ok text, m.world) ∧
      files.writeText path text m.world = (written, after) ∧
      Runs files words m (source.calls ++ [.write path text]) result after ∧
      (∀ fault, written = .error fault → result = .error (.io fault)) ∧
      (written = .ok () →
        result = .ok (.text ("wrote " ++ text.utf8ByteSize.repr ++ " bytes to " ++ path)) ∧
        bytes after path = some text.toUTF8 ∧
        ∀ other, ¬ Alias m.world path other → bytes after other = bytes m.world other) := by
  by_cases hwords : ∃ path source, words = commandWords path source
  · obtain ⟨path, source, rfl⟩ := hwords
    have hkeeps := source.answer_keeps laws m.world
    rcases hanswer : source.answer files m.world with ⟨answer, after⟩
    rw [hanswer] at hkeeps
    subst hkeeps
    cases answer with
    | error fault =>
      -- only a file can fail to be read
      cases source with
      | file origin => exact .inr (.inl ⟨path, origin, fault, rfl, hanswer, runs_of_fault hanswer⟩)
      | word text => cases hanswer
      | list separator parts free closed => cases hanswer
    | ok text =>
      have hruns := runs_of_text path hanswer
      have hset := laws.write_sets path text m.world
      rcases hwrite : files.writeText path text m.world with ⟨written, after⟩
      rw [hwrite] at hruns hset
      refine .inr (.inr
        ⟨path, source, text, written, after, _, rfl, hanswer, hwrite, hruns, ?_, ?_⟩)
      · rintro fault rfl
        rfl
      · rintro rfl
        exact ⟨rfl, hset rfl⟩
  · refine .inl ?_
    cases hparse : (languageOn files).parse words with
    | accepted p c => exact absurd (command_of_parse hparse) hwords
    | rejected error c =>
      exact ⟨error, c, rfl, fun path source e => hwords ⟨path, source, e⟩,
        runs_of_rejected hparse m⟩
    | endless =>
      exact absurd hparse (Language.parse_ne_endless (grounded_languageOn files) words)

/-- A store with two files. -/
def twoFiles : FileStore :=
  (FileStore.empty.put ⟨.above 0, ["a.txt"]⟩ (.file "hi".toUTF8)).put ⟨.above 0, ["b.txt"]⟩
    (.file "ho".toUTF8)

theorem not_alias_twoFiles : ¬ twoFiles.Alias "a.txt" "b.txt" := by
  rintro ⟨route, route', place, hroute, hroute', ⟨p, name, hwalk, hlast, hstep⟩,
    ⟨p', name', hwalk', hlast', hstep'⟩⟩
  cases hroute
  cases hroute'
  cases hwalk
  cases hwalk'
  cases hlast
  cases hlast'
  cases hstep
  cases hstep'

/-- A file that is copied to itself is read and then written once. It holds what it held, and so
does the other file. -/
theorem command_writes_target_once_copy :
    FileStore.files.Lawful FileStore.bytesAt FileStore.Alias ∧
      ∃ after, Runs FileStore.files ["writeFile", "a.txt", "readFile", "a.txt"]
          { world := twoFiles } [.read "a.txt", .write "a.txt" "hi"]
          (.ok (.text "wrote 2 bytes to a.txt")) after ∧
        after.bytesAt "a.txt" = some "hi".toUTF8 ∧ after.bytesAt "b.txt" = some "ho".toUTF8 := by
  refine ⟨FileStore.lawful_files, ?_⟩
  rcases command_writes_target_once FileStore.lawful_files
      ["writeFile", "a.txt", "readFile", "a.txt"] { world := twoFiles } with
    ⟨_, _, -, hno, -⟩ | ⟨path, origin, fault, hwords, hread, -⟩ |
    ⟨path, source, text, written, after, result, hwords, hanswer, hwrite, hruns, -, hset⟩
  · exact absurd rfl (hno "a.txt" (.file "a.txt"))
  · cases hwords
    cases hread
  · cases source with
    | file origin =>
      cases hwords
      cases hanswer
      cases hwrite
      obtain ⟨rfl, hself, hothers⟩ := hset rfl
      exact ⟨_, hruns, hself, hothers "b.txt" not_alias_twoFiles⟩
    | word text => simp [commandWords, Source.words] at hwords
    | list separator parts hparts closed => simp [commandWords, Source.words] at hwords

end Demo.Toolbox

end Parlance
