import Parlance.Demo.Sleep
import Parlance.Proofs.Reading.Rules
import Parlance.Proofs.Running.Elapsed
import Parlance.Proofs.Running.Endings
import Parlance.Recipe

/-
  The time that a recipe takes can be read off it: a chain takes the sum of the times of its parts,
  as far as it gets, and a group the longest of the times of its members, whether they fail or not.
  `elapsed_is_critical_path` says that a run on a clock that starts at 0 ends at that time. In the
  language of naps, a row of naps takes as long as all of them, and naps at once as long as one.
-/

namespace Parlance

variable {W V R : Type}

/-! ## What a recipe gives and how long it takes -/

namespace Recipe

mutual

/-- What the recipe gives, or nothing if it fails. -/
def value {R : Type} : Recipe V R → Option R
  | now _ result => result.toOption
  | later _ _ result => result.toOption
  | map f r => r.value.map f
  | andThen r f => r.value.bind fun value => (f value).value
  | sequence rs => valueAll rs
  | join rs => valueAll rs
termination_by structural r => r

/-- What the recipes give in order, or nothing if one of them fails. -/
def valueAll : List (Recipe V V) → Option (List V)
  | [] => some []
  | r :: rest => r.value.bind fun value => (valueAll rest).map fun values => value :: values
termination_by structural rs => rs

end

mutual

/-- How long the recipe takes. -/
def time {R : Type} : Recipe V R → Nat
  | now _ _ => 0
  | later _ delay _ => delay
  | map _ r => r.time
  | andThen r f =>
    r.time + match r.value with
      | some value => (f value).time
      | none => 0
  | sequence rs => timeInTurn rs
  | join rs => timeTogether rs
termination_by structural r => r

/-- How long the recipes take one after the other, up to the first that fails. -/
def timeInTurn : List (Recipe V V) → Nat
  | [] => 0
  | r :: rest => r.time + if r.value.isSome then timeInTurn rest else 0
termination_by structural rs => rs

/-- How long the recipes take side by side. -/
def timeTogether : List (Recipe V V) → Nat
  | [] => 0
  | r :: rest => max r.time (timeTogether rest)
termination_by structural rs => rs

end

theorem valueAll_eq_every (rs : List (Recipe V V)) : valueAll rs = every (rs.map value) := by
  induction rs with
  | nil => rfl
  | cons r rest ih => rw [valueAll, List.map_cons, every, ih]

/-- A sequence takes the times of its parts up to the first that fails, and of that one. -/
theorem time_sequence (rs : List (Recipe V V)) :
    (sequence rs).time =
      ((rs.take (rs.findIdx (fun r => r.value.isNone) + 1)).map time).foldr (· + ·) 0 := by
  show timeInTurn rs = _
  induction rs with
  | nil => rfl
  | cons r rest ih =>
    rw [timeInTurn, List.take_succ_cons, List.map_cons, List.foldr_cons, List.findIdx_cons, ih]
    cases r.value with
    | none => rfl
    | some value => rfl

/-- A group takes the longest of the times of its members. -/
theorem time_join (rs : List (Recipe V V)) :
    (join rs).time = (rs.map time).foldr max 0 := by
  show timeTogether rs = _
  induction rs with
  | nil => rfl
  | cons r rest ih => rw [timeTogether, List.map_cons, List.foldr_cons, ih]

end Recipe

/-! ## Jobs that are put together -/

namespace Job

theorem lasts_pure (value : R) : (pure value : Job W V R).Lasts 0 (some value) := .done

theorem Lasts.together {jobs : List (Job W V V)} {t : Nat} {os : List (Option V)}
    (h : LastsAll jobs t os) : (together jobs).Lasts t (every os) := by
  have hpure : LastsThen (pure : List V → Job W V (List V)) (every os) 0 (every os) := by
    cases every os with
    | some values => exact lasts_pure values
    | none => exact ⟨rfl, rfl⟩
  exact h.join hpure

/-- What follows a nap is told the time, but lasts as long whatever it is told. -/
theorem Lasts.sleep_bind {k : Nat → Job W V R} {t : Nat} {o : Option R}
    (h : ∀ now, (k now).Lasts t o) (delay : Nat) : ((sleep delay).bind k).Lasts (delay + t) o := by
  rw [sleep, Job.bind]
  apply Lasts.nap
  intro now
  rw [pure_bind]
  exact h now

end Job

namespace Recipe

theorem lasts_record_bind (e : Event) {k : Unit → Job (List Event) V R} {t : Nat} {o : Option R}
    (h : (k ()).Lasts t o) : ((record e).bind k).Lasts t o := by
  rw [record, Job.update, Job.bind]
  apply Job.Lasts.act
  intro w
  rwa [Job.pure_bind]

mutual

/-- The job of a recipe lasts as long as the recipe takes, and ends with what it gives. -/
theorem lasts_job {R : Type} (r : Recipe V R) : r.job.Lasts r.time r.value := by
  match r with
  | .now none result => exact .done
  | .now (some label) result =>
    rw [job]
    exact lasts_record_bind _ .done
  | .later label delay result =>
    rw [job, time, value, ← Nat.add_zero delay]
    apply lasts_record_bind
    apply Job.Lasts.sleep_bind
    intro now
    exact lasts_record_bind _ .done
  | .map f r => exact (lasts_job r).map f
  | .andThen r f =>
    rw [job, time, value]
    apply (lasts_job r).bind
    cases r.value with
    | some value => exact lasts_job (f value)
    | none => exact ⟨rfl, rfl⟩
  | .sequence rs =>
    have h := lasts_sequence rs []
    rw [job, time, value, Job.sequence]
    cases hv : valueAll rs <;> rw [hv] at h <;> exact h
  | .join rs =>
    rw [job, time, value, valueAll_eq_every]
    exact .together (lasts_jobAll rs)
termination_by structural r

/-- The values of a sequence come behind those before it. -/
theorem lasts_sequence (rs : List (Recipe V V)) (before : List V) :
    (Job.sequenceFrom before (jobAll rs)).Lasts (timeInTurn rs)
      ((valueAll rs).map (before ++ ·)) := by
  match rs with
  | [] =>
    rw [jobAll, Job.sequenceFrom, timeInTurn, valueAll, Option.map_some, List.append_nil]
    exact Job.lasts_pure before
  | r :: rest =>
    rw [jobAll, Job.sequenceFrom, timeInTurn, valueAll]
    apply (lasts_job r).bind
    cases r.value with
    | none => exact ⟨rfl, rfl⟩
    | some value =>
      show (Job.sequenceFrom (before ++ [value]) (jobAll rest)).Lasts (timeInTurn rest) _
      have h := lasts_sequence rest (before ++ [value])
      cases hv : valueAll rest with
      | none =>
        rw [hv] at h
        exact h
      | some values =>
        rw [hv] at h
        simpa using h
termination_by structural rs

theorem lasts_jobAll (rs : List (Recipe V V)) :
    Job.LastsAll (jobAll rs) (timeTogether rs) (rs.map value) := by
  match rs with
  | [] => exact .nil
  | r :: rest => exact .cons (lasts_job r) (lasts_jobAll rest)
termination_by structural rs

end

theorem clock_rehearse (r : Recipe V R) :
    (r.rehearse false).clock = r.time ∧ (r.rehearse false).result.toOption = r.value := by
  obtain ⟨htime, hvalue⟩ := r.lasts_job.run { world := [] } rfl
  exact ⟨htime.trans (Nat.zero_add _), hvalue⟩

end Recipe

/-! ## Naps -/

namespace Job

/-- A row of equal jobs takes as long as all of them. -/
theorem lasts_sequence_replicate {j : Job W V V} {t : Nat} {value : V}
    (h : j.Lasts t (some value)) (n : Nat) (before : List V) :
    (sequenceFrom before (List.replicate n j)).Lasts (n * t)
      (some (before ++ List.replicate n value)) := by
  induction n generalizing before with
  | zero =>
    rw [List.replicate_zero, sequenceFrom, Nat.zero_mul, List.replicate_zero, List.append_nil]
    exact lasts_pure before
  | succ n ih =>
    rw [List.replicate_succ, sequenceFrom, Nat.succ_mul, Nat.add_comm]
    apply h.bind
    have hrest := ih (before ++ [value])
    rwa [List.append_assoc] at hrest

theorem arguments_map {α : Type} (j : Job W V α) (g : α → V) (f : List V → Job W V R) :
    (arguments [j.map g]).bind f = j.bind fun value => f [g value] := by
  rw [arguments, List.foldl_cons, List.foldl_nil, pure_bind, map, map, bind_assoc, bind_assoc]
  refine congrArg j.bind (funext fun value => ?_)
  rw [pure_bind, pure_bind]
  rfl

/-- Equal jobs at once take as long as one of them. -/
theorem lastsAll_replicate {j : Job W V V} {t : Nat} {value : V} (h : j.Lasts t (some value))
    {n : Nat} (hn : 0 < n) :
    LastsAll (List.replicate n j) t ((List.replicate n value).map some) := by
  induction n with
  | zero => omega
  | succ n ih =>
    rw [List.replicate_succ, List.replicate_succ, List.map_cons]
    by_cases hzero : n = 0
    · subst hzero
      rw [← Nat.max_zero t]
      exact .cons h .nil
    · rw [← Nat.max_self t]
      exact .cons h (ih (by omega))

end Job

namespace Demo.Sleep

theorem lasts_nap (nap : Nat) (args : List Value) :
    ((napRule nap).handler args).Lasts nap (some .rested) := by
  show ((Job.sleep nap).bind fun _ => Job.pure Value.rested).Lasts (nap + 0) (some .rested)
  apply Job.Lasts.sleep_bind
  intro now
  exact Job.lasts_pure _

/-- Naps are read up to the end of the words. -/
theorem reads_naps (nap : Nat) (r : Repetition Value) (hr : r.exit = none) (n : Nat) (c : Cursor)
    (hc : c.Faces (List.replicate n "sleep")) :
    ∃ items, ReadsItems (vocabulary nap) r (.type .sleep) c
        (.accepted (items, none) ⟨c.tokens, c.tokens.length⟩) ∧
      Program.jobAllWith (fun _ rule => rule.handler) items =
        List.replicate n ((napRule nap).handler []) := by
  induction n generalizing c with
  | zero =>
    refine ⟨[], ?_, rfl⟩
    rw [← hc.index_eq]
    exact .finished ((Cursor.finished_iff c).mpr hc.index_eq)
  | succ n ih =>
    obtain ⟨hnext, hrest⟩ := hc.next
    have hitem : Reads (vocabulary nap) (.type .sleep) c
        ((Reply.accepted [] ⟨c.tokens, c.index + 1⟩).map fun args =>
          .call "sleep" ⟨"sleep", c.index⟩ (napRule nap) args) :=
      .keyword rfl (hnext "sleep") rfl .nil
    obtain ⟨items, hitems, hjobs⟩ := ih ⟨c.tokens, c.index + 1⟩ hrest
    refine ⟨_, .item (hnext _) (by rw [hr]; simp) hitem hitems, ?_⟩
    rw [Program.jobAllWith, hjobs, List.replicate_succ]
    rfl

/-- The naps of a program, in its mode. -/
def napJob (nap n : Nat) : Mode → Job Unit Value (List Value)
  | .sequential => Job.sequence (List.replicate n ((napRule nap).handler []))
  | .joined => Job.together (List.replicate n ((napRule nap).handler []))

/-- A way of taking naps is read with all the naps behind it, and does them in its mode. -/
theorem parse_naps (nap n : Nat) (mode : Mode) {word : String} {rule : Rule Name Unit Value}
    (hrule : (Table.ofRules runRules none).lookup word = some rule)
    (hargs : rule.args = [naps mode]) :
    ∃ p, (language nap).parse (word :: List.replicate n "sleep") =
        .accepted p ⟨word :: List.replicate n "sleep", n + 1⟩ ∧
      p.job = (napJob nap n mode).bind fun values => rule.handler [.naps values.length] := by
  let words := word :: List.replicate n "sleep"
  obtain ⟨hword, hfaces⟩ := (Cursor.faces_ofTokens words).next
  obtain ⟨items, hitems, hjobs⟩ := reads_naps nap
    ⟨mode, none, fun values => .naps values.length⟩ rfl n ⟨words, 1⟩ hfaces
  have hlength : words.length = n + 1 := by rw [List.length_cons, List.length_replicate]
  dsimp only at hitems
  rw [hlength] at hitems
  have hlist : ReadsArgs (vocabulary nap) rule.args ⟨words, 1⟩
      (.accepted [.list ((naps mode).tag (vocabulary nap).tag)
        ⟨mode, none, fun values => .naps values.length⟩ items none] ⟨words, n + 1⟩) := by
    rw [hargs]
    exact ReadsArgs.cons (Reads.rep hitems) .nil
  have htable : (vocabulary nap).table .run = some (.ofRules runRules none) := rfl
  have hread := Reads.keyword htable (hword "run") hrule hlist
  refine ⟨_, Language.parse_eq_accepted.mpr ⟨hread, ?_⟩, ?_⟩
  · exact (Cursor.finished_iff _).mpr hlength.symm
  · rw [Program.job, Program.jobWith, Program.jobAllWith, Program.jobWith, hjobs]
    cases mode with
    | sequential => exact Job.arguments_map _ _ _
    | joined => exact Job.arguments_map _ _ _

/-- A program of naps takes as long as the naps do in its mode, and reports how many they were. -/
theorem run_naps (nap n : Nat) (mode : Mode) {word text : String} {rule : Rule Name Unit Value}
    (hrule : (Table.ofRules runRules none).lookup word = some rule)
    (hargs : rule.args = [naps mode])
    (hhandler : ∀ args, rule.handler args = .pure (.report ((napCount args).repr ++ text)))
    {t : Nat} (ht : (napJob nap n mode).Lasts t (some (List.replicate n .rested))) :
    ∃ p m, (language nap).parse (word :: List.replicate n "sleep") =
        .accepted p ⟨word :: List.replicate n "sleep", n + 1⟩ ∧
      p.job.run { world := () } = (.ok (.report (n.repr ++ text)), m) ∧ m.now = t := by
  obtain ⟨p, hparse, hjob⟩ := parse_naps nap n mode hrule hargs
  have hlasts : p.job.Lasts t (some (.report (n.repr ++ text))) := by
    rw [hjob, ← Nat.add_zero t]
    apply ht.bind
    show (rule.handler [.naps (List.replicate n Value.rested).length]).Lasts 0 _
    rw [hhandler, List.length_replicate]
    exact Job.lasts_pure _
  obtain ⟨hclock, hvalue⟩ := hlasts.run { world := () } rfl
  refine ⟨p, (p.job.run { world := () }).2, hparse, ?_, ?_⟩
  · exact Prod.ext (toOption_eq_some_iff.mp hvalue) rfl
  · rw [hclock, Nat.zero_add]

end Demo.Sleep

/-- The time that passes is the critical path. A recipe that is run on a clock that starts at 0 ends
at the time that is read off it, and with what it gives if it does not fail: a sequence takes the
times of its parts up to and including the first that fails, and a group the longest of the times
of all its members. In the language of naps, `repeat` takes all its naps one after the other, and
`parallel` takes one nap for all of them. -/
theorem elapsed_is_critical_path :
    (∀ (R : Type) (r : Recipe V R),
      (r.rehearse false).clock = r.time ∧ (r.rehearse false).result.toOption = r.value) ∧
    (∀ rs : List (Recipe V V),
      (Recipe.sequence rs).time =
        ((rs.take (rs.findIdx (fun r => r.value.isNone) + 1)).map Recipe.time).foldr (· + ·) 0 ∧
      (Recipe.join rs).time = (rs.map Recipe.time).foldr max 0) ∧
    (∀ nap n : Nat, ∃ p m,
      (Demo.Sleep.language nap).parse ("repeat" :: List.replicate n "sleep") =
        .accepted p ⟨"repeat" :: List.replicate n "sleep", n + 1⟩ ∧
      p.job.run { world := () } = (.ok (.report (n.repr ++ " naps in a row")), m) ∧
      m.now = n * nap) ∧
    ∀ nap n : Nat, 0 < n → ∃ p m,
      (Demo.Sleep.language nap).parse ("parallel" :: List.replicate n "sleep") =
        .accepted p ⟨"parallel" :: List.replicate n "sleep", n + 1⟩ ∧
      p.job.run { world := () } = (.ok (.report (n.repr ++ " naps at once")), m) ∧
      m.now = nap := by
  refine ⟨fun R r => r.clock_rehearse, ?_, ?_, ?_⟩
  · intro rs
    exact ⟨Recipe.time_sequence rs, Recipe.time_join rs⟩
  · intro nap n
    refine Demo.Sleep.run_naps nap n .sequential rfl rfl (fun _ => rfl) ?_
    exact Job.lasts_sequence_replicate (Demo.Sleep.lasts_nap nap []) n []
  · intro nap n hn
    refine Demo.Sleep.run_naps nap n .joined rfl rfl (fun _ => rfl) ?_
    have h := Job.Lasts.together (Job.lastsAll_replicate (Demo.Sleep.lasts_nap nap []) hn)
    rwa [every_map_some] at h

/-- Three naps of 5 at once take 5. -/
theorem elapsed_is_critical_path_naps :
    ∃ p m, (Demo.Sleep.language 5).parse ["parallel", "sleep", "sleep", "sleep"] =
        .accepted p ⟨["parallel", "sleep", "sleep", "sleep"], 4⟩ ∧
      p.job.run { world := () } = (.ok (.report "3 naps at once"), m) ∧ m.now = 5 :=
  (elapsed_is_critical_path (V := Unit)).2.2.2 5 3 (by decide)

end Parlance
