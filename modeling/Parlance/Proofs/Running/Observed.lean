import Parlance.Proofs.Running.Barrier

/-
  Jobs that are observed. A schedule fires tickets one after the other, each at a time, on the
  machine that the firing before has left; `Job.scheduled` is where a job then is. Any order of
  firing is a schedule, and the order in which `run` fires is one of them.

  To see what happens on the way, the world gets a log beside it, and notes are added to the log
  at places of interest. `J.Observes j` says that `J` is `j` with notes. Then `J` does on every
  schedule what `j` does (`Job.Observes.scheduled`): notes are taken at once, so that no ticket is
  given out earlier or later for them.
-/

namespace Parlance

variable {W V N : Type}

/-! ## Schedules -/

namespace Thread

/-- Fires a ticket at a time. A ticket that the thread does not wait for changes nothing. -/
def step {R : Type} (s : Thread W V R × Machine W) (firing : Nat × Nat) :
    Thread W V R × Machine W :=
  (s.1.fire firing.1 { s.2 with now := firing.2 }).getD s

theorem step_cases {R : Type} (s : Thread W V R × Machine W) (firing : Nat × Nat) :
    step s firing = s ∨
      s.1.fire firing.1 { s.2 with now := firing.2 } = some (step s firing) := by
  unfold step
  cases s.1.fire firing.1 { s.2 with now := firing.2 } with
  | none => exact .inl rfl
  | some s' => exact .inr rfl

theorem sound_foldl_step {R : Type} (schedule : List (Nat × Nat))
    {s : Thread W V R × Machine W} (hs : s.1.Sound) : (schedule.foldl step s).1.Sound := by
  induction schedule generalizing s with
  | nil => exact hs
  | cons firing schedule ih =>
    refine ih ?_
    rcases step_cases s firing with h | h
    · rwa [h]
    · exact sound_fire s.1 hs _ _ h

/-- Driving a thread is a schedule. -/
theorem exists_foldl_step_eq_drive {R : Type} (t : Thread W V R) (m : Machine W) :
    ∃ schedule : List (Nat × Nat), schedule.foldl step (t, m) = t.drive m := by
  cases hd : t.due? with
  | none => exact ⟨[], (drive_of_due_none hd m).symm⟩
  | some timer =>
    obtain ⟨deadline, ticket⟩ := timer
    obtain ⟨s, hf⟩ :=
      Option.isSome_iff_exists.mp (fire_isSome t (due?_mem hd) { m with now := deadline })
    obtain ⟨schedule, hrest⟩ := exists_foldl_step_eq_drive s.1 s.2
    refine ⟨(ticket, deadline) :: schedule, ?_⟩
    have hstep : step (t, m) (ticket, deadline) = s := by
      rw [step, hf, Option.getD_some]
    rw [List.foldl_cons, hstep, hrest, drive_of_due hd hf]
termination_by t
decreasing_by exact ⟨ticket, _, _, hf⟩

end Thread

namespace Job

/-- Where a job is when it has been entered on a machine and tickets have been fired. -/
def scheduled {R : Type} (j : Job W V R) (m : Machine W) (schedule : List (Nat × Nat)) :
    Thread W V R × Machine W :=
  schedule.foldl Thread.step (j.enter m)

theorem sound_scheduled {R : Type} (j : Job W V R) (m : Machine W)
    (schedule : List (Nat × Nat)) : (j.scheduled m schedule).1.Sound :=
  Thread.sound_foldl_step schedule (sound_launch j _ _)

/-- From wherever a schedule has got to, some way of going on leads to the end. -/
theorem exists_ending {R : Type} (j : Job W V R) (m : Machine W) (schedule : List (Nat × Nat)) :
    ∃ more, (j.scheduled m (schedule ++ more)).1.result?.isSome := by
  obtain ⟨more, hmore⟩ := Thread.exists_foldl_step_eq_drive (j.scheduled m schedule).1
    (j.scheduled m schedule).2
  refine ⟨more, ?_⟩
  rw [scheduled, List.foldl_append]
  exact hmore ▸ Thread.result?_drive _ (sound_scheduled j m schedule) _

/-- The run of a job is one of its schedules. -/
theorem exists_scheduled_eq_run {R : Type} (j : Job W V R) (m : Machine W) :
    ∃ schedule, j.scheduled m schedule = (.done (j.run m).1, (j.run m).2) := by
  obtain ⟨schedule, h⟩ := Thread.exists_foldl_step_eq_drive (j.enter m).1 (j.enter m).2
  exact ⟨schedule, h.trans (drive_enter j m)⟩

end Job

/-! ## Jobs with notes -/

/-- The machine with a log beside its world. -/
def Machine.withLog (m : Machine W) (log : List N) : Machine (W × List N) :=
  ⟨(m.world, log), m.now, m.issued, m.frozen⟩

namespace Job

/-- A nap is entered when it is over. -/
theorem launch_nap {R : Type} (delay : Nat) (next : Nat → Job W V R) (w : W) :
    (nap delay next).launch w =
      (.suspended fun m =>
        if delay = 0 ∨ m.frozen then (next m.now).enter m
        else (.waiting (m.now + delay) m.issued next, { m with issued := m.issued + 1 }), w) := by
  rw [launch]
  rfl

mutual

/-- The job in a world with a log, which is left alone. -/
def lift (N : Type) {R : Type} : Job W V R → Job (W × List N) V R
  | done result => done result
  | act update next => act (fun w => (update w.1, w.2)) fun w => (next w.1).lift N
  | nap delay next => nap delay fun now => (next now).lift N
  | join members next => join (liftAll N members) fun values => (next values).lift N
termination_by structural j => j

/-- The jobs in a world with a log. -/
def liftAll (N : Type) : List (Job W V V) → List (Job (W × List N) V V)
  | [] => []
  | j :: rest => j.lift N :: liftAll N rest
termination_by structural js => js

end

/-- Adds a note to the log. -/
def note (n : N) : Job (W × List N) V Unit := update fun w => (w.1, w.2 ++ [n])

mutual

/-- The first job is the second with notes taken on the way. -/
inductive Observes : {R : Type} → Job (W × List N) V R → Job W V R → Prop where
  | done {R : Type} {result : Except Error R} : Observes (.done result) (.done result)
  | note {R : Type} {n : N} {next : W × List N → Job (W × List N) V R} {j : Job W V R} :
      (∀ w, Observes (next w) j) → Observes (.act (fun w => (w.1, w.2 ++ [n])) next) j
  | act {R : Type} {update : W → W} {next : W × List N → Job (W × List N) V R}
      {next' : W → Job W V R} :
      (∀ w, Observes (next w) (next' w.1)) →
      Observes (.act (fun w => (update w.1, w.2)) next) (.act update next')
  | nap {R : Type} {delay : Nat} {next : Nat → Job (W × List N) V R}
      {next' : Nat → Job W V R} :
      (∀ now, Observes (next now) (next' now)) → Observes (.nap delay next) (.nap delay next')
  | join {R : Type} {members : List (Job (W × List N) V V)} {members' : List (Job W V V)}
      {next : List V → Job (W × List N) V R} {next' : List V → Job W V R} :
      ObservesAll members members' → (∀ values, Observes (next values) (next' values)) →
      Observes (.join members next) (.join members' next')

/-- Each of the first jobs is one of the second with notes. -/
inductive ObservesAll : List (Job (W × List N) V V) → List (Job W V V) → Prop where
  | nil : ObservesAll [] []
  | cons {J : Job (W × List N) V V} {j : Job W V V} {Js : List (Job (W × List N) V V)}
      {js : List (Job W V V)} :
      Observes J j → ObservesAll Js js → ObservesAll (J :: Js) (j :: js)

end

end Job

mutual

/-- The first thread is the second with notes still to be taken. -/
inductive Thread.Observes : {R : Type} → Thread (W × List N) V R → Thread W V R → Prop where
  | done {R : Type} {result : Except Error R} : Observes (.done result) (.done result)
  | waiting {R : Type} {deadline ticket : Nat} {next : Nat → Job (W × List N) V R}
      {next' : Nat → Job W V R} :
      (∀ now, (next now).Observes (next' now)) →
      Observes (.waiting deadline ticket next) (.waiting deadline ticket next')
  | joining {R : Type} {members : List (Thread (W × List N) V V)}
      {members' : List (Thread W V V)} {failure : Option Error}
      {next : List V → Job (W × List N) V R} {next' : List V → Job W V R} :
      ObservesAll members members' → (∀ values, (next values).Observes (next' values)) →
      Observes (.joining members failure next) (.joining members' failure next')

inductive Thread.ObservesAll :
    List (Thread (W × List N) V V) → List (Thread W V V) → Prop where
  | nil : ObservesAll [] []
  | cons {T : Thread (W × List N) V V} {t : Thread W V V}
      {Ts : List (Thread (W × List N) V V)} {ts : List (Thread W V V)} :
      Observes T t → ObservesAll Ts ts → ObservesAll (T :: Ts) (t :: ts)

end

/-- Two states are in step: the threads correspond, and the machines differ in the log only. -/
def InStep {R : Type} (S : Thread (W × List N) V R × Machine (W × List N))
    (s : Thread W V R × Machine W) : Prop :=
  S.1.Observes s.1 ∧ ∃ log, S.2 = s.2.withLog log

/-- The first launch is the second with notes still to be taken. -/
structure Launch.Observes {R : Type} (L : Launch (W × List N) V R) (l : Launch W V R) :
    Prop where
  result?_eq : L.result? = l.result?
  poll (m : Machine W) (log : List N) : InStep (L.poll (m.withLog log)) (l.poll m)

/-! ## Results agree -/

theorem Thread.Observes.result?_eq {R : Type} {T : Thread (W × List N) V R} {t : Thread W V R}
    (h : T.Observes t) : T.result? = t.result? := by
  cases h <;> rfl

theorem Thread.Observes.failure?_eq {R : Type} {T : Thread (W × List N) V R}
    {t : Thread W V R} (h : T.Observes t) : T.failure? = t.failure? := by
  rw [T.failure?_eq, t.failure?_eq, h.result?_eq]

theorem Thread.ObservesAll.results_eq {Ts : List (Thread (W × List N) V V)}
    {ts : List (Thread W V V)} (h : Thread.ObservesAll Ts ts) :
    Ts.map Thread.result? = ts.map Thread.result? := by
  match h with
  | .nil => rfl
  | .cons hT hTs => rw [List.map_cons, List.map_cons, hT.result?_eq, hTs.results_eq]

theorem Thread.ObservesAll.allDone_eq {Ts : List (Thread (W × List N) V V)}
    {ts : List (Thread W V V)} (h : Thread.ObservesAll Ts ts) :
    Thread.allDone Ts = Thread.allDone ts := by
  have hall := congrArg (fun results => results.all Option.isSome) h.results_eq
  simp only [List.all_map] at hall
  exact hall

theorem Thread.ObservesAll.values_eq {Ts : List (Thread (W × List N) V V)}
    {ts : List (Thread W V V)} (h : Thread.ObservesAll Ts ts) :
    Thread.values Ts = Thread.values ts := by
  rw [Thread.values_eq, Thread.values_eq, h.results_eq]

theorem Launch.results_eq {Ls : List (Launch (W × List N) V V)} {ls : List (Launch W V V)}
    (h : List.Forall₂ Launch.Observes Ls ls) :
    Ls.map Launch.result? = ls.map Launch.result? := by
  induction h with
  | nil => rfl
  | cons hL _ ih => rw [List.map_cons, List.map_cons, hL.result?_eq, ih]

namespace Launch

section

variable {Ls : List (Launch (W × List N) V V)} {ls : List (Launch W V V)}
  (h : Ls.map result? = ls.map result?)

include h

theorem all_isReady_of_results : Ls.all (·.isReady) = ls.all (·.isReady) := by
  have hall := congrArg (fun results => results.all Option.isSome) h
  simp only [List.all_map] at hall
  rwa [isReady_eq, isReady_eq]

theorem failure?_of_results : failure? Ls = failure? ls := by
  have hfind := congrArg (fun results => results.findSome? (·.bind failureOf)) h
  simp only [List.findSome?_map] at hfind
  rw [failure?_eq, failure?_eq]
  exact hfind

theorem values_of_results : values Ls = values ls := by
  rw [values_eq, values_eq, h]

end

end Launch

/-! ## Steps agree -/

/-- Launched alike, two jobs are entered alike. -/
theorem inStep_enter {R : Type} {J : Job (W × List N) V R} {j : Job W V R} {m : Machine W}
    {log : List N}
    (h : (J.launch (m.world, log)).1.Observes (j.launch m.world).1 ∧
      ∃ log', (J.launch (m.world, log)).2 = ((j.launch m.world).2, log')) :
    InStep (J.enter (m.withLog log)) (j.enter m) := by
  obtain ⟨hlaunch, log', hw⟩ := h
  have hpoll := hlaunch.poll { m with world := (j.launch m.world).2 } log'
  unfold Machine.withLog at hpoll
  unfold Job.enter Machine.withLog
  dsimp only
  rwa [hw]

theorem inStep_conclude {R : Type} {Ts : List (Thread (W × List N) V V)}
    {ts : List (Thread W V V)} (hTs : Thread.ObservesAll Ts ts) (failure : Option Error)
    {next : List V → Job (W × List N) V R} {next' : List V → Job W V R}
    (hnext : ∀ values, (next values).Observes (next' values))
    (henter : ∀ values m (log : List N),
      InStep ((next values).enter (m.withLog log)) ((next' values).enter m))
    (m : Machine W) (log : List N) :
    InStep (Thread.conclude Ts failure next (fun values m => (next values).enter m)
        (m.withLog log))
      (Thread.conclude ts failure next' (fun values m => (next' values).enter m) m) := by
  unfold Thread.conclude
  rw [hTs.allDone_eq, hTs.values_eq]
  split
  · split
    · exact ⟨.done, log, rfl⟩
    · exact henter _ m log
  · exact ⟨.joining hTs hnext, log, rfl⟩

theorem inStep_pollAll {Ls : List (Launch (W × List N) V V)} {ls : List (Launch W V V)}
    (h : List.Forall₂ Launch.Observes Ls ls) (failure : Option Error) (m : Machine W)
    (log : List N) :
    Thread.ObservesAll (Launch.pollAll Ls failure (m.withLog log)).1
        (Launch.pollAll ls failure m).1 ∧
      (Launch.pollAll Ls failure (m.withLog log)).2.1 = (Launch.pollAll ls failure m).2.1 ∧
      ∃ log', (Launch.pollAll Ls failure (m.withLog log)).2.2 =
        (Launch.pollAll ls failure m).2.2.withLog log' := by
  induction h generalizing failure m log with
  | nil => exact ⟨.nil, rfl, log, rfl⟩
  | @cons L l Ls ls hL _ ih =>
    obtain ⟨hthread, log', hm⟩ := hL.poll m log
    obtain ⟨hrest, hfailure, hlog⟩ :=
      ih (failure.or (l.poll m).1.failure?) (l.poll m).2 log'
    rw [Launch.pollAll, Launch.pollAll]
    simp only [hm, hthread.failure?_eq]
    exact ⟨.cons hthread hrest, hfailure, hlog⟩

mutual

/-- Launching with notes is launching. -/
theorem Job.Observes.launch {R : Type} {J : Job (W × List N) V R} {j : Job W V R}
    (h : J.Observes j) (w : W) (log : List N) :
    (J.launch (w, log)).1.Observes (j.launch w).1 ∧
      ∃ log', (J.launch (w, log)).2 = ((j.launch w).2, log') := by
  match h with
  | .done =>
    rw [Job.launch, Job.launch]
    exact ⟨⟨rfl, fun m log => ⟨.done, log, rfl⟩⟩, log, rfl⟩
  | .note hnext =>
    rw [Job.launch]
    exact (hnext _).launch _ _
  | .act hnext =>
    rw [Job.launch, Job.launch]
    exact (hnext _).launch _ _
  | @Job.Observes.nap _ _ _ _ delay _ _ hnext =>
    rw [Job.launch_nap, Job.launch_nap]
    refine ⟨⟨rfl, fun m log => ?_⟩, log, rfl⟩
    -- the clocks of the two machines agree, so that the nap is over on both or on neither
    have hsame : delay = 0 ∨ (m.withLog log).frozen = true ↔ delay = 0 ∨ m.frozen = true := .rfl
    simp only [Launch.poll]
    by_cases hover : delay = 0 ∨ m.frozen
    · rw [if_pos hover, if_pos (hsame.mpr hover)]
      exact inStep_enter ((hnext m.now).launch m.world log)
    · rw [if_neg hover, if_neg (mt hsame.mp hover)]
      exact ⟨.waiting hnext, log, rfl⟩
  | .join hmembers hnext =>
    obtain ⟨hstarted, log', hw⟩ := hmembers.launchAll w log
    have hresults := Launch.results_eq hstarted
    rw [Job.launch, Job.launch]
    dsimp only
    rw [Launch.all_isReady_of_results hresults, Launch.failure?_of_results hresults,
      Launch.values_of_results hresults, hw]
    split
    · split
      · exact ⟨⟨rfl, fun m log => ⟨.done, log, rfl⟩⟩, log', rfl⟩
      · exact (hnext _).launch _ _
    · refine ⟨⟨rfl, fun m log => ?_⟩, log', rfl⟩
      obtain ⟨hthreads, hfailure, log'', hm⟩ := inStep_pollAll hstarted _ m log
      simp only [Launch.poll]
      rw [hfailure, hm]
      exact inStep_conclude hthreads _ hnext
        (fun values m log => inStep_enter ((hnext values).launch m.world log)) _ _

theorem Job.ObservesAll.launchAll {Js : List (Job (W × List N) V V)} {js : List (Job W V V)}
    (h : Job.ObservesAll Js js) (w : W) (log : List N) :
    List.Forall₂ Launch.Observes (Job.launchAll Js (w, log)).1 (Job.launchAll js w).1 ∧
      ∃ log', (Job.launchAll Js (w, log)).2 = ((Job.launchAll js w).2, log') := by
  match h with
  | .nil => exact ⟨.nil, log, rfl⟩
  | .cons hJ hJs =>
    obtain ⟨hlaunch, log₁, hw⟩ := hJ.launch w log
    obtain ⟨hrest, hlog⟩ := hJs.launchAll _ log₁
    rw [Job.launchAll, Job.launchAll]
    simp only [hw]
    exact ⟨.cons hlaunch hrest, hlog⟩

end

/-! ## Runs agree -/

theorem Job.Observes.enter {R : Type} {J : Job (W × List N) V R} {j : Job W V R}
    (h : J.Observes j) (m : Machine W) (log : List N) :
    InStep (J.enter (m.withLog log)) (j.enter m) :=
  inStep_enter (h.launch m.world log)

mutual

/-- Firing with notes is firing. -/
theorem Thread.Observes.fire {R : Type} {T : Thread (W × List N) V R} {t : Thread W V R}
    (h : T.Observes t) (ticket : Nat) (m : Machine W) (log : List N) :
    Option.Rel InStep (T.fire ticket (m.withLog log)) (t.fire ticket m) := by
  match h with
  | .done =>
    rw [Thread.fire, Thread.fire]
    exact .none
  | .waiting hnext =>
    rw [Thread.fire, Thread.fire]
    split
    · exact .some ((hnext m.now).enter m log)
    · exact .none
  | .joining hmembers hnext =>
    rw [Thread.fire, Thread.fire]
    rcases hmembers.fireAny ticket m log with ⟨hN, hn⟩ | ⟨Ts, ts, failed, m', log', hS, hs, hTs⟩
    · rw [hN, hn]
      exact .none
    · rw [hS, hs]
      exact .some (inStep_conclude hTs _ hnext (fun values m log => (hnext values).enter m log) _ _)

theorem Thread.ObservesAll.fireAny {Ts : List (Thread (W × List N) V V)}
    {ts : List (Thread W V V)} (h : Thread.ObservesAll Ts ts) (ticket : Nat) (m : Machine W)
    (log : List N) :
    (Thread.fireAny ticket Ts (m.withLog log) = none ∧ Thread.fireAny ticket ts m = none) ∨
      ∃ Ts' ts' failed m' log',
        Thread.fireAny ticket Ts (m.withLog log) = some (Ts', failed, m'.withLog log') ∧
        Thread.fireAny ticket ts m = some (ts', failed, m') ∧ Thread.ObservesAll Ts' ts' := by
  match h with
  | .nil => exact .inl ⟨rfl, rfl⟩
  | .cons hT hTs =>
    rw [Thread.fireAny, Thread.fireAny]
    have hfire := hT.fire ticket m log
    revert hfire
    generalize Thread.fire ticket _ (m.withLog log) = F
    generalize Thread.fire ticket _ m = f
    intro hfire
    cases hfire with
    | none =>
      rcases hTs.fireAny ticket m log with ⟨hN, hn⟩ | ⟨Ts, ts, failed, m', log', hS, hs, hTs⟩
      · dsimp only
        rw [hN, hn]
        exact .inl ⟨rfl, rfl⟩
      · dsimp only
        rw [hS, hs]
        exact .inr ⟨_, _, failed, m', log', rfl, rfl, .cons hT hTs⟩
    | @some S s hS =>
      obtain ⟨hthread, log', hm⟩ := hS
      refine .inr ⟨_, _, _, s.2, log', ?_, rfl, .cons hthread hTs⟩
      dsimp only
      rw [hm, hthread.failure?_eq]

end

theorem InStep.step {R : Type} {S : Thread (W × List N) V R × Machine (W × List N)}
    {s : Thread W V R × Machine W} (h : InStep S s) (firing : Nat × Nat) :
    InStep (Thread.step S firing) (Thread.step s firing) := by
  obtain ⟨log, hm⟩ := h.2
  have hmachine : { S.2 with now := firing.2 } =
      ({ s.2 with now := firing.2 } : Machine W).withLog log := by
    rw [hm]
    rfl
  have hfire := h.1.fire firing.1 { s.2 with now := firing.2 } log
  unfold Thread.step
  rw [hmachine]
  revert hfire
  generalize Thread.fire firing.1 S.1 _ = F
  generalize Thread.fire firing.1 s.1 _ = f
  intro hfire
  cases hfire with
  | none => exact h
  | some hstep => exact hstep

theorem InStep.foldl {R : Type} {S : Thread (W × List N) V R × Machine (W × List N)}
    {s : Thread W V R × Machine W} (h : InStep S s) (schedule : List (Nat × Nat)) :
    InStep (schedule.foldl Thread.step S) (schedule.foldl Thread.step s) := by
  induction schedule generalizing S s with
  | nil => exact h
  | cons firing schedule ih => exact ih (h.step firing)

/-- On every schedule, a job with notes does what the job does. -/
theorem Job.Observes.scheduled {R : Type} {J : Job (W × List N) V R} {j : Job W V R}
    (h : J.Observes j) (m : Machine W) (log : List N) (schedule : List (Nat × Nat)) :
    InStep (J.scheduled (m.withLog log) schedule) (j.scheduled m schedule) :=
  (h.enter m log).foldl schedule

/-! ## Where notes can be taken -/

namespace Job

mutual

theorem observes_lift {R : Type} (j : Job W V R) : (j.lift N).Observes j := by
  match j with
  | done result =>
    rw [lift]
    exact .done
  | act update next =>
    rw [lift]
    exact .act fun w => observes_lift (next w.1)
  | nap delay next =>
    rw [lift]
    exact .nap fun now => observes_lift (next now)
  | join members next =>
    rw [lift]
    exact .join (observesAll_liftAll members) fun values => observes_lift (next values)
termination_by structural j

theorem observesAll_liftAll (js : List (Job W V V)) : ObservesAll (liftAll N js) js := by
  match js with
  | [] => exact .nil
  | j :: rest => exact .cons (observes_lift j) (observesAll_liftAll rest)
termination_by structural js

end

theorem Observes.bind {R S : Type} {J : Job (W × List N) V R} {j : Job W V R}
    (h : J.Observes j) {F : R → Job (W × List N) V S} {f : R → Job W V S}
    (hf : ∀ value, (F value).Observes (f value)) : (J.bind F).Observes (j.bind f) := by
  match h with
  | @Observes.done _ _ _ _ result =>
    cases result with
    | ok value =>
      rw [bind_ok, bind_ok]
      exact hf value
    | error error =>
      rw [bind_error, bind_error]
      exact .done
  | .note hnext => exact .note fun w => (hnext w).bind hf
  | .act hnext => exact .act fun w => (hnext w).bind hf
  | .nap hnext => exact .nap fun now => (hnext now).bind hf
  | .join hmembers hnext => exact .join hmembers fun values => (hnext values).bind hf

/-- A note in front of a job. -/
theorem observes_bind_note {R : Type} {J : Job (W × List N) V R} {j : Job W V R}
    (h : J.Observes j) (n : N) : ((note n).bind fun _ => J).Observes j := by
  rw [note, update, bind]
  refine .note fun _ => ?_
  rwa [pure_bind]

theorem observes_sequenceFrom {Js : List (Job (W × List N) V V)} {js : List (Job W V V)}
    (h : ObservesAll Js js) (values : List V) :
    (sequenceFrom values Js).Observes (sequenceFrom values js) := by
  match h with
  | .nil => exact .done
  | .cons hJ hJs => exact hJ.bind fun value => observes_sequenceFrom hJs (values ++ [value])

theorem observes_together {Js : List (Job (W × List N) V V)} {js : List (Job W V V)}
    (h : ObservesAll Js js) : (together Js).Observes (together js) :=
  .join h fun _ => .done

end Job

end Parlance
