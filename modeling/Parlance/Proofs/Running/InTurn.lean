import Parlance.Proofs.Running.Observed

/-
  Three ways of doing jobs in turn. `Loop` goes through a list of jobs with the values so far in
  hand. It starts without any waiting and stays so as long as each job has its value at once; at
  the first job that has to wait it becomes a suspended rest, which keeps the values, the thread
  that it waits for and the jobs that have not been started. `Job.pairs` is how a call collects its
  arguments: each is paired with all those before it, from the left. `Job.chain` puts the jobs
  behind one another, from the right.

  `Loop.Follows` says that nobody can tell the loop from a job: they are ready together, leave the
  same world when launched, wait for the same naps after every schedule with the same machine
  beside them, and end with the same result. The proof is a simulation, `Loop.Mirrors`. While the
  loop waits for a thread, the job is that thread with the rest of the sequence to do, whichever
  job was the first to wait.
-/

namespace Parlance

variable {W V α β γ : Type}

/-! ## The laws of going on -/

namespace Thread

theorem andThen_pure (t : Thread W V α) (m : Machine W) : t.andThen Job.pure m = (t, m) := by
  match t with
  | done (.ok value) =>
    rw [andThen, Job.enter, Job.pure, Job.launch]
    rfl
  | done (.error error) => rfl
  | waiting deadline ticket next =>
    rw [andThen]
    simp only [Job.bind_pure]
  | joining members failure next =>
    rw [andThen]
    simp only [Job.bind_pure]

theorem andThen_andThen (f : α → Job W V β) (g : β → Job W V γ) (t : Thread W V α)
    (m : Machine W) :
    (t.andThen f m).1.andThen g (t.andThen f m).2 =
      t.andThen (fun value => (f value).bind g) m := by
  match t with
  | done (.ok value) => exact (Job.enter_bind (f value) g m).symm
  | done (.error error) => rfl
  | waiting deadline ticket next =>
    simp only [andThen]
    simp only [Job.bind_assoc]
  | joining members failure next =>
    simp only [andThen]
    simp only [Job.bind_assoc]

end Thread

namespace Launch

theorem ok_andThen (value : α) (f : α → Job W V β) (w : W) :
    (settled (.ok value)).andThen f w = (f value).launch w := rfl

theorem andThen_pure (l : Launch W V α) (w : W) : l.andThen Job.pure w = (l, w) := by
  match l with
  | settled (.ok value) => rw [ok_andThen, Job.pure, Job.launch]
  | settled (.error error) => rfl
  | suspended poll =>
    rw [andThen]
    simp only [Thread.andThen_pure]

theorem andThen_andThen (f : α → Job W V β) (g : β → Job W V γ) (l : Launch W V α) (w : W) :
    (l.andThen f w).1.andThen g (l.andThen f w).2 =
      l.andThen (fun value => (f value).bind g) w := by
  match l with
  | settled (.ok value) => exact (Job.launch_bind (f value) g w).symm
  | settled (.error error) => rfl
  | suspended poll =>
    simp only [andThen]
    simp only [Thread.andThen_andThen]

end Launch

/-! ## Changing the value only -/

section

variable (read : α → β)

theorem Launch.result?_map (l : Launch W V α) (w : W) :
    (l.andThen (fun value => .pure (read value)) w).1.result? =
        l.result?.map (Except.map read) ∧
      (l.andThen (fun value => .pure (read value)) w).2 = w := by
  match l with
  | settled (.ok value) =>
    rw [ok_andThen, Job.pure, Job.launch]
    exact ⟨rfl, rfl⟩
  | settled (.error error) => exact ⟨rfl, rfl⟩
  | suspended poll => exact ⟨rfl, rfl⟩

theorem Thread.result?_map (t : Thread W V α) (m : Machine W) :
    (t.andThen (fun value => .pure (read value)) m).1.result? =
        t.result?.map (Except.map read) ∧
      (t.andThen (fun value => .pure (read value)) m).1.timers = t.timers ∧
      (t.andThen (fun value => .pure (read value)) m).2 = m := by
  match t with
  | done (.ok value) =>
    rw [andThen, Job.enter, Job.pure, Job.launch]
    exact ⟨rfl, rfl, rfl⟩
  | done (.error error) => exact ⟨rfl, rfl, rfl⟩
  | waiting deadline ticket next => exact ⟨rfl, rfl, rfl⟩
  | joining members failure next =>
    rw [andThen, timers, timers]
    exact ⟨rfl, rfl, rfl⟩

/-- Nothing is fired in a thread that has ended. -/
theorem Thread.step_done (result : Except Error α) (m : Machine W) (firing : Nat × Nat) :
    step (done result, m) firing = ((done result, m) : Thread W V α × Machine W) := by
  unfold step
  rw [fire]
  rfl

theorem Thread.step_map (s : Thread W V α × Machine W) (firing : Nat × Nat) :
    step (s.1.andThen (fun value => .pure (read value)) s.2) firing =
      (step s firing).1.andThen (fun value => .pure (read value)) (step s firing).2 := by
  cases ht : s.1.result? with
  | some result =>
    -- both have ended
    obtain ⟨t, m⟩ := s
    obtain rfl : t = done result := eq_done_iff.mpr ht
    rw [step_done]
    cases result with
    | ok value =>
      rw [andThen, Job.enter, Job.pure, Job.launch]
      exact step_done _ _ _
    | error error => exact step_done _ _ _
  | none =>
    unfold step
    rw [andThen_machine _ s.1 s.2 ht, fire_andThen _ s.1 s.2 ht]
    cases s.1.fire firing.1 { s.2 with now := firing.2 } with
    | none => rfl
    | some s' => rfl

theorem Job.scheduled_map (j : Job W V α) (m : Machine W) (schedule : List (Nat × Nat)) :
    (j.map read).scheduled m schedule =
      (j.scheduled m schedule).1.andThen (fun value => .pure (read value))
        (j.scheduled m schedule).2 := by
  unfold scheduled
  rw [map, enter_bind]
  generalize j.enter m = s
  induction schedule generalizing s with
  | nil => rfl
  | cons firing schedule ih =>
    rw [List.foldl_cons, List.foldl_cons, Thread.step_map]
    exact ih _

end

/-! ## Pairs and chains -/

/-- Values that are paired with all those before them. -/
inductive Pairs (V : Type) where
  | unit
  | pair (head : Pairs V) (value : V)

/-- The values in order. -/
def Pairs.toList : Pairs V → List V
  | unit => []
  | pair head value => head.toList ++ [value]

namespace Job

/-- Pairs the value of each job with those of the jobs before it. -/
def pairs (jobs : List (Job W V V)) : Job W V (Pairs V) :=
  jobs.foldl (fun init last => init.bind fun head => last.map fun value => .pair head value)
    (pure .unit)

/-- Each job with all those behind it to be done with its value. -/
def chain : List (Job W V V) → Job W V (List V)
  | [] => pure []
  | j :: rest => j.bind fun value => (chain rest).bind fun values => pure (value :: values)

theorem map_map (f : α → β) (g : β → γ) (j : Job W V α) :
    (j.map f).map g = j.map fun value => g (f value) := by
  rw [map, map, map, bind_assoc]
  simp only [pure_bind]

theorem foldl_pair_map_toList (jobs : List (Job W V V)) (init : Job W V (Pairs V)) :
    (jobs.foldl (fun init last => init.bind fun head => last.map fun value => .pair head value)
        init).map Pairs.toList =
      jobs.foldl (fun init last => init.bind fun head => last.map fun value => head ++ [value])
        (init.map Pairs.toList) := by
  induction jobs generalizing init with
  | nil => rfl
  | cons j jobs ih =>
    rw [List.foldl_cons, List.foldl_cons, ih]
    congr 1
    rw [map, map, bind_assoc, bind_assoc]
    refine congrArg init.bind (funext fun head => ?_)
    rw [pure_bind]
    exact map_map _ _ _

/-- To flatten pairs is to append the arguments one by one. -/
theorem pairs_map_toList (jobs : List (Job W V V)) :
    (pairs jobs).map Pairs.toList = arguments jobs := by
  rw [pairs, foldl_pair_map_toList, map, pure_bind]
  rfl

theorem sequenceFrom_eq_chain (values : List V) (jobs : List (Job W V V)) :
    sequenceFrom values jobs = (chain jobs).map fun rest => values ++ rest := by
  induction jobs generalizing values with
  | nil => rw [sequenceFrom, chain, map, pure_bind, List.append_nil]
  | cons j jobs ih =>
    rw [sequenceFrom, chain, map, bind_assoc]
    refine congrArg j.bind (funext fun value => ?_)
    rw [ih, bind_assoc, map]
    refine congrArg (chain jobs).bind (funext fun rest => ?_)
    rw [pure_bind, List.append_assoc, List.singleton_append]

theorem sequence_eq_chain (jobs : List (Job W V V)) : sequence jobs = chain jobs := by
  rw [sequence, sequenceFrom_eq_chain]
  exact bind_pure _

end Job

/-! ## The loop -/

/-- A loop that has begun to wait. -/
inductive Loop (W V : Type) where
  | ended (result : Except Error (List V))
  /-- Waits for the thread of one job; the values of the jobs before it are there, and the rest
  has not been started. -/
  | awaiting (values : List V) (current : Thread W V V) (rest : List (Job W V V))

/-- What a loop comes to without any waiting: its result, or a rest that runs when it is polled. -/
inductive Loop.Start (W V : Type) where
  | ended (result : Except Error (List V))
  | suspended (poll : Machine W → Loop W V × Machine W)

namespace Loop

/-- Adds the value of a thread that has ended to those before it, and goes on. A failure ends the
loop, and what has not ended is waited for. -/
def await (values : List V) (rest : List (Job W V V))
    (goOn : List V → Machine W → Loop W V × Machine W) :
    Thread W V V × Machine W → Loop W V × Machine W
  | (.done (.ok value), m) => goOn (values ++ [value]) m
  | (.done (.error error), m) => (ended (.error error), m)
  | (current, m) => (awaiting values current rest, m)

/-- The second half of the loop: starts each job in turn and waits for its value. -/
def resume : List (Job W V V) → List V → Machine W → Loop W V × Machine W
  | [], values, m => (ended (.ok values), m)
  | j :: rest, values, m => await values rest (resume rest) (j.enter m)

/-- The first half of the loop: launches each job in turn, up to the first that has no value. -/
def start : List (Job W V V) → List V → W → Start W V × W
  | [], values, w => (.ended (.ok values), w)
  | j :: rest, values, w =>
    match j.launch w with
    | (.settled (.ok value), w) => start rest (values ++ [value]) w
    | (.settled (.error error), w) => (.ended (.error error), w)
    | (.suspended poll, w) => (.suspended fun m => await values rest (resume rest) (poll m), w)

/-- The result of what has ended without any waiting. -/
def Start.result? : Start W V → Option (Except Error (List V))
  | ended result => some result
  | suspended _ => none

/-- Starts the naps of the rest. -/
def Start.poll : Start W V → Machine W → Loop W V × Machine W
  | ended result, m => (.ended result, m)
  | suspended poll, m => poll m

/-- Starts the loop and its naps. -/
def enter (jobs : List (Job W V V)) (m : Machine W) : Loop W V × Machine W :=
  let (s, w) := start jobs [] m.world
  s.poll { m with world := w }

def result? : Loop W V → Option (Except Error (List V))
  | ended result => some result
  | awaiting .. => none

/-- The naps of the thread that the loop waits for. -/
def timers : Loop W V → List (Nat × Nat)
  | ended _ => []
  | awaiting _ current _ => current.timers

/-- Ends a nap of the thread that the loop waits for, and goes on from there. -/
def fire (ticket : Nat) : Loop W V → Machine W → Option (Loop W V × Machine W)
  | ended _, _ => none
  | awaiting values current rest, m =>
    (current.fire ticket m).map (await values rest (resume rest))

/-- Fires a ticket at a time. -/
def step (s : Loop W V × Machine W) (firing : Nat × Nat) : Loop W V × Machine W :=
  (s.1.fire firing.1 { s.2 with now := firing.2 }).getD s

/-- Where a loop is when it has been entered on a machine and tickets have been fired. -/
def scheduled (jobs : List (Job W V V)) (m : Machine W) (schedule : List (Nat × Nat)) :
    Loop W V × Machine W :=
  schedule.foldl step (enter jobs m)

/-- Firing the timer that is due first, over and over, ends in the result and the machine. -/
inductive Ends : Loop W V × Machine W → Except Error (List V) × Machine W → Prop where
  | ended {result : Except Error (List V)} {m : Machine W} : Ends (.ended result, m) (result, m)
  | fired {l : Loop W V} {m : Machine W} {first : Nat × Nat} {others : List (Nat × Nat)}
      {s : Loop W V × Machine W} {r : Except Error (List V) × Machine W} :
      l.timers = first :: others →
      l.fire (others.foldl Thread.earlier first).2
        { m with now := (others.foldl Thread.earlier first).1 } = some s →
      Ends s r → Ends (l, m) r

/-! ## The loop is its sequence -/

/-- The thread is what the loop is waiting for, with the rest of the sequence to do. -/
inductive Mirrors : Loop W V × Machine W → Thread W V (List V) × Machine W → Prop where
  | ended {result : Except Error (List V)} {m : Machine W} :
      Mirrors (.ended result, m) (.done result, m)
  | awaiting {values : List V} {current : Thread W V V} {rest : List (Job W V V)}
      {m : Machine W} : current.result? = none →
      Mirrors (.awaiting values current rest, m)
        (current.andThen (fun value => Job.sequenceFrom (values ++ [value]) rest) m)

theorem Mirrors.result? {s : Loop W V × Machine W} {s' : Thread W V (List V) × Machine W}
    (h : Mirrors s s') : s.1.result? = s'.1.result? := by
  cases h with
  | ended => rfl
  | @awaiting values current rest m hcurrent =>
    cases current with
    | done result => cases hcurrent
    | waiting deadline ticket next => rfl
    | joining members failure next => rfl

theorem Mirrors.timers {s : Loop W V × Machine W} {s' : Thread W V (List V) × Machine W}
    (h : Mirrors s s') : s.1.timers = s'.1.timers := by
  cases h with
  | ended => rfl
  | awaiting hcurrent => exact (Thread.timers_andThen _ _ _ hcurrent).symm

theorem Mirrors.machine {s : Loop W V × Machine W} {s' : Thread W V (List V) × Machine W}
    (h : Mirrors s s') : s.2 = s'.2 := by
  cases h with
  | ended => rfl
  | awaiting hcurrent => exact (Thread.andThen_machine _ _ _ hcurrent).symm

theorem mirrors_await {rest : List (Job W V V)}
    {goOn : List V → Machine W → Loop W V × Machine W}
    (h : ∀ values m, Mirrors (goOn values m) ((Job.sequenceFrom values rest).enter m))
    (values : List V) (s : Thread W V V × Machine W) :
    Mirrors (await values rest goOn s)
      (s.1.andThen (fun value => Job.sequenceFrom (values ++ [value]) rest) s.2) := by
  match s with
  | (.done (.ok value), m) => exact h (values ++ [value]) m
  | (.done (.error error), m) => exact .ended
  | (.waiting deadline ticket next, m) => exact .awaiting rfl
  | (.joining members failure next, m) => exact .awaiting rfl

theorem mirrors_resume (jobs : List (Job W V V)) (values : List V) (m : Machine W) :
    Mirrors (resume jobs values m) ((Job.sequenceFrom values jobs).enter m) := by
  induction jobs generalizing values m with
  | nil =>
    rw [Job.sequenceFrom, Job.enter, Job.pure, Job.launch]
    exact .ended
  | cons j jobs ih =>
    rw [Job.sequenceFrom, Job.enter_bind]
    exact mirrors_await ih values (j.enter m)

/-- The first half of the loop is the launch of the sequence, wherever it has to wait first. -/
theorem start_launch (jobs : List (Job W V V)) (values : List V) (w : W) :
    (start jobs values w).1.result? = ((Job.sequenceFrom values jobs).launch w).1.result? ∧
      (start jobs values w).2 = ((Job.sequenceFrom values jobs).launch w).2 ∧
      ∀ m, Mirrors ((start jobs values w).1.poll m)
        (((Job.sequenceFrom values jobs).launch w).1.poll m) := by
  induction jobs generalizing values w with
  | nil =>
    rw [Job.sequenceFrom, Job.pure, Job.launch]
    exact ⟨rfl, rfl, fun m => .ended⟩
  | cons j jobs ih =>
    rw [Job.sequenceFrom, Job.launch_bind, start]
    obtain ⟨l, w'⟩ := j.launch w
    cases l with
    | settled result =>
      cases result with
      | ok value => exact ih (values ++ [value]) w'
      | error error => exact ⟨rfl, rfl, fun m => .ended⟩
    | suspended poll =>
      refine ⟨rfl, rfl, fun m => ?_⟩
      exact mirrors_await (mirrors_resume jobs) values (poll m)

theorem mirrors_enter (jobs : List (Job W V V)) (m : Machine W) :
    Mirrors (enter jobs m) ((Job.sequence jobs).enter m) := by
  obtain ⟨-, hworld, hpoll⟩ := start_launch jobs [] m.world
  have h := hpoll { m with world := (start jobs [] m.world).2 }
  rw [hworld] at h
  unfold enter
  simp only [hworld]
  exact h

/-- A ticket is fired in the loop if it is in the thread, and what is left is mirrored again. -/
theorem Mirrors.fire {s : Loop W V × Machine W} {s' : Thread W V (List V) × Machine W}
    (h : Mirrors s s') (ticket : Nat) (m : Machine W) :
    (s.1.fire ticket m = none ∧ s'.1.fire ticket m = none) ∨
      ∃ l t, s.1.fire ticket m = some l ∧ s'.1.fire ticket m = some t ∧ Mirrors l t := by
  cases h with
  | ended =>
    refine .inl ⟨rfl, ?_⟩
    rw [Thread.fire]
  | @awaiting values current rest m' hcurrent =>
    rw [Loop.fire, Thread.fire_andThen _ current m' hcurrent]
    cases current.fire ticket m with
    | none => exact .inl ⟨rfl, rfl⟩
    | some s => exact .inr ⟨_, _, rfl, rfl, mirrors_await (mirrors_resume rest) values s⟩

theorem Mirrors.step {s : Loop W V × Machine W} {s' : Thread W V (List V) × Machine W}
    (h : Mirrors s s') (firing : Nat × Nat) :
    Mirrors (Loop.step s firing) (Thread.step s' firing) := by
  unfold Loop.step Thread.step
  rw [h.machine]
  rcases h.fire firing.1 { s'.2 with now := firing.2 } with ⟨hl, ht⟩ | ⟨l, t, hl, ht, hlt⟩
  · rw [hl, ht]
    exact h
  · rw [hl, ht]
    exact hlt

theorem mirrors_scheduled (jobs : List (Job W V V)) (m : Machine W)
    (schedule : List (Nat × Nat)) :
    Mirrors (scheduled jobs m schedule) ((Job.sequence jobs).scheduled m schedule) := by
  unfold scheduled Job.scheduled
  have h := mirrors_enter jobs m
  revert h
  generalize enter jobs m = s
  generalize (Job.sequence jobs).enter m = s'
  intro h
  induction schedule generalizing s s' with
  | nil => exact h
  | cons firing schedule ih => exact ih _ _ (h.step firing)

/-- The loop ends where its thread is driven to. -/
theorem Mirrors.ends {s : Loop W V × Machine W} {t : Thread W V (List V)} {m m' : Machine W}
    {result : Except Error (List V)} (h : Mirrors s (t, m))
    (hdrive : t.drive m = (.done result, m')) : Ends s (result, m') := by
  obtain ⟨l, m₁⟩ := s
  obtain rfl : m₁ = m := h.machine
  cases hd : t.timers with
  | nil =>
    -- a thread without timers is driven nowhere, so that it has ended, and the loop with it
    rw [Thread.drive_of_due_none (by rw [Thread.due?, hd])] at hdrive
    cases hdrive
    have hl := h.result?
    cases l with
    | ended result' =>
      cases hl
      exact .ended
    | awaiting values current rest => cases hl
  | cons first others =>
    have hdue : t.due? = some (others.foldl Thread.earlier first) := by
      rw [Thread.due?, hd]
    rcases h.fire (others.foldl Thread.earlier first).2
      { m₁ with now := (others.foldl Thread.earlier first).1 } with
      ⟨-, ht⟩ | ⟨after, after', hl, ht, hafter⟩
    · have hsome := Thread.fire_isSome t (Thread.due?_mem hdue)
        { m₁ with now := (others.foldl Thread.earlier first).1 }
      rw [ht] at hsome
      cases hsome
    · rw [Thread.drive_of_due hdue ht] at hdrive
      exact .fired (h.timers.trans hd) hl (hafter.ends hdrive)
termination_by t
decreasing_by exact ⟨_, _, _, ht⟩

/-! ## Following a job -/

/-- Whatever is looked at, the loop over the jobs shows what the job shows, the value of the job
being read as a list. -/
structure Follows (jobs : List (Job W V V)) (read : α → List V) (j : Job W V α) : Prop where
  ready (w : W) : (start jobs [] w).1.result? = (j.launch w).1.result?.map (Except.map read)
  world (w : W) : (start jobs [] w).2 = (j.launch w).2
  result (m : Machine W) (schedule : List (Nat × Nat)) :
    (scheduled jobs m schedule).1.result? =
      (j.scheduled m schedule).1.result?.map (Except.map read)
  timers (m : Machine W) (schedule : List (Nat × Nat)) :
    (scheduled jobs m schedule).1.timers = (j.scheduled m schedule).1.timers
  machine (m : Machine W) (schedule : List (Nat × Nat)) :
    (scheduled jobs m schedule).2 = (j.scheduled m schedule).2
  ends (m : Machine W) : Ends (enter jobs m) ((j.run m).1.map read, (j.run m).2)

/-- A loop that follows the job with another value follows the job. -/
theorem Follows.of_map {jobs : List (Job W V V)} {read : α → List V} {j : Job W V α}
    (h : Follows jobs id (j.map read)) : Follows jobs read j where
  ready w := by
    have hready := h.ready w
    rw [Job.map, Job.launch_bind, (Launch.result?_map read _ _).1, Except.map_id,
      Option.map_id] at hready
    exact hready
  world w := by
    have hworld := h.world w
    rw [Job.map, Job.launch_bind, (Launch.result?_map read _ _).2] at hworld
    exact hworld
  result m schedule := by
    have hresult := h.result m schedule
    rw [Job.scheduled_map, (Thread.result?_map read _ _).1, Except.map_id,
      Option.map_id] at hresult
    exact hresult
  timers m schedule := by
    have htimers := h.timers m schedule
    rw [Job.scheduled_map, (Thread.result?_map read _ _).2.1] at htimers
    exact htimers
  machine m schedule := by
    have hmachine := h.machine m schedule
    rw [Job.scheduled_map, (Thread.result?_map read _ _).2.2] at hmachine
    exact hmachine
  ends m := by
    have hends := h.ends m
    rw [Job.run_map, Except.map_id] at hends
    exact hends

theorem follows_sequence (jobs : List (Job W V V)) : Follows jobs id (Job.sequence jobs) where
  ready w := by
    rw [Except.map_id, Option.map_id]
    exact (start_launch jobs [] w).1
  world w := (start_launch jobs [] w).2.1
  result m schedule := by
    rw [Except.map_id, Option.map_id]
    exact (mirrors_scheduled jobs m schedule).result?
  timers m schedule := (mirrors_scheduled jobs m schedule).timers
  machine m schedule := (mirrors_scheduled jobs m schedule).machine
  ends m := by
    rw [Except.map_id]
    exact (mirrors_enter jobs m).ends (Job.drive_enter _ m)

end Loop

/-- The loop over a list of jobs follows their sequence, the arguments of a call, the pairs that
are nested to the left, read as lists, and the chain that is nested to the right: none of them can
be told from another, whichever job is the first to wait or to fail. Such a chain is launched by
launching its first part and going on. To go on is associative, and a value that is there at once
is a unit on both sides. -/
theorem chaining_forms_agree :
    (∀ jobs : List (Job W V V),
      Loop.Follows jobs id (Job.sequence jobs) ∧ Loop.Follows jobs id (Job.arguments jobs) ∧
      Loop.Follows jobs Pairs.toList (Job.pairs jobs) ∧ Loop.Follows jobs id (Job.chain jobs)) ∧
    (∀ (α β : Type) (j : Job W V α) (f : α → Job W V β) (w : W),
      (j.bind f).launch w = (j.launch w).1.andThen f (j.launch w).2) ∧
    ∀ (α β γ : Type) (l : Launch W V α) (f : α → Job W V β) (g : β → Job W V γ) (w : W),
      (l.andThen f w).1.andThen g (l.andThen f w).2 =
        l.andThen (fun value => (f value).bind g) w ∧
      (∀ value, (Launch.settled (.ok value)).andThen f w = (f value).launch w) ∧
      l.andThen Job.pure w = (l, w) := by
  refine ⟨fun jobs => ?_, fun α β => Job.launch_bind, fun α β γ l f g w => ?_⟩
  · have hsequence := Loop.follows_sequence jobs
    have harguments : Loop.Follows jobs id (Job.arguments jobs) := by
      rw [Job.arguments_eq_sequence]
      exact hsequence
    refine ⟨hsequence, harguments, .of_map ?_, ?_⟩
    · rw [Job.pairs_map_toList]
      exact harguments
    · rw [← Job.sequence_eq_chain]
      exact hsequence
  · exact ⟨Launch.andThen_andThen f g l w, fun value => Launch.ok_andThen value f w,
      Launch.andThen_pure l w⟩

end Parlance
