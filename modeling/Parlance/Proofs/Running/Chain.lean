import Parlance.Job.Schedule

/-
  Running one job after another. `run_bind` says that to run `j.bind f` is to run `j` to its end
  and then to run what `f` makes of its value, on the machine that `j` leaves behind; a failure of
  `j` is the failure of the whole. It holds for every job, whatever it waits for on the way.

  The proof follows a thread from launch to end. `Thread.andThen` is a thread with something more
  to do once its value is there: a job entered with more to do is such a thread (`enter_bind`), it
  waits for the same naps (`timers_andThen`), and firing one of them leaves such a thread again
  (`fire_andThen`).
-/

namespace Parlance

variable {W V α β : Type}

/-- Goes on with `f` once the thread has its value. A thread that has ended goes on at once. -/
def Thread.andThen (f : α → Job W V β) : Thread W V α → Machine W → Thread W V β × Machine W
  | done (.ok value), m => (f value).enter m
  | done (.error error), m => (done (.error error), m)
  | waiting deadline ticket next, m => (waiting deadline ticket fun now => (next now).bind f, m)
  | joining members failure next, m =>
    (joining members failure fun values => (next values).bind f, m)

/-- What is launched goes on with `f` once its value is there. -/
def Launch.andThen (f : α → Job W V β) : Launch W V α → W → Launch W V β × W
  | settled (.ok value), w => (f value).launch w
  | settled (.error error), w => (settled (.error error), w)
  | suspended poll, w => (suspended fun m => (poll m).1.andThen f (poll m).2, w)

namespace Job

/-! ## Entering -/

/-- Polling what goes on is to poll and then to go on. -/
theorem poll_andThen (f : α → Job W V β) (l : Launch W V α) (w : W) (m : Machine W) :
    (l.andThen f w).1.poll { m with world := (l.andThen f w).2 } =
      (l.poll { m with world := w }).1.andThen f (l.poll { m with world := w }).2 := by
  match l with
  | .settled (.ok value) => rfl
  | .settled (.error error) => rfl
  | .suspended poll => rfl

/-- A job with more to do is launched as far as the job gets by itself, and further if the job is
over by then. -/
theorem launch_bind (j : Job W V α) (f : α → Job W V β) (w : W) :
    (j.bind f).launch w = (j.launch w).1.andThen f (j.launch w).2 := by
  match j with
  | done (.ok value) => rw [bind_ok, launch]; rfl
  | done (.error error) => rw [bind_error, launch, launch]; rfl
  | act update next =>
    rw [bind, launch, launch]
    exact launch_bind (next w) f (update w)
  | nap delay next =>
    rw [bind, launch, launch]
    simp only [Launch.andThen]
    refine congrArg (fun poll => (Launch.suspended poll, w)) (funext fun m => ?_)
    split
    · rw [launch_bind (next m.now) f m.world]
      exact poll_andThen f _ _ m
    · rfl
  | join members next =>
    rw [bind, launch, launch]
    simp only
    split
    · split
      · rfl
      · exact launch_bind (next _) f _
    · simp only [Launch.andThen]
      refine congrArg (fun poll => (Launch.suspended poll, (launchAll members w).2))
        (funext fun m => ?_)
      unfold Thread.conclude
      split
      · split
        · rfl
        · dsimp only
          rw [launch_bind (next _) f _]
          exact poll_andThen f _ _ _
      · rfl

theorem enter_bind (j : Job W V α) (f : α → Job W V β) (m : Machine W) :
    (j.bind f).enter m = (j.enter m).1.andThen f (j.enter m).2 := by
  unfold enter
  rw [launch_bind]
  exact poll_andThen f _ _ m

end Job

namespace Thread

/-! ## Firing and driving -/

/-- A thread that has ended is its result. -/
theorem eq_done_iff {t : Thread W V α} {result : Except Error α} :
    t = done result ↔ t.result? = some result := by
  cases t <;> simp [result?]

/-- What is fired has not ended. -/
theorem result?_of_fire {t : Thread W V α} {ticket : Nat} {m : Machine W}
    {s : Thread W V α × Machine W} (h : t.fire ticket m = some s) : t.result? = none := by
  match t with
  | done result => simp [fire] at h
  | waiting deadline ticket next => rfl
  | joining members failure next => rfl

/-- A thread that has not ended waits for the same naps with more to do as without. -/
theorem timers_andThen (f : α → Job W V β) (t : Thread W V α) (m : Machine W)
    (ht : t.result? = none) : (t.andThen f m).1.timers = t.timers := by
  match t with
  | done result => cases ht
  | waiting deadline ticket next => rfl
  | joining members failure next => rw [andThen, timers, timers]

/-- A thread that has not ended, with more to do, is fired as it is without. -/
theorem fire_andThen (f : α → Job W V β) (t : Thread W V α) (m : Machine W)
    (ht : t.result? = none) (ticket : Nat) (m' : Machine W) :
    (t.andThen f m).1.fire ticket m' = (t.fire ticket m').map fun s => s.1.andThen f s.2 := by
  match t with
  | done result => cases ht
  | waiting deadline ticket' next =>
    rw [andThen, fire, fire]
    split
    · rw [Option.map_some, Job.enter_bind]
    · rfl
  | joining members failure next =>
    rw [andThen, fire, fire, Option.map_map]
    refine congrArg (fun g => (fireAny ticket members m').map g) (funext fun s => ?_)
    simp only [Function.comp_apply]
    unfold conclude
    split
    · split
      · rfl
      · exact Job.enter_bind _ f _
    · rfl

theorem andThen_machine (f : α → Job W V β) (t : Thread W V α) (m : Machine W)
    (ht : t.result? = none) : (t.andThen f m).2 = m := by
  match t with
  | done result => cases ht
  | waiting deadline ticket next => rfl
  | joining members failure next => rfl

theorem drive_of_due_none {t : Thread W V α} (hd : t.due? = none) (m : Machine W) :
    t.drive m = (t, m) := by
  rw [drive]
  split
  · rfl
  · next hd' => rw [hd] at hd'; cases hd'

theorem drive_of_due {t : Thread W V α} {deadline ticket : Nat}
    (hd : t.due? = some (deadline, ticket)) {m : Machine W} {s : Thread W V α × Machine W}
    (hf : t.fire ticket { m with now := deadline } = some s) : t.drive m = s.1.drive s.2 := by
  rw [drive]
  split
  · next hd' => rw [hd] at hd'; cases hd'
  · next hd' =>
    rw [hd] at hd'
    cases hd'
    split
    · next hf' => rw [hf] at hf'; cases hf'
    · next hf' => rw [hf] at hf'; cases hf'; rfl

theorem drive_done (result : Except Error α) (m : Machine W) :
    (done result : Thread W V α).drive m = (done result, m) :=
  drive_of_due_none (by simp [due?, timers]) m

/-- To drive a thread with more to do is to drive the thread, to go on, and to drive the rest. -/
theorem drive_andThen (f : α → Job W V β) (t : Thread W V α) (m : Machine W) :
    (t.andThen f m).1.drive (t.andThen f m).2 =
      ((t.drive m).1.andThen f (t.drive m).2).1.drive
        ((t.drive m).1.andThen f (t.drive m).2).2 := by
  cases hd : t.due? with
  | none => rw [drive_of_due_none hd m]
  | some timer =>
    obtain ⟨deadline, ticket⟩ := timer
    cases hf : t.fire ticket { m with now := deadline } with
    | none =>
      have hs := fire_isSome t (due?_mem hd) { m with now := deadline }
      rw [hf] at hs
      cases hs
    | some s =>
      -- one nap ends on both sides, and what is left of `t` is smaller
      have ht := result?_of_fire hf
      have hdue : (t.andThen f m).1.due? = some (deadline, ticket) := by
        rw [due?, timers_andThen f t m ht, ← hd, due?]
      have hl := fire_andThen f t m ht ticket { m with now := deadline }
      rw [hf, Option.map_some] at hl
      rw [drive_of_due hd hf, andThen_machine f t m ht, drive_of_due hdue hl]
      exact drive_andThen f s.1 s.2
termination_by t
decreasing_by exact ⟨ticket, _, _, hf⟩

end Thread

namespace Job

/-! ## Running -/

/-- A run ends where driving ends. -/
theorem drive_enter (j : Job W V α) (m : Machine W) :
    (j.enter m).1.drive (j.enter m).2 = (.done (j.run m).1, (j.run m).2) :=
  Prod.ext (Thread.eq_done_iff.mpr (Option.some_get _).symm) rfl

theorem run_of_drive {j : Job W V α} {m m' : Machine W} {result : Except Error α}
    (h : (j.enter m).1.drive (j.enter m).2 = (.done result, m')) : j.run m = (result, m') := by
  rw [drive_enter] at h
  obtain ⟨hr, hm⟩ := Prod.mk.inj h
  cases hr
  rw [← hm]

/-- To run a job with more to do is to run the job, and then what is made of its value. -/
theorem run_bind (j : Job W V α) (f : α → Job W V β) (m : Machine W) :
    (j.bind f).run m =
      match j.run m with
      | (.ok value, m) => (f value).run m
      | (.error error, m) => (.error error, m) := by
  apply run_of_drive
  rw [enter_bind, Thread.drive_andThen, drive_enter]
  split
  · next value m' h => rw [h, Thread.andThen, drive_enter]
  · next error m' h => rw [h, Thread.andThen, Thread.drive_done]

theorem run_done (result : Except Error α) (m : Machine W) :
    (done result : Job W V α).run m = (result, m) := by
  apply run_of_drive
  rw [enter, launch]
  exact Thread.drive_done result m

theorem run_pure (value : α) (m : Machine W) : (pure value : Job W V α).run m = (.ok value, m) :=
  run_done _ m

theorem run_map (g : α → β) (j : Job W V α) (m : Machine W) :
    (j.map g).run m = ((j.run m).1.map g, (j.run m).2) := by
  rw [map, run_bind]
  split
  · next value m' h => rw [h, run_pure]; rfl
  · next error m' h => rw [h]; rfl

theorem run_update (g : W → W) (m : Machine W) :
    (update g : Job W V Unit).run m = (.ok (), { m with world := g m.world }) := by
  apply run_of_drive
  rw [enter, update, launch, pure, launch]
  exact Thread.drive_done _ _

/-- A nap comes to an end, and the world stays as it is. -/
theorem run_sleep (delay : Nat) (m : Machine W) :
    ∃ time m', (sleep delay : Job W V Nat).run m = (.ok time, m') ∧ m'.world = m.world := by
  by_cases h : delay = 0 ∨ m.frozen
  · refine ⟨m.now, m, run_of_drive ?_, rfl⟩
    rw [enter, sleep, launch]
    simp only [Launch.poll, if_pos h, pure, launch]
    exact Thread.drive_done _ _
  · let m' : Machine W := { m with now := m.now + delay, issued := m.issued + 1 }
    have hfire : (Thread.waiting (m.now + delay) m.issued pure : Thread W V Nat).fire m.issued m' =
        some (.done (.ok (m.now + delay)), m') := by
      rw [Thread.fire, if_pos rfl, enter, pure, launch]
      rfl
    refine ⟨m.now + delay, m', run_of_drive ?_, rfl⟩
    rw [enter, sleep, launch]
    simp only [Launch.poll, if_neg h]
    exact (Thread.drive_of_due rfl hfire).trans (Thread.drive_done _ _)

/-! ## Arguments are a sequence -/

/-- To append arguments one by one to those before them is to do them in sequence. -/
theorem foldl_append_eq_bind (jobs : List (Job W V V)) (init : Job W V (List V)) :
    jobs.foldl (fun init last => init.bind fun head => last.map fun value => head ++ [value])
        init =
      init.bind fun head => sequenceFrom head jobs := by
  induction jobs generalizing init with
  | nil => exact (bind_pure init).symm
  | cons j jobs ih =>
    rw [List.foldl_cons, ih, bind_assoc]
    refine congrArg init.bind (funext fun head => ?_)
    rw [map, bind_assoc, sequenceFrom]
    refine congrArg j.bind (funext fun value => ?_)
    rw [pure_bind]

theorem arguments_eq_sequence (jobs : List (Job W V V)) : arguments jobs = sequence jobs := by
  rw [arguments, foldl_append_eq_bind, pure_bind, sequence]

end Job

end Parlance
