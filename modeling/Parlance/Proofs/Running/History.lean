import Parlance.Proofs.Running.Observed

/-
  What a log can look like. `J.Reaches h T` says that a job can have become the thread `T`, having
  logged `h` on the way. It follows the job, not the machine: what is read from the world and when
  naps end is left open, and the members of a group log side by side, in any shuffle. Whatever the
  schedule, a job that only adds to its log is at such a place (`Job.continues_scheduled`).

  The logs of a job that is put together can then be taken apart again: `Job.has_bind` for jobs
  one after the other, `Job.has_together` for groups.
-/

namespace Parlance

/-! ## Shuffles -/

/-- The third list has the entries of the other two, those of each in their order. -/
inductive Shuffle {α : Type} : List α → List α → List α → Prop where
  | nil : Shuffle [] [] []
  | left {x : α} {as bs cs : List α} : Shuffle as bs cs → Shuffle (x :: as) bs (x :: cs)
  | right {x : α} {as bs cs : List α} : Shuffle as bs cs → Shuffle as (x :: bs) (x :: cs)

namespace Shuffle

variable {α : Type} {as bs cs as' bs' cs' : List α}

theorem append (h : Shuffle as bs cs) (h' : Shuffle as' bs' cs') :
    Shuffle (as ++ as') (bs ++ bs') (cs ++ cs') := by
  induction h with
  | nil => exact h'
  | left _ ih => exact .left ih
  | right _ ih => exact .right ih

theorem left_only (as : List α) : Shuffle as [] as := by
  induction as with
  | nil => exact .nil
  | cons x as ih => exact .left ih

theorem right_only (bs : List α) : Shuffle [] bs bs := by
  induction bs with
  | nil => exact .nil
  | cons x bs ih => exact .right ih

/-- One after the other is a shuffle. -/
theorem in_turn (as bs : List α) : Shuffle as bs (as ++ bs) := by
  have h := (left_only as).append (right_only bs)
  rwa [List.append_nil, List.nil_append] at h

theorem perm (h : Shuffle as bs cs) : cs.Perm (as ++ bs) := by
  induction h with
  | nil => exact .nil
  | left _ ih => exact ih.cons _
  | right _ ih => exact (ih.cons _).trans List.perm_middle.symm

theorem left_subset (h : Shuffle as bs cs) : as ⊆ cs :=
  List.Subset.trans (List.subset_append_left as bs) h.perm.symm.subset

theorem right_subset (h : Shuffle as bs cs) : bs ⊆ cs :=
  List.Subset.trans (List.subset_append_right as bs) h.perm.symm.subset

/-- An entry comes from one of the two lists, and behind what came before it there. -/
theorem split {before after : List α} {x : α} (h : Shuffle as bs (before ++ x :: after)) :
    (∃ as₁ as₂, as = as₁ ++ x :: as₂ ∧ as₁ ⊆ before) ∨
      ∃ bs₁ bs₂, bs = bs₁ ++ x :: bs₂ ∧ bs₁ ⊆ before := by
  induction before generalizing as bs with
  | nil =>
    cases h with
    | @left _ as => exact .inl ⟨[], as, rfl, List.nil_subset _⟩
    | @right _ _ bs => exact .inr ⟨[], bs, rfl, List.nil_subset _⟩
  | cons y before ih =>
    cases h with
    | left h =>
      rcases ih h with ⟨as₁, as₂, rfl, hsub⟩ | ⟨bs₁, bs₂, rfl, hsub⟩
      · exact .inl ⟨y :: as₁, as₂, rfl, List.cons_subset_cons y hsub⟩
      · exact .inr ⟨bs₁, bs₂, rfl, List.Subset.trans hsub (List.subset_cons_self _ _)⟩
    | right h =>
      rcases ih h with ⟨as₁, as₂, rfl, hsub⟩ | ⟨bs₁, bs₂, rfl, hsub⟩
      · exact .inl ⟨as₁, as₂, rfl, List.Subset.trans hsub (List.subset_cons_self _ _)⟩
      · exact .inr ⟨y :: bs₁, bs₂, rfl, List.cons_subset_cons y hsub⟩

end Shuffle

variable {W V N : Type}

/-! ## Where a job can have got to -/

namespace Job

mutual

/-- The job only adds to the log. -/
def Grows {R : Type} : Job (W × List N) V R → Prop
  | done _ => True
  | act update next => (∀ w, ∃ g, (update w).2 = w.2 ++ g) ∧ ∀ w, (next w).Grows
  | nap _ next => ∀ now, (next now).Grows
  | join members next => GrowsAll members ∧ ∀ values, (next values).Grows
termination_by structural j => j

/-- The jobs only add to the log. -/
def GrowsAll : List (Job (W × List N) V V) → Prop
  | [] => True
  | j :: rest => j.Grows ∧ GrowsAll rest
termination_by structural js => js

end

mutual

/-- The job can have become the thread, having logged the list on the way. -/
inductive Reaches : {R : Type} → Job (W × List N) V R → List N → Thread (W × List N) V R → Prop
    where
  | done {R : Type} {result : Except Error R} : Reaches (.done result) [] (.done result)
  | act {R : Type} {update : W × List N → W × List N} {next : W × List N → Job (W × List N) V R}
      {w : W × List N} {g h : List N} {t : Thread (W × List N) V R} :
      (update w).2 = w.2 ++ g → Reaches (next w) h t → Reaches (.act update next) (g ++ h) t
  | waiting {R : Type} {delay deadline ticket : Nat} {next : Nat → Job (W × List N) V R} :
      Reaches (.nap delay next) [] (.waiting deadline ticket next)
  | awake {R : Type} {delay now : Nat} {next : Nat → Job (W × List N) V R} {h : List N}
      {t : Thread (W × List N) V R} :
      Reaches (next now) h t → Reaches (.nap delay next) h t
  /-- The group waits; a failure is noted if and only if a member has failed. -/
  | joining {R : Type} {members : List (Job (W × List N) V V)}
      {next : List V → Job (W × List N) V R} {h : List N} {ts : List (Thread (W × List N) V V)}
      {failure : Option Error} :
      ReachesAll members h ts → (failure = none ↔ ∀ t ∈ ts, t.failure? = none) →
      Reaches (.join members next) h (.joining ts failure next)
  /-- All members have ended, and one of them has failed. -/
  | failed {R : Type} {members : List (Job (W × List N) V V)}
      {next : List V → Job (W × List N) V R} {h : List N} {ts : List (Thread (W × List N) V V)}
      {t : Thread (W × List N) V V} {error : Error} :
      ReachesAll members h ts → Thread.allDone ts = true → t ∈ ts → t.failure? ≠ none →
      Reaches (.join members next) h (.done (.error error))
  /-- All members have ended well. -/
  | joined {R : Type} {members : List (Job (W × List N) V V)}
      {next : List V → Job (W × List N) V R} {h h' : List N} {values : List V}
      {t : Thread (W × List N) V R} :
      ReachesAll members h (values.map fun value => .done (.ok value)) →
      Reaches (next values) h' t → Reaches (.join members next) (h ++ h') t

/-- Each job can have become the thread at its place, the log being shuffled from theirs. -/
inductive ReachesAll :
    List (Job (W × List N) V V) → List N → List (Thread (W × List N) V V) → Prop where
  | nil : ReachesAll [] [] []
  | cons {j : Job (W × List N) V V} {js : List (Job (W × List N) V V)} {h₁ h₂ h : List N}
      {t : Thread (W × List N) V V} {ts : List (Thread (W × List N) V V)} :
      Reaches j h₁ t → ReachesAll js h₂ ts → Shuffle h₁ h₂ h → ReachesAll (j :: js) h (t :: ts)

end

/-- The job, having logged `h` when the machine was `m`, can have got to the state. -/
def Continues {R : Type} (j : Job (W × List N) V R) (h : List N) (m : Machine (W × List N))
    (s : Thread (W × List N) V R × Machine (W × List N)) : Prop :=
  ∃ g, s.2.world.2 = m.world.2 ++ g ∧ j.Reaches (h ++ g) s.1

/-- The jobs, having logged `h` when the machine was `m`, can have become the threads by the time
that it is `m'`. -/
def ContinuesAll (js : List (Job (W × List N) V V)) (h : List N) (m : Machine (W × List N))
    (ts : List (Thread (W × List N) V V)) (m' : Machine (W × List N)) : Prop :=
  ∃ g, m'.world.2 = m.world.2 ++ g ∧ ReachesAll js (h ++ g) ts

/-- What was launched goes on like the job however it is polled. -/
def Launches {R : Type} (j : Job (W × List N) V R) (h : List N) (l : Launch (W × List N) V R) :
    Prop :=
  ∀ m, j.Continues h m (l.poll m)

/-- Each job was launched as it is at its place, the log being shuffled from theirs. -/
inductive LaunchesAll :
    List (Job (W × List N) V V) → List N → List (Launch (W × List N) V V) → Prop where
  | nil : LaunchesAll [] [] []
  | cons {j : Job (W × List N) V V} {js : List (Job (W × List N) V V)} {h₁ h₂ h : List N}
      {l : Launch (W × List N) V V} {ls : List (Launch (W × List N) V V)} :
      j.Launches h₁ l → LaunchesAll js h₂ ls → Shuffle h₁ h₂ h →
      LaunchesAll (j :: js) h (l :: ls)

end Job

/-! ## Failures that are noted -/

theorem Thread.failure?_of_result? {R : Type} {t : Thread W V R} (h : t.result? = none) :
    t.failure? = none := by
  rw [t.failure?_eq, h, Option.bind_none]

/-- A firing reports a failure if and only if a member has failed by it. -/
theorem Thread.failures_fireAny {ticket : Nat} {ts ts' : List (Thread W V V)} {m m' : Machine W}
    {failed : Option Error} (h : fireAny ticket ts m = some (ts', failed, m')) :
    (∀ t ∈ ts', t.failure? = none) ↔ failed = none ∧ ∀ t ∈ ts, t.failure? = none := by
  induction ts generalizing ts' with
  | nil => cases h
  | cons t ts ih =>
    rw [fireAny] at h
    split at h
    · next t' m'' ht =>
      cases h
      have hold := failure?_of_result? (result?_of_fire ht)
      rw [List.forall_mem_cons, List.forall_mem_cons, hold]
      simp
    · obtain ⟨⟨us, f, m''⟩, hr, e⟩ := Option.map_eq_some_iff.mp h
      cases e
      rw [List.forall_mem_cons, List.forall_mem_cons, ih hr]
      exact and_left_comm

/-- Polling notes a failure if and only if one was noted before or a member has failed. -/
theorem Launch.failures_pollAll (ls : List (Launch W V V)) (failure : Option Error)
    (m : Machine W) :
    (pollAll ls failure m).2.1 = none ↔
      failure = none ∧ ∀ t ∈ (pollAll ls failure m).1, t.failure? = none := by
  induction ls generalizing failure m with
  | nil => simp [pollAll]
  | cons l ls ih =>
    rw [pollAll]
    dsimp only
    rw [ih, List.forall_mem_cons, Option.or_eq_none_iff, and_assoc]

/-- What has failed when it was launched has failed when it is polled. -/
theorem Launch.failure?_of_pollAll {ls : List (Launch W V V)} {failure : Option Error}
    {m : Machine W} (h : ∀ t ∈ (pollAll ls failure m).1, t.failure? = none) :
    failure? ls = none := by
  induction ls generalizing failure m with
  | nil => rfl
  | cons l ls ih =>
    rw [pollAll, List.forall_mem_cons] at h
    cases l with
    | settled result =>
      cases result with
      | ok value => exact ih h.2
      | error error => cases h.1
    | suspended poll => exact ih h.2

/-- Polling notes all the failures of a group. -/
theorem Launch.failures_pollAll_failure? (ls : List (Launch W V V)) (m : Machine W) :
    (pollAll ls (failure? ls) m).2.1 = none ↔
      ∀ t ∈ (pollAll ls (failure? ls) m).1, t.failure? = none := by
  rw [failures_pollAll]
  exact ⟨And.right, fun h => ⟨failure?_of_pollAll h, h⟩⟩

/-- Polling what has settled takes no time. -/
theorem Launch.pollAll_machine_of_ready {ls : List (Launch W V V)}
    (hready : ls.all (·.isReady) = true) (failure : Option Error) (m : Machine W) :
    (pollAll ls failure m).2.2 = m := by
  induction ls generalizing failure with
  | nil => rfl
  | cons l ls ih =>
    rw [List.all_cons, Bool.and_eq_true] at hready
    cases l with
    | settled result => exact ih hready.2 _
    | suspended poll => cases hready.1

theorem Launch.allDone_pollAll {ls : List (Launch W V V)} (hready : ls.all (·.isReady) = true)
    (failure : Option Error) (m : Machine W) :
    Thread.allDone (pollAll ls failure m).1 = true := by
  induction ls generalizing failure with
  | nil => rfl
  | cons l ls ih =>
    rw [List.all_cons, Bool.and_eq_true] at hready
    cases l with
    | settled result => exact ih hready.2 _
    | suspended poll => cases hready.1

/-- What has settled without a failure has values. -/
theorem Launch.pollAll_of_values {ls : List (Launch W V V)} (hready : ls.all (·.isReady) = true)
    (hok : failure? ls = none) (failure : Option Error) (m : Machine W) :
    (pollAll ls failure m).1 = (values ls).map fun value => .done (.ok value) := by
  induction ls generalizing failure with
  | nil => rfl
  | cons l ls ih =>
    rw [List.all_cons, Bool.and_eq_true] at hready
    match l with
    | settled (.ok value) => exact congrArg (_ :: ·) (ih hready.2 hok _)
    | settled (.error error) => cases hok
    | suspended poll => cases hready.1

/-- Threads that have all ended, none of them with a failure, have values. -/
theorem Thread.eq_values_of_allDone {ts : List (Thread W V V)} (hdone : allDone ts = true)
    (hok : ∀ t ∈ ts, t.failure? = none) :
    ts = (values ts).map fun value => .done (.ok value) := by
  induction ts with
  | nil => rfl
  | cons t ts ih =>
    rw [allDone, List.all_cons, Bool.and_eq_true] at hdone
    rw [List.forall_mem_cons] at hok
    match t with
    | done (.ok value) => exact congrArg (_ :: ·) (ih hdone.2 hok.2)
    | done (.error error) => cases hok.1
    | waiting .. => cases hdone.1
    | joining .. => cases hdone.1

/-! ## Wherever a job is, it can have got there -/

namespace Job

section

variable {R : Type} {h : List N} {m : Machine (W × List N)}
  {s : Thread (W × List N) V R × Machine (W × List N)}

theorem Reaches.continues {j : Job (W × List N) V R} {t : Thread (W × List N) V R}
    (hr : j.Reaches h t) (m : Machine (W × List N)) : j.Continues h m (t, m) :=
  ⟨[], (List.append_nil _).symm, (List.append_nil h).symm ▸ hr⟩

/-- What goes on from where a job has got to goes on from before. -/
theorem Continues.trans {j : Job (W × List N) V R} (hs : j.Continues h m s)
    {s' : Thread (W × List N) V R × Machine (W × List N)}
    (hs' : ∀ h, j.Reaches h s.1 → j.Continues h s.2 s') : j.Continues h m s' := by
  obtain ⟨g, hlog, hreach⟩ := hs
  obtain ⟨g', hlog', hreach'⟩ := hs' _ hreach
  refine ⟨g ++ g', ?_, ?_⟩
  · rw [hlog', hlog, List.append_assoc]
  · rwa [← List.append_assoc]

theorem Continues.act {update : W × List N → W × List N}
    {next : W × List N → Job (W × List N) V R} {w : W × List N} {g : List N}
    (hg : (update w).2 = w.2 ++ g) (hs : (next w).Continues h m s) :
    (act update next).Continues (g ++ h) m s := by
  obtain ⟨g', hlog, hreach⟩ := hs
  refine ⟨g', hlog, ?_⟩
  rw [List.append_assoc]
  exact .act hg hreach

theorem Continues.awake {delay now : Nat} {next : Nat → Job (W × List N) V R}
    (hs : (next now).Continues h m s) : (nap delay next).Continues h m s := by
  obtain ⟨g, hlog, hreach⟩ := hs
  exact ⟨g, hlog, .awake hreach⟩

theorem Continues.joined {members : List (Job (W × List N) V V)}
    {next : List V → Job (W × List N) V R} {values : List V} {h' : List N}
    (hts : ReachesAll members h (values.map fun value => .done (.ok value)))
    (hs : (next values).Continues h' m s) : (join members next).Continues (h ++ h') m s := by
  obtain ⟨g, hlog, hreach⟩ := hs
  refine ⟨g, hlog, ?_⟩
  rw [List.append_assoc]
  exact .joined hts hreach

theorem ReachesAll.conclude {members : List (Job (W × List N) V V)}
    {ts : List (Thread (W × List N) V V)} (hts : ReachesAll members h ts)
    {failure : Option Error} (hf : failure = none ↔ ∀ t ∈ ts, t.failure? = none)
    {next : List V → Job (W × List N) V R}
    (hnext : ∀ values m, (next values).Continues [] m ((next values).enter m))
    (m : Machine (W × List N)) :
    (join members next).Continues h m
      (Thread.conclude ts failure next (fun values m => (next values).enter m) m) := by
  unfold Thread.conclude
  split
  · next hdone =>
    cases failure with
    | some error =>
      obtain ⟨t, ht, hfail⟩ : ∃ t ∈ ts, t.failure? ≠ none := by
        simpa using hf
      exact (Reaches.failed hts hdone ht hfail).continues m
    | none =>
      have hgo := hnext (Thread.values ts) m
      rw [Thread.eq_values_of_allDone hdone (hf.mp rfl)] at hts
      have hjoined := hgo.joined hts
      rwa [List.append_nil] at hjoined
  · exact (Reaches.joining hts hf).continues m

/-- A group whose members have gone on waits, has failed, or goes on. -/
theorem ContinuesAll.conclude {members : List (Job (W × List N) V V)}
    {ts : List (Thread (W × List N) V V)} {m' : Machine (W × List N)}
    (hts : ContinuesAll members h m ts m')
    {failure : Option Error} (hf : failure = none ↔ ∀ t ∈ ts, t.failure? = none)
    {next : List V → Job (W × List N) V R}
    (hnext : ∀ values m, (next values).Continues [] m ((next values).enter m)) :
    (join members next).Continues h m
      (Thread.conclude ts failure next (fun values m => (next values).enter m) m') := by
  obtain ⟨g, hlog, hreach⟩ := hts
  obtain ⟨g', hlog', hreach'⟩ := hreach.conclude hf hnext m'
  refine ⟨g ++ g', ?_, ?_⟩
  · rw [hlog', hlog, List.append_assoc]
  · rwa [← List.append_assoc]

/-- What is launched and then polled has been entered. -/
theorem Launches.enter {j : Job (W × List N) V R}
    (hj : ∃ g, (j.launch m.world).2.2 = m.world.2 ++ g ∧ j.Launches g (j.launch m.world).1) :
    j.Continues [] m (j.enter m) := by
  obtain ⟨g, hw, hl⟩ := hj
  obtain ⟨g', hlog, hreach⟩ := hl { m with world := (j.launch m.world).2 }
  refine ⟨g ++ g', ?_, hreach⟩
  rw [← List.append_assoc, ← hw]
  exact hlog

end

theorem LaunchesAll.pollAll {js : List (Job (W × List N) V V)} {h : List N}
    {ls : List (Launch (W × List N) V V)} (hl : LaunchesAll js h ls) (failure : Option Error)
    (m : Machine (W × List N)) :
    ContinuesAll js h m (Launch.pollAll ls failure m).1 (Launch.pollAll ls failure m).2.2 := by
  induction hl generalizing failure m with
  | nil => exact ⟨[], (List.append_nil _).symm, .nil⟩
  | @cons j js h₁ h₂ h l ls hj _ hs ih =>
    obtain ⟨g₁, hlog₁, hreach⟩ := hj m
    obtain ⟨g₂, hlog₂, hrest⟩ := ih (failure.or (l.poll m).1.failure?) (l.poll m).2
    refine ⟨g₁ ++ g₂, ?_, .cons hreach hrest (hs.append (.in_turn g₁ g₂))⟩
    rw [Launch.pollAll]
    dsimp only
    rw [hlog₂, hlog₁, List.append_assoc]

/-- A group that is launched without waiting has logged what its members have. -/
theorem LaunchesAll.of_ready {js : List (Job (W × List N) V V)} {h : List N}
    {ls : List (Launch (W × List N) V V)} (hl : LaunchesAll js h ls)
    (hready : ls.all (·.isReady) = true) (m : Machine (W × List N)) :
    ReachesAll js h (Launch.pollAll ls none m).1 := by
  obtain ⟨g, hlog, hreach⟩ := hl.pollAll none m
  rw [Launch.pollAll_machine_of_ready hready, List.self_eq_append_right] at hlog
  rwa [hlog, List.append_nil] at hreach

mutual

theorem launches {R : Type} (j : Job (W × List N) V R) (hj : j.Grows) (w : W × List N) :
    ∃ g, (j.launch w).2.2 = w.2 ++ g ∧ j.Launches g (j.launch w).1 := by
  match j with
  | done result =>
    rw [launch]
    exact ⟨[], (List.append_nil _).symm, fun m => Reaches.done.continues m⟩
  | act update next =>
    rw [Grows] at hj
    obtain ⟨g₁, hg⟩ := hj.1 w
    obtain ⟨g₂, hw, hl⟩ := launches (next w) (hj.2 w) (update w)
    rw [launch]
    exact ⟨g₁ ++ g₂, by rw [hw, hg, List.append_assoc], fun m => .act hg (hl m)⟩
  | nap delay next =>
    rw [Grows] at hj
    rw [launch_nap]
    refine ⟨[], (List.append_nil _).symm, fun m => ?_⟩
    simp only [Launch.poll]
    split
    · exact .awake (Launches.enter (launches (next m.now) (hj m.now) m.world))
    · exact ⟨[], (List.append_nil _).symm, .waiting⟩
  | join members next =>
    rw [Grows] at hj
    obtain ⟨g, hw, hl⟩ := launchesAll members hj.1 w
    have hnext := fun values w => launches (next values) (hj.2 values) w
    rw [launch]
    generalize launchAll members w = started at hw hl ⊢
    obtain ⟨started, w'⟩ := started
    dsimp only at hw hl ⊢
    split
    · next hready =>
      split
      · next error hfailure =>
        refine ⟨g, hw, fun m => ?_⟩
        obtain ⟨t, ht, hfail⟩ : ∃ t ∈ (Launch.pollAll started none m).1, t.failure? ≠ none := by
          have hsome : ¬ ∀ t ∈ (Launch.pollAll started none m).1, t.failure? = none := by
            intro hnone
            rw [Launch.failure?_of_pollAll hnone] at hfailure
            cases hfailure
          simpa using hsome
        have hdone := Launch.allDone_pollAll hready none m
        exact (Reaches.failed (hl.of_ready hready m) hdone ht hfail).continues m
      · next hfailure =>
        obtain ⟨g', hw', hl'⟩ := hnext (Launch.values started) w'
        refine ⟨g ++ g', by rw [hw', hw, List.append_assoc], fun m => .joined ?_ (hl' m)⟩
        rw [← Launch.pollAll_of_values hready hfailure none m]
        exact hl.of_ready hready m
    · refine ⟨g, hw, fun m => ?_⟩
      exact (hl.pollAll (Launch.failure? started) m).conclude
        (Launch.failures_pollAll_failure? started m)
        (fun values m => Launches.enter (hnext values m.world))
termination_by structural j

theorem launchesAll (js : List (Job (W × List N) V V)) (hjs : GrowsAll js) (w : W × List N) :
    ∃ g, (launchAll js w).2.2 = w.2 ++ g ∧ LaunchesAll js g (launchAll js w).1 := by
  match js with
  | [] => exact ⟨[], (List.append_nil _).symm, .nil⟩
  | j :: rest =>
    rw [GrowsAll] at hjs
    obtain ⟨g₁, hw₁, hl⟩ := launches j hjs.1 w
    obtain ⟨g₂, hw₂, hrest⟩ := launchesAll rest hjs.2 (j.launch w).2
    refine ⟨g₁ ++ g₂, ?_, .cons hl hrest (.in_turn g₁ g₂)⟩
    rw [launchAll]
    dsimp only
    rw [hw₂, hw₁, List.append_assoc]
termination_by structural js

end

theorem enters {R : Type} (j : Job (W × List N) V R) (hj : j.Grows) (m : Machine (W × List N)) :
    j.Continues [] m (j.enter m) :=
  Launches.enter (launches j hj m.world)

mutual

/-- A firing leads from where a job can have got to where it can get. -/
theorem Reaches.fire {R : Type} {j : Job (W × List N) V R} {h : List N}
    {t : Thread (W × List N) V R} (hr : j.Reaches h t) (hj : j.Grows) {ticket : Nat}
    {m : Machine (W × List N)} {s : Thread (W × List N) V R × Machine (W × List N)}
    (hf : t.fire ticket m = some s) : j.Continues h m s := by
  match hr with
  | .done | .failed _ _ _ _ =>
    rw [Thread.fire] at hf
    cases hf
  | .act hg hnext =>
    rw [Grows] at hj
    exact .act hg (hnext.fire (hj.2 _) hf)
  | @Reaches.waiting _ _ _ _ _ _ _ next =>
    rw [Grows] at hj
    rw [Thread.fire] at hf
    split at hf
    · have hgo := enters (next m.now) (hj m.now) m
      rw [Option.some.inj hf] at hgo
      exact .awake hgo
    · cases hf
  | .awake hnext =>
    rw [Grows] at hj
    exact .awake (hnext.fire (hj _) hf)
  | .joining hts hfailure =>
    rw [Grows] at hj
    rw [Thread.fire] at hf
    obtain ⟨⟨ts', failed, m₁⟩, hany, e⟩ := Option.map_eq_some_iff.mp hf
    dsimp only at e
    have hnoted := Thread.failures_fireAny hany
    rw [← hfailure, and_comm, ← Option.or_eq_none_iff] at hnoted
    rw [← e]
    exact (hts.fireAny hj.1 hany).conclude hnoted.symm (fun values m => enters _ (hj.2 values) m)
  | .joined hts hnext =>
    rw [Grows] at hj
    exact .joined hts (hnext.fire (hj.2 _) hf)

theorem ReachesAll.fireAny {js : List (Job (W × List N) V V)} {h : List N}
    {ts : List (Thread (W × List N) V V)} (hr : ReachesAll js h ts) (hjs : GrowsAll js)
    {ticket : Nat} {m m' : Machine (W × List N)} {ts' : List (Thread (W × List N) V V)}
    {failed : Option Error} (hf : Thread.fireAny ticket ts m = some (ts', failed, m')) :
    ContinuesAll js h m ts' m' := by
  match hr with
  | .nil => cases hf
  | .cons hj hrest hs =>
    rw [GrowsAll] at hjs
    rw [Thread.fireAny] at hf
    split at hf
    · next t' m₁ ht =>
      cases hf
      obtain ⟨g, hlog, hreach⟩ := hj.fire hjs.1 ht
      refine ⟨g, hlog, .cons hreach hrest ?_⟩
      have hshuffle := hs.append (.left_only g)
      rwa [List.append_nil] at hshuffle
    · obtain ⟨⟨us, f, m₁⟩, hany, e⟩ := Option.map_eq_some_iff.mp hf
      cases e
      obtain ⟨g, hlog, hreach⟩ := hrest.fireAny hjs.2 hany
      refine ⟨g, hlog, .cons hj hreach ?_⟩
      have hshuffle := hs.append (.right_only g)
      rwa [List.append_nil] at hshuffle

end

theorem Reaches.step {R : Type} {j : Job (W × List N) V R} (hj : j.Grows) {h : List N}
    {s : Thread (W × List N) V R × Machine (W × List N)} (hr : j.Reaches h s.1)
    (firing : Nat × Nat) : j.Continues h s.2 (Thread.step s firing) := by
  rcases Thread.step_cases s firing with hstep | hstep
  · rw [hstep]
    exact hr.continues s.2
  · obtain ⟨g, hlog, hreach⟩ := hr.fire hj hstep
    exact ⟨g, hlog, hreach⟩

/-- On every schedule, a job that only adds to the log is where it can have got to. -/
theorem continues_scheduled {R : Type} {j : Job (W × List N) V R} (hj : j.Grows)
    (m : Machine (W × List N)) (schedule : List (Nat × Nat)) :
    j.Continues [] m (j.scheduled m schedule) := by
  have hfold : ∀ s, j.Continues [] m s → j.Continues [] m (schedule.foldl Thread.step s) := by
    induction schedule with
    | nil => exact fun s hs => hs
    | cons firing schedule ih =>
      exact fun s hs => ih _ (hs.trans fun h hr => hr.step hj firing)
  exact hfold _ (enters j hj m)

mutual

/-- Notes are added to the log, and nothing else is done to it. -/
theorem Observes.grows {R : Type} {J : Job (W × List N) V R} {j : Job W V R}
    (h : J.Observes j) : J.Grows := by
  match h with
  | .done =>
    rw [Grows]
    trivial
  | @Observes.note _ _ _ _ n _ _ hnext =>
    rw [Grows]
    exact ⟨fun _ => ⟨[n], rfl⟩, fun w => (hnext w).grows⟩
  | .act hnext =>
    rw [Grows]
    exact ⟨fun w => ⟨[], (List.append_nil w.2).symm⟩, fun w => (hnext w).grows⟩
  | .nap hnext =>
    rw [Grows]
    exact fun now => (hnext now).grows
  | .join hmembers hnext =>
    rw [Grows]
    exact ⟨hmembers.growsAll, fun values => (hnext values).grows⟩

theorem ObservesAll.growsAll {Js : List (Job (W × List N) V V)} {js : List (Job W V V)}
    (h : ObservesAll Js js) : GrowsAll Js := by
  match h with
  | .nil =>
    rw [GrowsAll]
    trivial
  | .cons hJ hJs =>
    rw [GrowsAll]
    exact ⟨hJ.grows, hJs.growsAll⟩

end

/-! ## Taking logs apart -/

/-- The job can have logged the list, with the result if it has one. -/
def Has {R : Type} (j : Job (W × List N) V R) (h : List N) (result : Option (Except Error R)) :
    Prop :=
  ∃ t, j.Reaches h t ∧ t.result? = result

/-- The jobs can have logged the list among them, with the results at their places. -/
def HasAll (js : List (Job (W × List N) V V)) (h : List N)
    (results : List (Option (Except Error V))) : Prop :=
  ∃ ts, ReachesAll js h ts ∧ ts.map Thread.result? = results

/-- On every schedule, a job with notes differs from the job in the log only, and the log and the
result are such a pair. -/
theorem Observes.has_scheduled {R : Type} {J : Job (W × List N) V R} {j : Job W V R}
    (h : J.Observes j) (m : Machine W) (schedule : List (Nat × Nat)) :
    ∃ log, (J.scheduled (m.withLog []) schedule).2 = (j.scheduled m schedule).2.withLog log ∧
      (J.scheduled (m.withLog []) schedule).1.result? = (j.scheduled m schedule).1.result? ∧
      J.Has log (j.scheduled m schedule).1.result? := by
  obtain ⟨hthread, log, hmachine⟩ := h.scheduled m [] schedule
  obtain ⟨log', hlog, hreach⟩ := continues_scheduled h.grows (m.withLog []) schedule
  rw [hmachine] at hlog
  have heq : log = log' := hlog
  exact ⟨log, hmachine, hthread.result?_eq, _, heq ▸ hreach, hthread.result?_eq⟩

theorem has_pure {R : Type} {value : R} {h : List N} {result : Option (Except Error R)}
    (hh : (pure value : Job (W × List N) V R).Has h result) :
    h = [] ∧ result = some (.ok value) := by
  obtain ⟨t, hr, rfl⟩ := hh
  cases hr
  exact ⟨rfl, rfl⟩

/-- What a job with more to do has logged: the job is not over, or has failed, or it has its value
and what follows has logged the rest. -/
inductive HasInTurn {R S : Type} (j : Job (W × List N) V R) (f : R → Job (W × List N) V S) :
    List N → Option (Except Error S) → Prop where
  | waiting {h : List N} : j.Has h none → HasInTurn j f h none
  | failed {h : List N} {error : Error} :
      j.Has h (some (.error error)) → HasInTurn j f h (some (.error error))
  | next {value : R} {h h' : List N} {result : Option (Except Error S)} :
      j.Has h (some (.ok value)) → (f value).Has h' result → HasInTurn j f (h ++ h') result

/-- What comes before a job comes before the job with more to do. -/
theorem HasInTurn.behind {R S : Type} {j j' : Job (W × List N) V R}
    {f : R → Job (W × List N) V S} {g h : List N} {result : Option (Except Error S)}
    (hh : HasInTurn j f h result) (hj : ∀ h result, j.Has h result → j'.Has (g ++ h) result) :
    HasInTurn j' f (g ++ h) result := by
  cases hh with
  | waiting hr => exact .waiting (hj _ _ hr)
  | failed hr => exact .failed (hj _ _ hr)
  | next hr hf =>
    rw [← List.append_assoc]
    exact .next (hj _ _ hr) hf

theorem has_bind {R S : Type} {j : Job (W × List N) V R} {f : R → Job (W × List N) V S}
    {h : List N} {result : Option (Except Error S)} (hh : (j.bind f).Has h result) :
    HasInTurn j f h result := by
  match j with
  | done (.ok value) =>
    rw [bind_ok] at hh
    exact .next ⟨_, .done, rfl⟩ hh
  | done (.error error) =>
    rw [bind_error] at hh
    obtain ⟨t, hr, rfl⟩ := hh
    cases hr
    exact .failed ⟨_, .done, rfl⟩
  | act update next =>
    have ih := fun w h result (hw : ((next w).bind f).Has h result) => has_bind hw
    rw [bind] at hh
    obtain ⟨t, hr, rfl⟩ := hh
    cases hr with
    | act hg hnext =>
      refine (ih _ _ _ ⟨t, hnext, rfl⟩).behind ?_
      rintro h result ⟨t, hr, rfl⟩
      exact ⟨t, .act hg hr, rfl⟩
  | nap delay next =>
    have ih := fun now h result (hw : ((next now).bind f).Has h result) => has_bind hw
    rw [bind] at hh
    obtain ⟨t, hr, rfl⟩ := hh
    cases hr with
    | @waiting _ _ deadline ticket => exact .waiting ⟨.waiting deadline ticket next, .waiting, rfl⟩
    | awake hnext =>
      refine (ih _ _ _ ⟨t, hnext, rfl⟩).behind (g := []) ?_
      rintro h result ⟨t, hr, rfl⟩
      exact ⟨t, .awake hr, rfl⟩
  | join members next =>
    have ih := fun values h result (hw : ((next values).bind f).Has h result) => has_bind hw
    rw [bind] at hh
    obtain ⟨t, hr, rfl⟩ := hh
    cases hr with
    | @joining _ _ _ _ ts failure hts hf =>
      exact .waiting ⟨.joining ts failure next, .joining hts hf, rfl⟩
    | @failed _ _ _ _ _ _ error hts hdone ht hf =>
      exact .failed ⟨.done (.error error), .failed hts hdone ht hf, rfl⟩
    | joined hts hnext =>
      refine (ih _ _ _ ⟨t, hnext, rfl⟩).behind ?_
      rintro h result ⟨t, hr, rfl⟩
      exact ⟨t, .joined hts hr, rfl⟩

theorem has_map {R S : Type} {j : Job (W × List N) V R} {f : R → S} {h : List N}
    {result : Option (Except Error S)} (hh : (j.map f).Has h result) :
    ∃ result', j.Has h result' ∧ result = result'.map (Except.map f) := by
  cases has_bind hh with
  | waiting hr => exact ⟨_, hr, rfl⟩
  | failed hr => exact ⟨_, hr, rfl⟩
  | next hr hpure =>
    obtain ⟨rfl, rfl⟩ := has_pure hpure
    rw [List.append_nil]
    exact ⟨_, hr, rfl⟩

theorem has_map_some {R S : Type} {j : Job (W × List N) V R} {f : R → S} {h : List N}
    {r : Except Error S} (hh : (j.map f).Has h (some r)) : ∃ r', j.Has h (some r') := by
  obtain ⟨result, hr, hresult⟩ := has_map hh
  obtain ⟨r', rfl, -⟩ := Option.map_eq_some_iff.mp hresult.symm
  exact ⟨r', hr⟩

theorem has_map_ok {R S : Type} {j : Job (W × List N) V R} {f : R → S} {h : List N} {value : S}
    (hh : (j.map f).Has h (some (.ok value))) :
    ∃ value', j.Has h (some (.ok value')) ∧ f value' = value := by
  obtain ⟨result, hr, hresult⟩ := has_map hh
  match result with
  | some (.ok value') =>
    cases hresult
    exact ⟨value', hr, rfl⟩
  | some (.error _) | none => cases hresult

theorem has_note {R : Type} {n : N} {j : Job (W × List N) V R} {h : List N}
    {result : Option (Except Error R)} (hh : ((note n).bind fun _ => j).Has h result) :
    ∃ h', h = n :: h' ∧ j.Has h' result := by
  rw [note, update, bind] at hh
  obtain ⟨t, hr, rfl⟩ := hh
  cases hr with
  | @act _ _ _ w g h t hg hnext =>
    rw [pure_bind] at hnext
    obtain rfl := List.append_cancel_left hg
    exact ⟨h, rfl, t, hnext, rfl⟩

theorem has_together {js : List (Job (W × List N) V V)} {h : List N}
    {result : Option (Except Error (List V))} (hh : (together js).Has h result) :
    ∃ results, HasAll js h results ∧
      (result = none ∨
        (∃ error, result = some (.error error) ∧ none ∉ results ∧
          ∃ error', some (.error error') ∈ results) ∨
        ∃ values, result = some (.ok values) ∧
          results = values.map fun value => some (.ok value)) := by
  obtain ⟨t, hr, rfl⟩ := hh
  cases hr with
  | joining hts _ => exact ⟨_, ⟨_, hts, rfl⟩, .inl rfl⟩
  | @failed _ _ _ _ _ t error hts hdone ht hf =>
    refine ⟨_, ⟨_, hts, rfl⟩, .inr (.inl ⟨error, rfl, ?_, ?_⟩)⟩
    · intro hnone
      obtain ⟨t', ht', hresult⟩ := List.mem_map.mp hnone
      have hsome := List.all_eq_true.mp hdone t' ht'
      rw [hresult] at hsome
      cases hsome
    · match t with
      | .done (.error error') => exact ⟨error', List.mem_map_of_mem ht⟩
      | .done (.ok _) | .waiting .. | .joining .. => exact absurd rfl hf
  | @joined _ _ _ h h' values _ hts hnext =>
    cases hnext
    rw [List.append_nil]
    refine ⟨_, ⟨_, hts, rfl⟩, .inr (.inr ⟨values, rfl, ?_⟩)⟩
    rw [List.map_map]
    rfl

theorem hasAll_cons {j : Job (W × List N) V V} {js : List (Job (W × List N) V V)} {h : List N}
    {results : List (Option (Except Error V))} (hh : HasAll (j :: js) h results) :
    ∃ h₁ h₂ result rest, Shuffle h₁ h₂ h ∧ j.Has h₁ result ∧ HasAll js h₂ rest ∧
      results = result :: rest := by
  obtain ⟨ts, hr, rfl⟩ := hh
  cases hr with
  | @cons _ _ h₁ h₂ _ t ts hj hjs hs =>
    exact ⟨h₁, h₂, _, _, hs, ⟨t, hj, rfl⟩, ⟨ts, hjs, rfl⟩, rfl⟩

mutual

/-- A job that does not touch the log logs nothing. -/
theorem Reaches.eq_nil_of_lift {R : Type} {j : Job W V R} {h : List N}
    {t : Thread (W × List N) V R} (hr : (j.lift N).Reaches h t) : h = [] := by
  match j with
  | .done _ =>
    rw [lift] at hr
    cases hr
    rfl
  | .act update next =>
    rw [lift] at hr
    cases hr with
    | act hg hnext =>
      rw [List.self_eq_append_right.mp hg, hnext.eq_nil_of_lift]
      rfl
  | .nap delay next =>
    rw [lift] at hr
    cases hr with
    | waiting => rfl
    | awake hnext => exact hnext.eq_nil_of_lift
  | .join members next =>
    rw [lift] at hr
    cases hr with
    | joining hts _ => exact hts.eq_nil_of_lift
    | failed hts _ _ _ => exact hts.eq_nil_of_lift
    | joined hts hnext =>
      rw [hts.eq_nil_of_lift, hnext.eq_nil_of_lift]
      rfl
termination_by structural j

theorem ReachesAll.eq_nil_of_lift {js : List (Job W V V)} {h : List N}
    {ts : List (Thread (W × List N) V V)} (hr : ReachesAll (liftAll N js) h ts) : h = [] := by
  match js with
  | [] =>
    cases hr
    rfl
  | j :: rest =>
    cases hr with
    | cons hj hrest hs =>
      rw [hj.eq_nil_of_lift, hrest.eq_nil_of_lift] at hs
      cases hs
      rfl
termination_by structural js

end

theorem has_lift {R : Type} {j : Job W V R} {h : List N} {result : Option (Except Error R)}
    (hh : (j.lift N).Has h result) : h = [] := by
  obtain ⟨t, hr, -⟩ := hh
  exact hr.eq_nil_of_lift

end Job

end Parlance
