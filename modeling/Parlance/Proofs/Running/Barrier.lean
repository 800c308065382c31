import Parlance.Proofs.Running.Group

/-
  Groups as barriers. The thread of a group is at every moment of every schedule a function of its
  members and of their endings (`Group.play_together`): it waits as long as one of them does, and
  then ends with the first failure or with all the values. `together_waits_for_all` says so of
  `Job.together`.
-/

namespace Parlance

variable {W V : Type}

namespace Thread

/-- The thread of a group whose members are as given, and which has seen the failure, if any. -/
def gathered (members : List (Thread W V V)) (failure : Option Error) : Thread W V (List V) :=
  if allDone members then
    match failure with
    | some error => done (.error error)
    | none => done (.ok (values members))
  else joining members failure Job.pure

theorem conclude_pure (members : List (Thread W V V)) (failure : Option Error) (m : Machine W) :
    (conclude members failure Job.pure (fun values m => (Job.pure values).enter m) m).1 =
      gathered members failure := by
  unfold conclude gathered
  split
  · split
    · rfl
    · simp only [Job.enter, Job.pure, Job.launch, Launch.poll]
  · rfl

end Thread

namespace Launch

theorem failure?_eq (started : List (Launch W V V)) :
    failure? started = started.findSome? fun l => l.result?.bind failureOf := by
  induction started with
  | nil => rfl
  | cons l started ih =>
    match l with
    | settled (.error error) => rfl
    | settled (.ok value) => exact ih
    | suspended poll => exact ih

/-- Polling notes the first failure among those that end at once, unless one was noted before. -/
theorem pollAll_failure (started : List (Launch W V V)) (k : Nat) (failure : Option Error)
    (m : Machine W) (h : failure = none → failure? started = none) :
    (pollAll started failure m).2.1 =
      failure.or ((endings k (started.map result?)
        ((pollAll started failure m).1.map Thread.result?)).findSome?
          fun ending => failureOf ending.2) := by
  induction started generalizing k failure m with
  | nil => cases failure <;> rfl
  | cons l started ih =>
    match l with
    | settled (.ok value) =>
      have hstep := ih (k + 1) (failure.or none) m (fun hnone => h (by simpa using hnone))
      rw [Option.or_none] at hstep
      rw [pollAll]
      simp only [poll, Thread.failure?, Option.or_none]
      exact hstep
    | settled (.error error) =>
      -- the failure of a member that had settled was noted before anything was polled
      cases failure with
      | none => cases h rfl
      | some noted => exact ih (k + 1) (some noted) m (by simp)
    | suspended start =>
      have hstep := ih (k + 1) (failure.or (start m).1.failure?) (start m).2 (fun hnone =>
        h (Option.or_eq_none_iff.mp hnone).1)
      rw [pollAll]
      dsimp only [poll]
      rw [hstep, Option.or_assoc]
      refine congrArg failure.or ?_
      rw [Thread.failure?_eq]
      rw [List.map_cons, List.map_cons]
      cases (start m).1.result? with
      | none => rfl
      | some r => cases r <;> rfl

end Launch

/-! ## The thread of a group -/

theorem Launch.values_eq (started : List (Launch W V V)) :
    values started = (started.map result?).filterMap (·.bind Except.toOption) := by
  induction started with
  | nil => rfl
  | cons l started ih =>
    match l with
    | settled (.ok value) => exact congrArg (value :: ·) ih
    | settled (.error error) => exact ih
    | suspended poll => exact ih

theorem Thread.values_eq (ts : List (Thread W V V)) :
    values ts = (ts.map result?).filterMap (·.bind Except.toOption) := by
  induction ts with
  | nil => rfl
  | cons t ts ih =>
    match t with
    | done (.ok value) => exact congrArg (value :: ·) ih
    | done (.error error) => exact ih
    | waiting .. => exact ih
    | joining .. => exact ih

/-- Polling does nothing to what has settled. -/
theorem Launch.pollAll_of_ready {started : List (Launch W V V)} (h : started.all (·.isReady) = true)
    (failure : Option Error) (m : Machine W) :
    (pollAll started failure m).1.map Thread.result? = started.map result? := by
  induction started generalizing failure with
  | nil => rfl
  | cons l started ih =>
    rw [List.all_cons, Bool.and_eq_true] at h
    cases l with
    | settled r => exact congrArg (some r :: ·) (ih h.2 _)
    | suspended poll => cases h.1

namespace Group

/-- The thread of a group, from the members and their endings. -/
def thread (started : List (Launch W V V)) (g : Group W V) : Thread W V (List V) :=
  Thread.gathered g.members (g.failure? started)

/-- A group that has been polled is a thread. -/
theorem poll_together (jobs : List (Job W V V)) (w : W) (m : Machine W) :
    (((Job.together jobs).launch w).1.poll m).1 =
      (start (Job.starts jobs w) m).thread (Job.starts jobs w) := by
  rw [Job.together, Job.launch, Job.launchAll_eq]
  generalize Job.starts jobs w = started
  have hsync := Launch.failure?_eq started
  dsimp only
  split
  · next hready =>
    have hresults := Launch.pollAll_of_ready hready none m
    have hstart : start started m = ⟨(Launch.pollAll started none m).1, []⟩ := by
      rw [start, hresults, endings_self]
    have hdone : Thread.allDone (Launch.pollAll started none m).1 = true := by
      have hsome : ((Launch.pollAll started none m).1.map Thread.result?).all Option.isSome := by
        rw [hresults, List.all_map]
        exact Launch.isReady_eq (W := W) (V := V) (R := V) ▸ hready
      rwa [List.all_map] at hsome
    have hvalues : Launch.values started = Thread.values (Launch.pollAll started none m).1 := by
      rw [Launch.values_eq, Thread.values_eq, hresults]
    unfold thread Thread.gathered failure?
    rw [hstart, if_pos hdone, ← hsync, List.findSome?_nil, Option.or_none]
    cases Launch.failure? started with
    | some error => rfl
    | none =>
      dsimp only
      rw [Job.pure, Job.launch, hvalues]
      rfl
  · have hfailure := Launch.pollAll_failure started 0 (Launch.failure? started) m id
    rw [Launch.pollAll_members started (Launch.failure? started) none] at hfailure
    refine (Thread.conclude_pure _ _ _).trans ?_
    rw [Launch.pollAll_members started (Launch.failure? started) none, hfailure, hsync]
    rfl

/-- Firing a ticket in the thread of a group is firing it in the group. -/
theorem after_thread (started : List (Launch W V V)) (g : Group W V) (firing : Nat × Machine W) :
    (g.thread started).after firing = (g.fire firing).thread started := by
  unfold thread
  by_cases hdone : Thread.allDone g.members = true
  · have hsame : g.fire firing = g := by
      unfold fire
      rw [Thread.fireAny_of_allDone hdone]
    rw [hsame]
    unfold Thread.gathered
    rw [if_pos hdone]
    cases g.failure? started <;> rfl
  · have hjoin : Thread.gathered g.members (g.failure? started) =
        .joining g.members (g.failure? started) Job.pure := if_neg hdone
    rcases g.fire_cases firing with ⟨hf, e⟩ | ⟨i, t, m', ht, hw, hf, e⟩
    · rw [e, hjoin, Thread.after, Thread.fire, hf]
      rfl
    · rw [e, hjoin, Thread.after, Thread.fire, hf]
      refine (Thread.conclude_pure _ _ _).trans (congrArg (Thread.gathered _) ?_)
      rw [failure?, failure?, advance, List.findSome?_append, Option.or_assoc,
        Thread.failure?_eq]
      cases (t.after firing).result? with
      | none => rfl
      | some r => cases r <;> rfl

theorem play_together (jobs : List (Job W V V)) (w : W) (m : Machine W)
    (schedule : List (Nat × Machine W)) :
    (((Job.together jobs).launch w).1.poll m).1.play schedule =
      ((start (Job.starts jobs w) m).play schedule).thread (Job.starts jobs w) := by
  rw [poll_together]
  generalize start (Job.starts jobs w) m = g
  induction schedule generalizing g with
  | nil => rfl
  | cons firing schedule ih =>
    rw [Thread.play, List.foldl_cons, after_thread]
    exact ih _

/-- If all members have ended, there is no failure exactly if all of them have ended well. -/
theorem Follows.failure?_eq_none_iff {started : List (Launch W V V)}
    {schedule : List (Nat × Machine W)} {g : Group W V} (h : g.Follows started schedule)
    (hdone : Thread.allDone g.members = true) :
    g.failure? started = none ↔ ∀ t ∈ g.members, ∃ value, t = .done (.ok value) := by
  rw [failure?, Option.or_eq_none_iff, List.findSome?_eq_none_iff, List.findSome?_eq_none_iff]
  constructor
  · rintro ⟨hsync, hlate⟩ t ht
    obtain ⟨i, hi⟩ := List.getElem?_of_mem ht
    obtain ⟨r, hr⟩ := Option.isSome_iff_exists.mp (List.all_eq_true.mp hdone t ht)
    obtain rfl := Thread.eq_done_iff.mpr hr
    have hok : failureOf r = none := by
      rcases h.cases_started hi with ⟨r', hl, hr'⟩ | hsusp
      · cases hr'
        exact hsync _ (List.mem_of_getElem? hl)
      · exact hlate (i, r) ((h.ended_iff i r).mpr ⟨hsusp, hi⟩)
    cases r with
    | ok value => exact ⟨value, rfl⟩
    | error error => cases hok
  · intro hall
    constructor
    · intro l hl
      obtain ⟨i, hi⟩ := List.getElem?_of_mem hl
      cases l with
      | settled r =>
        obtain ⟨value, hv⟩ := hall _ (List.mem_of_getElem? (h.settled hi))
        cases hv
        rfl
      | suspended poll => rfl
    · rintro ⟨i, r⟩ hr
      obtain ⟨value, hv⟩ := hall _ (List.mem_of_getElem? ((h.ended_iff i r).mp hr).2)
      cases hv
      rfl

end Group

namespace Thread

theorem allDone_eq_false_iff {ts : List (Thread W V V)} :
    allDone ts = false ↔ ∃ t ∈ ts, t.result? = none := by
  simp [allDone]

theorem results_of_ok {ts : List (Thread W V V)} (h : ∀ t ∈ ts, ∃ value, t = done (.ok value)) :
    ts.map result? = (values ts).map fun value => some (.ok value) := by
  induction ts with
  | nil => rfl
  | cons t ts ih =>
    obtain ⟨value, rfl⟩ := h t List.mem_cons_self
    exact congrArg (some (.ok value) :: ·) (ih fun t ht => h t (List.mem_cons_of_mem _ ht))

theorem ok_of_results {ts : List (Thread W V V)} {vs : List V}
    (h : ts.map result? = vs.map fun value => some (.ok value)) :
    (∀ t ∈ ts, ∃ value, t = done (.ok value)) ∧ values ts = vs := by
  constructor
  · intro t ht
    have hmem : t.result? ∈ ts.map result? := List.mem_map_of_mem ht
    rw [h] at hmem
    obtain ⟨value, -, hv⟩ := List.mem_map.mp hmem
    exact ⟨value, eq_done_iff.mpr hv.symm⟩
  · rw [values_eq, h, List.filterMap_map]
    exact List.filterMap_some

/-- How the thread of a group ends, if it does. -/
theorem result?_gathered (members : List (Thread W V V)) (failure : Option Error) :
    (gathered members failure).result? =
      if allDone members then
        some (match failure with
          | some error => .error error
          | none => .ok (values members))
      else none := by
  unfold gathered
  split
  · cases failure <;> rfl
  · rfl

end Thread

namespace Group

section

variable {started : List (Launch W V V)} {schedule : List (Nat × Machine W)} {g : Group W V}

/-- The group waits for all members. -/
theorem result?_thread_eq_none :
    (g.thread started).result? = none ↔ ∃ member ∈ g.members, member.result? = none := by
  rw [thread, Thread.result?_gathered, ← Thread.allDone_eq_false_iff]
  cases Thread.allDone g.members <;> simp

/-- The group has values exactly if all members have, and they are theirs. -/
theorem Follows.result?_thread_eq_ok (h : g.Follows started schedule) {values : List V} :
    (g.thread started).result? = some (.ok values) ↔
      g.members.map Thread.result? = values.map fun value => some (.ok value) := by
  rw [thread, Thread.result?_gathered]
  constructor
  · intro hr
    split at hr
    · next hdone =>
      cases hf : g.failure? started with
      | some error =>
        rw [hf] at hr
        cases hr
      | none =>
        rw [hf] at hr
        cases hr
        exact Thread.results_of_ok ((h.failure?_eq_none_iff hdone).mp hf)
    · cases hr
  · intro hr
    obtain ⟨hall, hvalues⟩ := Thread.ok_of_results hr
    have hdone : Thread.allDone g.members = true := by
      refine List.all_eq_true.mpr fun t ht => ?_
      obtain ⟨value, rfl⟩ := hall t ht
      rfl
    rw [if_pos hdone, (h.failure?_eq_none_iff hdone).mpr hall, hvalues]

/-- The group has failed exactly if all members have ended, one of them with a failure. -/
theorem result?_thread_eq_error {error : Error} :
    (g.thread started).result? = some (.error error) ↔
      (¬ ∃ member ∈ g.members, member.result? = none) ∧ g.failure? started = some error := by
  rw [thread, Thread.result?_gathered, ← Thread.allDone_eq_false_iff]
  cases Thread.allDone g.members with
  | false => simp
  | true => cases g.failure? started <;> simp

end

end Group

/-- Launching a group launches all of its jobs in order, and it waits if one of them does. -/
theorem Job.launch_together (jobs : List (Job W V V)) (w : W) :
    ((together jobs).launch w).2 = worldAfter jobs w ∧
      ((together jobs).launch w).1.isReady = (starts jobs w).all (·.isReady) := by
  rw [together, launch, launchAll_eq]
  dsimp only
  split
  · next hready =>
    rw [hready]
    split
    · exact ⟨rfl, rfl⟩
    · rw [pure, launch]
      exact ⟨rfl, rfl⟩
  · next hready =>
    rw [Bool.not_eq_true] at hready
    exact ⟨rfl, hready.symm⟩

/-- A group is a barrier that reports the first failure. Its jobs are launched in order, each of
them once and whatever becomes of the others, and it waits if one of them does. From then on let
tickets be fired in any order. At every moment the members are what the jobs have become, each by
itself; the group has a result only if all of them have; it has values only if all of them have,
which are then theirs in order; and it has failed only if all of them have ended, with the failure
of the job of least index that failed when it was launched, or else with the first failure in the
order in which the others have ended. -/
theorem together_waits_for_all (jobs : List (Job W V V)) (w : W) :
    ((Job.together jobs).launch w).2 = Job.worldAfter jobs w ∧
    ((Job.together jobs).launch w).1.isReady = (Job.starts jobs w).all (·.isReady) ∧
    ∀ (m : Machine W) (schedule : List (Nat × Machine W)),
      let t := (((Job.together jobs).launch w).1.poll m).1.play schedule
      let g := (Group.start (Job.starts jobs w) m).play schedule
      g.Follows (Job.starts jobs w) schedule ∧
      (t.result? = none ↔ ∃ member ∈ g.members, member.result? = none) ∧
      (∀ values, t.result? = some (.ok values) ↔
        g.members.map Thread.result? = values.map fun value => some (.ok value)) ∧
      ∀ error, t.result? = some (.error error) ↔
        (¬ ∃ member ∈ g.members, member.result? = none) ∧
          g.failure? (Job.starts jobs w) = some error := by
  obtain ⟨hworld, hready⟩ := Job.launch_together jobs w
  refine ⟨hworld, hready, fun m schedule => ?_⟩
  have hfollows := (Group.follows_start (Job.starts jobs w) m).play schedule
  rw [List.nil_append] at hfollows
  dsimp only
  rw [Group.play_together]
  exact ⟨hfollows, Group.result?_thread_eq_none, fun _ => hfollows.result?_thread_eq_ok,
    fun _ => Group.result?_thread_eq_error⟩

end Parlance
