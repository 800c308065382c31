import Parlance.Proofs.Running.Composition
import Parlance.Proofs.Running.Observed

/-
  Results that do not depend on what happens around a job. `j.EndsIn P` says that the result of `j`
  satisfies `P` wherever it is launched, in whatever order its naps end, and whatever others have
  done to the machine each time it goes on. Such jobs can be put together, since everything that
  happens around one of them is left open: in a chain (`Job.EndsIn.bind`), and in a group, whose
  members run by themselves.

  Which failure a group reports depends on the order in which its members end, but whether it fails
  does not. `j.EndsAs x` says that `j` ends with the value of `x`, or with some failure if `x` is
  one; it is kept by chains (`Job.EndsAs.bind`) and groups (`Job.EndsAs.together`).
-/

namespace Parlance

variable {W V R α β : Type}

/-- However the thread goes on, its result satisfies `P`. -/
def Thread.EndsIn (t : Thread W V R) (P : Except Error R → Prop) : Prop :=
  ∀ (schedule : List (Nat × Machine W)) (r : Except Error R),
    (t.play schedule).result? = some r → P r

/-- However what was launched is polled and goes on, its result satisfies `P`. -/
def Launch.EndsIn (l : Launch W V R) (P : Except Error R → Prop) : Prop :=
  ∀ m, (l.poll m).1.EndsIn P

/-- However the job is launched and goes on, its result satisfies `P`. -/
def Job.EndsIn (j : Job W V R) (P : Except Error R → Prop) : Prop :=
  ∀ w, (j.launch w).1.EndsIn P

/-! ## Threads -/

namespace Thread

variable {P : Except Error R → Prop}

theorem endsIn_done {r : Except Error R} (h : P r) : (done r : Thread W V R).EndsIn P := by
  intro schedule r' hr
  rw [play_done] at hr
  cases hr
  exact h

theorem EndsIn.result {t : Thread W V R} (h : t.EndsIn P) {r : Except Error R}
    (hr : t.result? = some r) : P r :=
  h [] r hr

theorem EndsIn.after {t : Thread W V R} (h : t.EndsIn P) (firing : Nat × Machine W) :
    (t.after firing).EndsIn P := by
  intro schedule r hr
  exact h (firing :: schedule) r hr

theorem EndsIn.step {s : Thread W V R × Machine W} (h : s.1.EndsIn P) (firing : Nat × Nat) :
    (Thread.step s firing).1.EndsIn P := by
  rcases step_cases s firing with e | e
  · rwa [e]
  · have hafter := h.after (firing.1, { s.2 with now := firing.2 })
    unfold Thread.after at hafter
    rwa [e] at hafter

theorem EndsIn.foldl_step (schedule : List (Nat × Nat)) {s : Thread W V R × Machine W}
    (h : s.1.EndsIn P) : (schedule.foldl Thread.step s).1.EndsIn P := by
  induction schedule generalizing s with
  | nil => exact h
  | cons firing schedule ih => exact ih (h.step firing)

/-- What waits goes on as the job does that it waits for. -/
theorem endsIn_waiting {next : Nat → Job W V R} (h : ∀ m, ((next m.now).enter m).1.EndsIn P)
    (deadline ticket : Nat) : (waiting deadline ticket next : Thread W V R).EndsIn P := by
  intro schedule r hr
  induction schedule with
  | nil => cases hr
  | cons firing schedule ih =>
    rw [play, List.foldl_cons, after, fire] at hr
    by_cases ht : ticket = firing.1
    · rw [if_pos ht] at hr
      exact h firing.2 schedule r hr
    · rw [if_neg ht] at hr
      exact ih hr

end Thread

theorem Job.EndsIn.enter {j : Job W V R} {P : Except Error R → Prop} (h : j.EndsIn P)
    (m : Machine W) : (j.enter m).1.EndsIn P :=
  h m.world _

/-! ## Chains -/

section

variable {P : Except Error α → Prop} {Q : Except Error β → Prop} {f : α → Job W V β}

/-- A thread with more to do goes on as the thread does, and then as what follows. -/
theorem Thread.EndsIn.andThen {t : Thread W V α} (ht : t.EndsIn P)
    (hok : ∀ value, P (.ok value) → (f value).EndsIn Q)
    (herror : ∀ error, P (.error error) → Q (.error error)) (m : Machine W) :
    (t.andThen f m).1.EndsIn Q := by
  intro schedule
  induction schedule generalizing t m with
  | nil =>
    intro r hr
    match t with
    | done (.ok value) => exact ((hok value (ht.result rfl)).enter m).result hr
    | done (.error error) =>
      cases hr
      exact herror error (ht.result rfl)
    | waiting .. => cases hr
    | joining .. => cases hr
  | cons firing schedule ih =>
    cases hresult : t.result? with
    | some result =>
      obtain rfl := Thread.eq_done_iff.mpr hresult
      cases result with
      | ok value => exact (hok value (ht.result rfl)).enter m (firing :: schedule)
      | error error =>
        exact Thread.endsIn_done (herror error (ht.result rfl)) (firing :: schedule)
    | none =>
      -- the firing ends a nap of `t` on both sides or on neither
      have hfire := Thread.fire_andThen f t m hresult firing.1 firing.2
      have hafter := ht.after firing
      intro r hr
      rw [Thread.play, List.foldl_cons, Thread.after, hfire] at hr
      unfold Thread.after at hafter
      cases hf : t.fire firing.1 firing.2 with
      | none =>
        rw [hf] at hr
        exact ih ht m r hr
      | some s =>
        rw [hf] at hr hafter
        exact ih hafter s.2 r hr

namespace Job

theorem EndsIn.bind {j : Job W V α} (hj : j.EndsIn P)
    (hok : ∀ value, P (.ok value) → (f value).EndsIn Q)
    (herror : ∀ error, P (.error error) → Q (.error error)) : (j.bind f).EndsIn Q := by
  intro w m
  rw [launch_bind]
  have hl := hj w
  generalize j.launch w = launched at hl ⊢
  obtain ⟨l, w'⟩ := launched
  match l with
  | .settled (.ok value) => exact hok value ((hl m).result rfl) w' m
  | .settled (.error error) => exact Thread.endsIn_done (herror error ((hl m).result rfl))
  | .suspended poll => exact (hl m).andThen hok herror _

theorem endsIn_done {r : Except Error β} (h : Q r) : (done r : Job W V β).EndsIn Q := by
  intro w m
  rw [launch]
  exact Thread.endsIn_done h

theorem endsIn_nap {delay : Nat} {next : Nat → Job W V β} (h : ∀ now, (next now).EndsIn Q) :
    (nap delay next).EndsIn Q := by
  intro w m
  rw [launch_nap]
  dsimp only [Launch.poll]
  split
  · exact (h m.now).enter m
  · exact Thread.endsIn_waiting (fun m' => (h m'.now).enter m') _ _

/-- The result of a schedule that is over is one of those that the job can end in. -/
theorem EndsIn.scheduled {j : Job W V α} (hj : j.EndsIn P) {m : Machine W}
    {schedule : List (Nat × Nat)} {r : Except Error α}
    (hr : (j.scheduled m schedule).1.result? = some r) : P r :=
  ((hj.enter m).foldl_step schedule).result hr

theorem EndsIn.run {j : Job W V α} (hj : j.EndsIn P) (m : Machine W) : P (j.run m).1 := by
  obtain ⟨schedule, h⟩ := j.exists_scheduled_eq_run m
  have hr : (j.scheduled m schedule).1.result? = some (j.run m).1 := by
    rw [h]
    rfl
  exact hj.scheduled hr

end Job

end

/-! ## With a value, or with some failure -/

theorem toOption_eq_some_iff {x : Except Error α} {value : α} :
    x.toOption = some value ↔ x = .ok value := by
  cases x <;> simp [Except.toOption]

namespace Job

/-- On every schedule the job ends with the value, or with some failure if there is none. -/
def EndsAs (j : Job W V α) (x : Except Error α) : Prop := j.EndsIn (·.toOption = x.toOption)

theorem endsAs_done (x : Except Error α) : (done x : Job W V α).EndsAs x := endsIn_done rfl

theorem EndsIn.endsAs {j : Job W V α} {x : Except Error α} (h : j.EndsIn (· = x)) :
    j.EndsAs x := by
  intro w m schedule r hr
  exact congrArg Except.toOption (h w m schedule r hr)

theorem EndsAs.bind {j : Job W V α} {f : α → Job W V β} {x : Except Error α}
    {g : α → Except Error β} (hj : j.EndsAs x) (hf : ∀ value, (f value).EndsAs (g value)) :
    (j.bind f).EndsAs (x.bind g) := by
  refine EndsIn.bind hj ?_ ?_
  · intro value hvalue
    obtain rfl := toOption_eq_some_iff.mp hvalue.symm
    exact hf value
  · intro error herror
    cases x with
    | ok value => cases herror
    | error error' => rfl

end Job

/-! ## Groups -/

/-- Each member of a group ends as its job does by itself. -/
theorem Group.Follows.outcome {jobs : List (Job W V V)} {xs : List (Except Error V)}
    (h : List.Forall₂ Job.EndsAs jobs xs) {w : W} {schedule : List (Nat × Machine W)}
    {g : Group W V} (hg : g.Follows (Job.starts jobs w) schedule) {i : Nat} {r : Except Error V}
    (hr : g.members[i]? = some (.done r)) : (xs.map Except.toOption)[i]? = some r.toOption := by
  have hi : i < jobs.length := by
    have hlength : (Job.starts jobs w).length = jobs.length := List.length_mapIdx
    rw [← hlength, ← hg.length_eq]
    exact (List.getElem?_eq_some_iff.mp hr).1
  have hstart : (Job.starts jobs w)[i]? =
      some (jobs[i].launch (Job.worldAfter (jobs.take i) w)).1 := by
    unfold Job.starts
    rw [List.getElem?_mapIdx, List.getElem?_eq_getElem hi]
    rfl
  obtain ⟨m, firings, -, hmember⟩ := hg.own hstart
  rw [hmember] at hr
  have hix : i < xs.length := h.length_eq ▸ hi
  have hends : jobs[i].EndsAs xs[i] := h.get hi hix
  rw [List.getElem?_map, List.getElem?_eq_getElem hix]
  exact congrArg some (hends _ m firings r (Thread.eq_done_iff.mp (Option.some.inj hr))).symm

/-- If all members of a group have ended, each of them has ended as its job does by itself. -/
theorem Group.Follows.outcomes {jobs : List (Job W V V)} {xs : List (Except Error V)}
    (h : List.Forall₂ Job.EndsAs jobs xs) {w : W} {schedule : List (Nat × Machine W)}
    {g : Group W V} (hg : g.Follows (Job.starts jobs w) schedule)
    (hover : ∀ t ∈ g.members, t.result? ≠ none) :
    g.members.map (fun t => t.result?.bind Except.toOption) = xs.map Except.toOption := by
  have hlength : g.members.length = (xs.map Except.toOption).length := by
    rw [hg.length_eq, List.length_map, ← h.length_eq]
    exact List.length_mapIdx
  apply List.ext_getElem?
  intro i
  by_cases hi : i < g.members.length
  · have hmember := List.getElem?_eq_getElem hi
    obtain ⟨r, hr⟩ := Option.ne_none_iff_exists'.mp (hover _ (List.getElem_mem hi))
    rw [Thread.eq_done_iff.mpr hr] at hmember
    rw [hg.outcome h hmember, List.getElem?_map, hmember]
    rfl
  · rw [List.getElem?_eq_none (by rw [List.length_map]; omega), List.getElem?_eq_none (by omega)]

/-- A group has values if and only if every one of its jobs has, and they are theirs. -/
theorem Job.EndsAs.together {jobs : List (Job W V V)} {xs : List (Except Error V)}
    (h : List.Forall₂ EndsAs jobs xs) : (together jobs).EndsAs (collect xs) := by
  intro w m schedule r hr
  have hg := (Group.follows_start (starts jobs w) m).play schedule
  rw [List.nil_append] at hg
  rw [Group.play_together] at hr
  generalize (Group.start (starts jobs w) m).play schedule = g at hg hr
  have hover : ∀ t ∈ g.members, t.result? ≠ none := by
    intro t ht hwaits
    rw [Group.result?_thread_eq_none.mpr ⟨t, ht, hwaits⟩] at hr
    cases hr
  have hvalue : ∀ (t : Thread W V V) (value : V),
      t.result? = some (.ok value) ↔ t.result?.bind Except.toOption = some value := by
    intro t value
    cases t.result? with
    | none => simp
    | some r => simp [toOption_eq_some_iff]
  have hok : ∀ values, r = .ok values ↔ xs = values.map .ok := by
    intro values
    calc r = .ok values
        ↔ (g.thread (starts jobs w)).result? = some (.ok values) := by
          rw [hr, Option.some.injEq]
      _ ↔ g.members.map Thread.result? = values.map fun value => some (.ok value) :=
          hg.result?_thread_eq_ok
      _ ↔ g.members.map (fun t => t.result?.bind Except.toOption) = values.map some := by
          simp only [← List.forall₂_eq_eq_eq, List.forall₂_map_left_iff,
            List.forall₂_map_right_iff, hvalue]
      _ ↔ xs.map Except.toOption = values.map some := by
          rw [hg.outcomes h hover]
      _ ↔ xs = values.map .ok := by
          rw [← List.forall₂_eq_eq_eq, ← List.forall₂_eq_eq_eq]
          simp only [List.forall₂_map_left_iff, List.forall₂_map_right_iff, toOption_eq_some_iff]
  apply Option.ext
  intro values
  rw [toOption_eq_some_iff, toOption_eq_some_iff, hok, collect_eq_ok_iff]

end Parlance
