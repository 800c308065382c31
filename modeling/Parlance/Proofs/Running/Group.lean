import Mathlib.Data.List.Nodup
import Parlance.Proofs.Running.Chain

/-
  The members of a group. Beside the thread of a group we follow its members one by one, as a
  `Group`: what is left of each, and which of those that were suspended have ended, in the order
  in which they did. A schedule fires tickets in any order, each on any machine, so that whatever
  else happens in between is covered.

  A firing changes at most one member (`Group.fire_cases`). Hence at every moment of every
  schedule each member is what was launched at its place and has run by itself, and each ending is
  noted once (`Group.Follows.play`).
-/

namespace Parlance

variable {W V : Type}

/-! ## Starting -/

/-- The failure of a result. -/
def failureOf {α : Type} : Except Error α → Option Error
  | .ok _ => none
  | .error error => some error

/-- The result of what has settled. -/
def Launch.result? {R : Type} : Launch W V R → Option (Except Error R)
  | settled result => some result
  | suspended _ => none

theorem Launch.isReady_eq {R : Type} :
    (isReady : Launch W V R → Bool) = Option.isSome ∘ result? := by
  funext l
  cases l <;> rfl

namespace Job

/-- The world after jobs have been launched one after the other. -/
def worldAfter (jobs : List (Job W V V)) (w : W) : W :=
  jobs.foldl (fun w j => (j.launch w).2) w

/-- Each job, launched in the world that the jobs before it have left. -/
def starts (jobs : List (Job W V V)) (w : W) : List (Launch W V V) :=
  jobs.mapIdx fun i j => (j.launch (worldAfter (jobs.take i) w)).1

theorem launchAll_eq (jobs : List (Job W V V)) (w : W) :
    launchAll jobs w = (starts jobs w, worldAfter jobs w) := by
  induction jobs generalizing w with
  | nil => rfl
  | cons j jobs ih =>
    rw [launchAll]
    simp only [ih]
    rw [starts, starts, List.mapIdx_cons]
    rfl

end Job

/-! ## Endings -/

/-- What has ended between two looks at a list of results: the index of each, counted from `k`, and
its result. -/
def endings {α : Type} (k : Nat) : List (Option α) → List (Option α) → List (Nat × α)
  | none :: before, some r :: after => (k, r) :: endings (k + 1) before after
  | _ :: before, _ :: after => endings (k + 1) before after
  | _, _ => []

section

variable {α : Type}

theorem endings_self (k : Nat) (results : List (Option α)) : endings k results results = [] := by
  induction results generalizing k with
  | nil => rfl
  | cons r results ih => cases r <;> exact ih (k + 1)

theorem mem_endings {k i : Nat} {before after : List (Option α)} {r : α} :
    (i, r) ∈ endings k before after ↔
      ∃ j, i = k + j ∧ before[j]? = some none ∧ after[j]? = some (some r) := by
  fun_induction endings k before after with
  | case1 k before s after ih =>
    rw [List.mem_cons, ih]
    constructor
    · rintro (h | ⟨j, rfl, hb, ha⟩)
      · cases h
        exact ⟨0, rfl, rfl, rfl⟩
      · exact ⟨j + 1, by omega, hb, ha⟩
    · rintro ⟨j, rfl, hb, ha⟩
      cases j with
      | zero =>
        cases ha
        exact .inl rfl
      | succ j => exact .inr ⟨j, by omega, hb, ha⟩
  | case2 k b before a after hne ih =>
    rw [ih]
    constructor
    · rintro ⟨j, rfl, hb, ha⟩
      exact ⟨j + 1, by omega, hb, ha⟩
    · rintro ⟨j, rfl, hb, ha⟩
      cases j with
      | zero =>
        cases hb
        cases ha
        exact (hne r rfl rfl).elim
      | succ j => exact ⟨j, by omega, hb, ha⟩
  | case3 before k after _ hne =>
    constructor
    · intro h
      cases h
    · rintro ⟨j, -, hb, ha⟩
      match before, after with
      | [], _ => cases hb
      | _ :: _, [] => cases ha
      | b :: before, a :: after => exact (hne b before a after rfl rfl).elim

/-- Endings come in the order of their indices. -/
theorem endings_nodup (k : Nat) (before after : List (Option α)) :
    ((endings k before after).map Prod.fst).Nodup := by
  fun_induction endings k before after with
  | case1 k before r after ih =>
    rw [List.map_cons, List.nodup_cons]
    refine ⟨fun h => ?_, ih⟩
    obtain ⟨⟨i, r'⟩, hmem, rfl⟩ := List.mem_map.mp h
    obtain ⟨j, hj, -⟩ := mem_endings.mp hmem
    omega
  | case2 k b before a after hne ih => exact ih
  | case3 k before after hne => exact List.nodup_nil

/-- If one result is changed that was not there before, it is the only one that can have ended. -/
theorem endings_set {k i : Nat} {before : List (Option α)} (h : before[i]? = some none)
    (r : Option α) : endings k before (before.set i r) = r.toList.map (k + i, ·) := by
  induction before generalizing k i with
  | nil => cases h
  | cons b before ih =>
    cases i with
    | zero =>
      cases h
      cases r with
      | none => exact endings_self (k + 1) before
      | some r => exact congrArg ((k, r) :: ·) (endings_self (k + 1) before)
    | succ i =>
      have hrest := ih (k := k + 1) (i := i) h
      have e : k + 1 + i = k + (i + 1) := by omega
      rw [e] at hrest
      cases b <;> exact hrest

end

/-! ## Groups and schedules -/

/-- The members of a group, and the endings of those that were suspended, in order. -/
structure Group (W V : Type) where
  members : List (Thread W V V)
  ended : List (Nat × Except Error V)

namespace Group

/-- The group of what was launched, once it has been polled. -/
def start (started : List (Launch W V V)) (m : Machine W) : Group W V :=
  let members := (Launch.pollAll started none m).1
  ⟨members, endings 0 (started.map Launch.result?) (members.map Thread.result?)⟩

/-- Fires a ticket on a machine. A ticket that no member waits for changes nothing. -/
def fire (g : Group W V) (firing : Nat × Machine W) : Group W V :=
  match Thread.fireAny firing.1 g.members firing.2 with
  | some (members, _, _) =>
    ⟨members, g.ended ++ endings 0 (g.members.map Thread.result?) (members.map Thread.result?)⟩
  | none => g

/-- Fires tickets one after the other. -/
def play (g : Group W V) (schedule : List (Nat × Machine W)) : Group W V :=
  schedule.foldl fire g

/-- The first failure: that of least index among what had settled at the start, or else the first
in the order in which the others have ended. -/
def failure? (started : List (Launch W V V)) (g : Group W V) : Option Error :=
  (started.findSome? fun l => l.result?.bind failureOf).or
    (g.ended.findSome? fun ending => failureOf ending.2)

end Group

namespace Thread

/-- Fires a ticket on a machine. A ticket that the thread does not wait for changes nothing. -/
def after {R : Type} (t : Thread W V R) (firing : Nat × Machine W) : Thread W V R :=
  match t.fire firing.1 firing.2 with
  | some (t', _) => t'
  | none => t

/-- Fires tickets one after the other. -/
def play {R : Type} (t : Thread W V R) (schedule : List (Nat × Machine W)) : Thread W V R :=
  schedule.foldl after t

theorem failure?_eq {R : Type} (t : Thread W V R) : t.failure? = t.result?.bind failureOf := by
  match t with
  | done (.ok _) => rfl
  | done (.error _) => rfl
  | waiting .. => rfl
  | joining .. => rfl

/-- A firing changes one member, which was waiting, and reports its failure if it has ended with
one. -/
theorem fireAny_eq_some {ticket : Nat} {ts ts' : List (Thread W V V)} {m m' : Machine W}
    {failed : Option Error} (h : fireAny ticket ts m = some (ts', failed, m')) :
    ∃ i t t', ts[i]? = some t ∧ t.result? = none ∧ t.fire ticket m = some (t', m') ∧
      ts' = ts.set i t' ∧ failed = t'.failure? := by
  induction ts generalizing ts' with
  | nil => simp [fireAny] at h
  | cons t ts ih =>
    rw [fireAny] at h
    split at h
    · next t' m'' ht =>
      cases h
      exact ⟨0, t, t', rfl, result?_of_fire ht, ht, rfl, rfl⟩
    · obtain ⟨⟨us, f, m''⟩, hr, e⟩ := Option.map_eq_some_iff.mp h
      cases e
      obtain ⟨i, u, u', hu, hw, hfire, rfl, rfl⟩ := ih hr
      exact ⟨i + 1, u, u', hu, hw, hfire, rfl, rfl⟩

/-- If a member that was waiting is changed, it is the only one that can have ended. -/
theorem endings_set_of_waiting {ts : List (Thread W V V)} {i : Nat} {t : Thread W V V}
    (ht : ts[i]? = some t) (hw : t.result? = none) (t' : Thread W V V) :
    endings 0 (ts.map result?) ((ts.set i t').map result?) = t'.result?.toList.map (i, ·) := by
  have hnone : (ts.map result?)[i]? = some none := by
    rw [List.getElem?_map, ht, Option.map_some, hw]
  rw [List.map_set, endings_set hnone, Nat.zero_add]

/-- Where all have ended, nothing waits for a ticket. -/
theorem fireAny_of_allDone {ticket : Nat} {ts : List (Thread W V V)} (h : allDone ts = true)
    (m : Machine W) : fireAny ticket ts m = none := by
  cases hf : fireAny ticket ts m with
  | none => rfl
  | some s =>
    obtain ⟨ts', failed, m'⟩ := s
    obtain ⟨i, t, t', ht, hw, -⟩ := fireAny_eq_some hf
    have hdone := List.all_eq_true.mp h t (List.mem_of_getElem? ht)
    rw [hw] at hdone
    cases hdone

end Thread

namespace Launch

/-- The members do not depend on the failure that was noted before. -/
theorem pollAll_members (started : List (Launch W V V)) (failure failure' : Option Error)
    (m : Machine W) : (pollAll started failure m).1 = (pollAll started failure' m).1 := by
  induction started generalizing failure failure' m with
  | nil => rfl
  | cons l started ih => exact congrArg ((l.poll m).1 :: ·) (ih _ _ _)

/-- Each member is what was launched at its place, polled. -/
theorem getElem?_pollAll {started : List (Launch W V V)} {i : Nat} {l : Launch W V V}
    (h : started[i]? = some l) (failure : Option Error) (m : Machine W) :
    ∃ m', (pollAll started failure m).1[i]? = some (l.poll m').1 := by
  induction started generalizing i failure m with
  | nil => cases h
  | cons l' started ih =>
    cases i with
    | zero =>
      cases h
      exact ⟨m, rfl⟩
    | succ i => exact ih h _ _

theorem length_pollAll (started : List (Launch W V V)) (failure : Option Error) (m : Machine W) :
    (pollAll started failure m).1.length = started.length := by
  induction started generalizing failure m with
  | nil => rfl
  | cons l started ih => exact congrArg (· + 1) (ih _ _)

end Launch

namespace Thread

theorem play_append {R : Type} (t : Thread W V R) (s s' : List (Nat × Machine W)) :
    t.play (s ++ s') = (t.play s).play s' :=
  List.foldl_append

theorem play_done {R : Type} (result : Except Error R) (schedule : List (Nat × Machine W)) :
    (done result : Thread W V R).play schedule = done result := by
  induction schedule with
  | nil => rfl
  | cons firing schedule ih => exact ih

end Thread

/-! ## Members run by themselves -/

namespace Group

/-- The group with another member at a place, whose ending is noted if it has ended. -/
def advance (g : Group W V) (i : Nat) (t : Thread W V V) : Group W V :=
  ⟨g.members.set i t, g.ended ++ t.result?.toList.map (i, ·)⟩

/-- What a firing can do: nothing, or put one member further that was waiting. -/
theorem fire_cases (g : Group W V) (firing : Nat × Machine W) :
    (Thread.fireAny firing.1 g.members firing.2 = none ∧ g.fire firing = g) ∨
      ∃ i t m', g.members[i]? = some t ∧ t.result? = none ∧
        Thread.fireAny firing.1 g.members firing.2 =
          some (g.members.set i (t.after firing), (t.after firing).failure?, m') ∧
        g.fire firing = g.advance i (t.after firing) := by
  unfold fire
  cases hf : Thread.fireAny firing.1 g.members firing.2 with
  | none => exact .inl ⟨rfl, rfl⟩
  | some s =>
    obtain ⟨members', failed, m'⟩ := s
    obtain ⟨i, t, t', ht, hw, hfire, rfl, rfl⟩ := Thread.fireAny_eq_some hf
    have hafter : t.after firing = t' := by
      rw [Thread.after, hfire]
    subst hafter
    refine .inr ⟨i, t, m', ht, hw, rfl, ?_⟩
    dsimp only
    rw [Thread.endings_set_of_waiting ht hw, advance]

/-- How a group has come from what was launched: each member is what was launched at its place and
has run by itself on some of the firings, and the endings are those of the members that were
suspended, each once. -/
structure Follows (started : List (Launch W V V)) (schedule : List (Nat × Machine W))
    (g : Group W V) : Prop where
  length_eq : g.members.length = started.length
  own {i : Nat} {l : Launch W V V} : started[i]? = some l →
    ∃ m firings, firings.Sublist schedule ∧ g.members[i]? = some ((l.poll m).1.play firings)
  ended_iff (i : Nat) (r : Except Error V) : (i, r) ∈ g.ended ↔
    (∃ poll, started[i]? = some (.suspended poll)) ∧ g.members[i]? = some (.done r)
  nodup : (g.ended.map Prod.fst).Nodup

section

variable {started : List (Launch W V V)} {schedule : List (Nat × Machine W)} {g : Group W V}

theorem Follows.settled (h : g.Follows started schedule) {i : Nat} {r : Except Error V}
    (hi : started[i]? = some (.settled r)) : g.members[i]? = some (.done r) := by
  obtain ⟨m, firings, -, hm⟩ := h.own hi
  rw [hm, Launch.poll, Thread.play_done]

/-- A member has been what it is from the start, or was suspended. -/
theorem Follows.cases_started (h : g.Follows started schedule) {i : Nat} {t : Thread W V V}
    (hi : g.members[i]? = some t) :
    (∃ r, started[i]? = some (.settled r) ∧ t = .done r) ∨
      ∃ poll, started[i]? = some (.suspended poll) := by
  have hlt : i < started.length := by
    rw [← h.length_eq]
    exact (List.getElem?_eq_some_iff.mp hi).1
  have hget : started[i]? = some started[i] := List.getElem?_eq_getElem hlt
  cases hl : started[i] with
  | settled r =>
    rw [hl] at hget
    rw [h.settled hget] at hi
    exact .inl ⟨r, hget, (Option.some.inj hi).symm⟩
  | suspended poll => exact .inr ⟨poll, hl ▸ hget⟩

/-- A member that waits is not among the endings. -/
theorem Follows.not_ended (h : g.Follows started schedule) {i : Nat} {t : Thread W V V}
    (hi : g.members[i]? = some t) (ht : t.result? = none) : i ∉ g.ended.map Prod.fst := by
  intro hmem
  obtain ⟨⟨j, r⟩, hr, rfl⟩ := List.mem_map.mp hmem
  have hdone := ((h.ended_iff _ r).mp hr).2
  rw [hi] at hdone
  cases hdone
  cases ht

theorem follows_start (started : List (Launch W V V)) (m : Machine W) :
    (start started m).Follows started [] := by
  refine ⟨Launch.length_pollAll _ _ _, ?_, ?_, endings_nodup _ _ _⟩
  · intro i l hl
    obtain ⟨m', hm'⟩ := Launch.getElem?_pollAll hl none m
    exact ⟨m', [], .refl _, hm'⟩
  · intro i r
    rw [start, mem_endings]
    constructor
    · rintro ⟨j, rfl, hb, ha⟩
      rw [Nat.zero_add]
      rw [List.getElem?_map] at hb ha
      obtain ⟨l, hl, hlr⟩ := Option.map_eq_some_iff.mp hb
      obtain ⟨t, ht, htr⟩ := Option.map_eq_some_iff.mp ha
      rw [← Thread.eq_done_iff.mpr htr]
      cases l with
      | settled _ => cases hlr
      | suspended poll => exact ⟨⟨poll, hl⟩, ht⟩
    · rintro ⟨⟨poll, hl⟩, ht⟩
      exact ⟨i, by omega, by rw [List.getElem?_map, hl]; rfl, by rw [List.getElem?_map, ht]; rfl⟩

/-- If a member that was waiting is put by one firing further, its ending is noted if it has one. -/
theorem Follows.ended_iff_advance (h : g.Follows started schedule) {i : Nat} {t : Thread W V V}
    (ht : g.members[i]? = some t) (hw : t.result? = none) (t' : Thread W V V) (j : Nat)
    (r : Except Error V) : (j, r) ∈ (g.advance i t').ended ↔
      (∃ poll, started[j]? = some (.suspended poll)) ∧
        (g.advance i t').members[j]? = some (.done r) := by
  rw [advance, List.mem_append, h.ended_iff]
  dsimp only
  by_cases hij : i = j
  · subst hij
    have hsusp : ∃ poll, started[i]? = some (.suspended poll) := by
      refine (h.cases_started ht).resolve_left ?_
      rintro ⟨r, -, rfl⟩
      cases hw
    have hold : g.members[i]? ≠ some (.done r) := by
      rw [ht]
      rintro ⟨⟩
      cases hw
    have hmem : (i, r) ∈ t'.result?.toList.map (i, ·) ↔ t' = .done r := by
      rw [Thread.eq_done_iff]
      simp [eq_comm]
    rw [hmem, List.getElem?_set_self (List.getElem?_eq_some_iff.mp ht).1]
    constructor
    · rintro (⟨-, hd⟩ | rfl)
      · exact absurd hd hold
      · exact ⟨hsusp, rfl⟩
    · rintro ⟨-, hd⟩
      exact .inr (Option.some.inj hd)
  · have hmem : (j, r) ∉ t'.result?.toList.map (i, ·) := by
      simp [hij]
    rw [List.getElem?_set_ne hij]
    exact or_iff_left hmem

/-- A member that was waiting is not noted twice. -/
theorem Follows.nodup_advance (h : g.Follows started schedule) {i : Nat} {t : Thread W V V}
    (ht : g.members[i]? = some t) (hw : t.result? = none) (t' : Thread W V V) :
    ((g.advance i t').ended.map Prod.fst).Nodup := by
  have hnew := h.not_ended ht hw
  rw [advance, List.map_append]
  cases t'.result? with
  | none => simpa using h.nodup
  | some r =>
    refine List.nodup_append.mpr ⟨h.nodup, List.nodup_singleton i, ?_⟩
    rintro j hj k hk rfl
    rw [List.mem_singleton.mp hk] at hj
    exact hnew hj

/-- What a firing leaves has come from what was launched as well. -/
theorem Follows.fire (h : g.Follows started schedule) (firing : Nat × Machine W) :
    (g.fire firing).Follows started (schedule ++ [firing]) := by
  rcases g.fire_cases firing with ⟨-, e⟩ | ⟨i, t, m', ht, hw, -, e⟩
  · rw [e]
    refine ⟨h.length_eq, fun hl => ?_, h.ended_iff, h.nodup⟩
    obtain ⟨m, firings, hsub, hm⟩ := h.own hl
    exact ⟨m, firings, hsub.trans (List.sublist_append_left _ _), hm⟩
  · rw [e]
    refine ⟨?_, ?_, h.ended_iff_advance ht hw _, h.nodup_advance ht hw _⟩
    · rw [advance, List.length_set, h.length_eq]
    · intro j l hl
      obtain ⟨m, firings, hsub, hm⟩ := h.own hl
      by_cases hij : i = j
      · subst hij
        refine ⟨m, firings ++ [firing], hsub.append (.refl _), ?_⟩
        rw [ht] at hm
        cases hm
        rw [advance, List.getElem?_set_self (List.getElem?_eq_some_iff.mp ht).1,
          Thread.play_append]
        rfl
      · refine ⟨m, firings, hsub.trans (List.sublist_append_left _ _), ?_⟩
        rw [advance, List.getElem?_set_ne hij, hm]

theorem Follows.play (h : g.Follows started schedule) (more : List (Nat × Machine W)) :
    (g.play more).Follows started (schedule ++ more) := by
  induction more generalizing g schedule with
  | nil => rwa [List.append_nil]
  | cons firing more ih =>
    have hstep := ih (h.fire firing)
    rwa [List.append_assoc] at hstep

end

end Group

end Parlance
