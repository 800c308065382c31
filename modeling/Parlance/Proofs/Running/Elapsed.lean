import Parlance.Proofs.Running.History

/-
  How long a job takes. `j.Lasts t o` says that `j` takes the time `t` and ends with the value `o`,
  or with some failure if there is none, wherever and whenever it is launched: naps add up along a
  chain, and a group takes as long as the longest of its members. `Job.Lasts.run` says that a run
  follows this on every machine whose clock is not frozen, although it fires one timer at a time and
  knows nothing of chains and groups.

  The proof follows a thread from firing to firing. `t.Finishes issued now f o` says that `t` will
  have ended by the time `f`, at which the last of what it waits for ends, or has ended if `f` is 0;
  no deadline lies before `now`, and the deadlines are those of the list `issued` at the tickets.
  The timer that is due first takes the clock to the least deadline, so that no deadline is passed
  over, and the part that it wakes goes on from there for the time that it lasts
  (`Thread.Finishes.fire`). What is kept is the later of the time and `f`.
-/

namespace Parlance

variable {W V R α β : Type}

/-- The values in order, if all of them are there. -/
def every : List (Option α) → Option (List α)
  | [] => some []
  | o :: os => o.bind fun value => (every os).map fun values => value :: values

theorem every_map_some (values : List α) : every (values.map some) = some values := by
  induction values with
  | nil => rfl
  | cons value values ih => rw [List.map_cons, every, ih]; rfl

theorem every_eq_none {os : List (Option α)} (h : none ∈ os) : every os = none := by
  induction os with
  | nil => cases h
  | cons o os ih =>
    rw [every]
    rcases List.mem_cons.mp h with rfl | h
    · rfl
    · rw [ih h]
      cases o <;> rfl

/-! ## Jobs -/

namespace Job

mutual

/-- The job takes the time and ends with the value, or fails if there is none. -/
inductive Lasts : {R : Type} → Job W V R → Nat → Option R → Prop where
  | done {R : Type} {result : Except Error R} : Lasts (.done result) 0 result.toOption
  | act {R : Type} {update : W → W} {next : W → Job W V R} {t : Nat} {o : Option R} :
      (∀ w, Lasts (next w) t o) → Lasts (.act update next) t o
  | nap {R : Type} {delay : Nat} {next : Nat → Job W V R} {t : Nat} {o : Option R} :
      (∀ now, Lasts (next now) t o) → Lasts (.nap delay next) (delay + t) o
  | failed {R : Type} {members : List (Job W V V)} {next : List V → Job W V R} {t : Nat}
      {os : List (Option V)} :
      LastsAll members t os → every os = none → Lasts (.join members next) t none
  | joined {R : Type} {members : List (Job W V V)} {next : List V → Job W V R} {t t' : Nat}
      {os : List (Option V)} {values : List V} {o : Option R} :
      LastsAll members t os → every os = some values → Lasts (next values) t' o →
      Lasts (.join members next) (t + t') o

/-- The longest of the jobs takes the time, and each ends with the value at its place. -/
inductive LastsAll : List (Job W V V) → Nat → List (Option V) → Prop where
  | nil : LastsAll [] 0 []
  | cons {j : Job W V V} {js : List (Job W V V)} {t t' : Nat} {o : Option V}
      {os : List (Option V)} :
      Lasts j t o → LastsAll js t' os → LastsAll (j :: js) (max t t') (o :: os)

end

/-- What follows a value takes the time and ends with the value; nothing follows a failure. -/
def LastsThen (f : α → Job W V β) : Option α → Nat → Option β → Prop
  | some value, t, o => (f value).Lasts t o
  | none, t, o => t = 0 ∧ o = none

theorem lasts_join {members : List (Job W V V)} {next : List V → Job W V R} {t : Nat}
    {o : Option R} (h : (join members next).Lasts t o) :
    ∃ t₁ t₂ os, LastsAll members t₁ os ∧ LastsThen next (every os) t₂ o ∧ t = t₁ + t₂ := by
  cases h with
  | @failed _ _ _ _ os hall hnone => exact ⟨t, 0, os, hall, by rw [hnone]; exact ⟨rfl, rfl⟩, rfl⟩
  | @joined _ _ _ t₁ t₂ os values _ hall hvalues hnext =>
    exact ⟨t₁, t₂, os, hall, by rw [hvalues]; exact hnext, rfl⟩

theorem LastsAll.join {members : List (Job W V V)} {next : List V → Job W V R} {t₁ t₂ : Nat}
    {os : List (Option V)} {o : Option R} (hall : LastsAll members t₁ os)
    (hnext : LastsThen next (every os) t₂ o) : (Job.join members next).Lasts (t₁ + t₂) o := by
  cases hevery : every os with
  | some values =>
    rw [hevery] at hnext
    exact .joined hall hevery hnext
  | none =>
    rw [hevery] at hnext
    obtain ⟨rfl, rfl⟩ := hnext
    exact .failed hall hevery

/-- The times of a chain add up, as far as it gets. -/
theorem Lasts.bind {f : α → Job W V β} {t t' : Nat} {o : Option α} {o' : Option β}
    {j : Job W V α} (hj : j.Lasts t o) (hf : LastsThen f o t' o') :
    (j.bind f).Lasts (t + t') o' := by
  match j with
  | .done (.ok value) =>
    cases hj
    rw [bind_ok, Nat.zero_add]
    exact hf
  | .done (.error error) =>
    cases hj
    obtain ⟨rfl, rfl⟩ := hf
    rw [bind_error]
    exact .done
  | .act update next =>
    cases hj with
    | act hnext =>
      rw [Job.bind]
      exact .act fun w => (hnext w).bind hf
  | .nap delay next =>
    cases hj with
    | nap hnext =>
      rw [Job.bind, Nat.add_assoc]
      exact .nap fun now => (hnext now).bind hf
  | .join members next =>
    rw [Job.bind]
    cases hj with
    | failed hall hnone =>
      obtain ⟨rfl, rfl⟩ := hf
      exact .failed hall hnone
    | joined hall hvalues hnext =>
      rw [Nat.add_assoc]
      exact .joined hall hvalues (hnext.bind hf)

theorem Lasts.map {j : Job W V α} {t : Nat} {o : Option α} (hj : j.Lasts t o) (g : α → β) :
    (j.map g).Lasts t (o.map g) := by
  have hpure : LastsThen (W := W) (V := V) (fun value => pure (g value)) o 0 (o.map g) := by
    cases o with
    | some value =>
      show (pure (g value)).Lasts 0 (some (g value))
      exact .done
    | none => exact ⟨rfl, rfl⟩
  exact hj.bind hpure

end Job

/-! ## Threads -/

/-- The clock is not frozen, and the tickets given out have the deadlines, in order. -/
structure Machine.HasIssued (m : Machine W) (issued : List Nat) : Prop where
  thawed : m.frozen = false
  length_eq : issued.length = m.issued

namespace Thread

mutual

/-- The thread has ended, `f` being 0, or ends at the time `f`, which is not before `now`. -/
inductive Finishes (issued : List Nat) (now : Nat) :
    {R : Type} → Thread W V R → Nat → Option R → Prop where
  | done {R : Type} {result : Except Error R} :
      Finishes issued now (.done result) 0 result.toOption
  | waiting {R : Type} {deadline ticket : Nat} {next : Nat → Job W V R} {t : Nat} {o : Option R} :
      issued[ticket]? = some deadline → now ≤ deadline → (∀ now, (next now).Lasts t o) →
      Finishes issued now (.waiting deadline ticket next) (deadline + t) o
  /-- A member has not ended, and a failure is noted if and only if a member has failed. -/
  | joining {R : Type} {members : List (Thread W V V)} {failure : Option Error}
      {next : List V → Job W V R} {f t : Nat} {os : List (Option V)} {o : Option R} :
      FinishesAll issued now members f os → allDone members = false →
      (failure = none ↔ ∀ t ∈ members, t.failure? = none) → Job.LastsThen next (every os) t o →
      Finishes issued now (.joining members failure next) (f + t) o

/-- The last of the threads ends at the time, and each with the value at its place. -/
inductive FinishesAll (issued : List Nat) (now : Nat) :
    List (Thread W V V) → Nat → List (Option V) → Prop where
  | nil : FinishesAll issued now [] 0 []
  | cons {t : Thread W V V} {ts : List (Thread W V V)} {f f' : Nat} {o : Option V}
      {os : List (Option V)} :
      Finishes issued now t f o → FinishesAll issued now ts f' os →
      FinishesAll issued now (t :: ts) (max f f') (o :: os)

end

section

variable {issued issued' : List Nat} {now now' : Nat}

mutual

/-- Tickets may be given out meanwhile, and time may pass up to the first deadline. -/
theorem Finishes.mono {R : Type} {t : Thread W V R} {f : Nat} {o : Option R}
    (h : t.Finishes issued now f o)
    (hissued : issued <+: issued')
    (hnow : ∀ timer ∈ t.timers, now ≤ timer.1 → now' ≤ timer.1) :
    t.Finishes issued' now' f o := by
  match h with
  | .done => exact .done
  | @Finishes.waiting _ _ _ _ _ deadline ticket _ _ _ hticket hdeadline hnext =>
    have hlater : now' ≤ deadline := by
      refine hnow (deadline, ticket) ?_ hdeadline
      rw [timers]
      exact List.mem_singleton_self _
    have hkept : issued'[ticket]? = some deadline := by
      obtain ⟨hlt, hget⟩ := List.getElem?_eq_some_iff.mp hticket
      rw [List.prefix_iff_getElem?.mp hissued ticket hlt, hget]
    exact .waiting hkept hlater hnext
  | .joining hmembers hwaits hfailure hnext =>
    rw [timers] at hnow
    exact .joining (hmembers.mono hissued hnow) hwaits hfailure hnext

theorem FinishesAll.mono {ts : List (Thread W V V)} {f : Nat} {os : List (Option V)}
    (h : FinishesAll issued now ts f os)
    (hissued : issued <+: issued')
    (hnow : ∀ timer ∈ timersAll ts, now ≤ timer.1 → now' ≤ timer.1) :
    FinishesAll issued' now' ts f os := by
  match h with
  | .nil => exact .nil
  | .cons ht hts =>
    rw [timersAll] at hnow
    exact .cons (ht.mono hissued fun timer hin => hnow timer (List.mem_append_left _ hin))
      (hts.mono hissued fun timer hin => hnow timer (List.mem_append_right _ hin))

end

theorem Finishes.append {t : Thread W V R} {f : Nat} {o : Option R}
    (h : t.Finishes issued now f o) (more : List Nat) : t.Finishes (issued ++ more) now f o :=
  h.mono (List.prefix_append issued more) fun _ _ hle => hle

theorem FinishesAll.append {ts : List (Thread W V V)} {f : Nat} {os : List (Option V)}
    (h : FinishesAll issued now ts f os) (more : List Nat) :
    FinishesAll (issued ++ more) now ts f os :=
  h.mono (List.prefix_append issued more) fun _ _ hle => hle

mutual

/-- The timers of a thread have the deadlines of their tickets, none of which has passed. -/
theorem Finishes.timers {R : Type} {t : Thread W V R} {f : Nat} {o : Option R}
    (h : t.Finishes issued now f o) :
    ∀ timer ∈ t.timers, issued[timer.2]? = some timer.1 ∧ now ≤ timer.1 := by
  match h with
  | .done =>
    intro timer hin
    rw [Thread.timers] at hin
    cases hin
  | .waiting hticket hdeadline _ =>
    intro timer hin
    rw [Thread.timers] at hin
    rw [List.mem_singleton.mp hin]
    exact ⟨hticket, hdeadline⟩
  | .joining hmembers _ _ _ =>
    rw [Thread.timers]
    exact hmembers.timers

theorem FinishesAll.timers {ts : List (Thread W V V)} {f : Nat} {os : List (Option V)}
    (h : FinishesAll issued now ts f os) :
    ∀ timer ∈ timersAll ts, issued[timer.2]? = some timer.1 ∧ now ≤ timer.1 := by
  match h with
  | .nil =>
    intro timer hin
    cases hin
  | .cons ht hts =>
    intro timer hin
    rw [timersAll] at hin
    rcases List.mem_append.mp hin with hin | hin
    · exact ht.timers timer hin
    · exact hts.timers timer hin

end

mutual

/-- A thread that waits ends now or later. -/
theorem Finishes.now_le {R : Type} {t : Thread W V R} {f : Nat} {o : Option R}
    (h : t.Finishes issued now f o) (hwaits : t.result? = none) : now ≤ f := by
  match h with
  | .done => cases hwaits
  | .waiting _ hdeadline _ => omega
  | .joining hmembers hopen _ _ =>
    have hle := hmembers.now_le hopen
    omega

theorem FinishesAll.now_le {ts : List (Thread W V V)} {f : Nat} {os : List (Option V)}
    (h : FinishesAll issued now ts f os) (hopen : allDone ts = false) : now ≤ f := by
  match h with
  | .nil => cases hopen
  | @FinishesAll.cons _ _ _ _ t ts f f' _ _ ht hts =>
    cases hr : t.result? with
    | none =>
      have hle := ht.now_le hr
      omega
    | some r =>
      rw [allDone, List.all_cons, hr, Option.isSome_some, Bool.true_and] at hopen
      have hle := hts.now_le hopen
      omega

end

/-- A thread that has ended has its value. -/
theorem Finishes.of_done {result : Except Error R} {f : Nat} {o : Option R}
    (h : (Thread.done result : Thread W V R).Finishes issued now f o) :
    f = 0 ∧ o = result.toOption := by
  cases h
  exact ⟨rfl, rfl⟩

theorem FinishesAll.of_allDone {ts : List (Thread W V V)} {f : Nat} {os : List (Option V)}
    (h : FinishesAll issued now ts f os) (hdone : allDone ts = true) : f = 0 := by
  match h with
  | .nil => rfl
  | @FinishesAll.cons _ _ _ _ t ts f f' _ _ ht hts =>
    rw [allDone, List.all_cons, Bool.and_eq_true] at hdone
    obtain ⟨r, hr⟩ := Option.isSome_iff_exists.mp hdone.1
    rw [eq_done_iff.mpr hr] at ht
    have hhead := ht.of_done.1
    have htail := hts.of_allDone hdone.2
    omega

/-- Threads that have all ended well have the values that are awaited. -/
theorem FinishesAll.of_values {values : List V} {f : Nat} {os : List (Option V)}
    (h : FinishesAll issued now
      (values.map fun value => (Thread.done (.ok value) : Thread W V V)) f os) :
    os = values.map some := by
  induction values generalizing f os with
  | nil =>
    cases h
    rfl
  | cons value values ih =>
    cases h with
    | cons ht hts => rw [List.map_cons, ih hts, ht.of_done.2]; rfl

theorem FinishesAll.of_failure {ts : List (Thread W V V)} {f : Nat} {os : List (Option V)}
    (h : FinishesAll issued now ts f os) {t : Thread W V V} (ht : t ∈ ts)
    (hfail : t.failure? ≠ none) : none ∈ os := by
  match h with
  | .nil => cases ht
  | @FinishesAll.cons _ _ _ _ u ts f f' o os hu hts =>
    rcases List.mem_cons.mp ht with rfl | ht
    · match t with
      | done (.error error) =>
        rw [hu.of_done.2]
        exact List.mem_cons_self
      | done (.ok value) => exact absurd rfl hfail
      | waiting .. => exact absurd rfl hfail
      | joining .. => exact absurd rfl hfail
    · exact List.mem_cons_of_mem _ (hts.of_failure ht hfail)

end

end Thread

/-! ## What is launched -/

/-- The clock stands at `now`, and more tickets have been given out. The thread will end at the
time, or has ended if that is now. -/
def Thread.EndsAt (now : Nat) (issued : List Nat) (s : Thread W V R × Machine W) (time : Nat)
    (o : Option R) : Prop :=
  s.2.now = now ∧ ∃ more f, s.2.HasIssued (issued ++ more) ∧
    s.1.Finishes (issued ++ more) now f o ∧ max now f = time

/-- The clock stands at `now`, and more tickets have been given out. The last of the threads will
end at the time, or all have ended if that is now. -/
def Thread.AllEndAt (now : Nat) (issued : List Nat) (ts : List (Thread W V V)) (m : Machine W)
    (time : Nat) (os : List (Option V)) : Prop :=
  m.now = now ∧ ∃ more f, m.HasIssued (issued ++ more) ∧
    FinishesAll (issued ++ more) now ts f os ∧ max now f = time

/-- Whenever what was launched is polled, it goes on for the time. -/
def Launch.Lasts (l : Launch W V R) (t : Nat) (o : Option R) : Prop :=
  ∀ m issued, m.HasIssued issued → Thread.EndsAt m.now issued (l.poll m) (m.now + t) o

/-- The longest of what was launched goes on for the time. -/
inductive Launch.LastsAll : List (Launch W V V) → Nat → List (Option V) → Prop where
  | nil : LastsAll [] 0 []
  | cons {l : Launch W V V} {ls : List (Launch W V V)} {t t' : Nat} {o : Option V}
      {os : List (Option V)} :
      l.Lasts t o → LastsAll ls t' os → LastsAll (l :: ls) (max t t') (o :: os)

namespace Thread

theorem endsAt_done (result : Except Error R) {m : Machine W} {issued : List Nat}
    (hm : m.HasIssued issued) :
    EndsAt m.now issued ((done result : Thread W V R), m) m.now result.toOption :=
  ⟨rfl, [], 0, by rwa [List.append_nil], .done, by omega⟩

/-- What ends when more tickets have been given out ends when fewer have. -/
theorem EndsAt.of_append {now time : Nat} {issued : List Nat} (more : List Nat)
    {s : Thread W V R × Machine W} {o : Option R} (h : EndsAt now (issued ++ more) s time o) :
    EndsAt now issued s time o := by
  obtain ⟨hnow, more', f, hm, hs, htime⟩ := h
  rw [List.append_assoc] at hm hs
  exact ⟨hnow, more ++ more', f, hm, hs, htime⟩

/-- A group that waits goes on for as long as its members do and what follows them. -/
theorem AllEndAt.conclude {now time t : Nat} {issued : List Nat} {ts : List (Thread W V V)}
    {m : Machine W} {os : List (Option V)} {failure : Option Error} {next : List V → Job W V R}
    {o : Option R} (h : AllEndAt now issued ts m time os)
    (hfailure : failure = none ↔ ∀ t ∈ ts, t.failure? = none)
    (hnext : Job.LastsThen next (every os) t o)
    (henter : ∀ values, (next values).Lasts t o → ∀ m issued, m.HasIssued issued →
      EndsAt m.now issued ((next values).enter m) (m.now + t) o) :
    EndsAt now issued (conclude ts failure next (fun values m => (next values).enter m) m)
      (time + t) o := by
  obtain ⟨rfl, more, f, hm, hts, rfl⟩ := h
  apply EndsAt.of_append more
  unfold Thread.conclude
  split
  · next hdone =>
    obtain rfl := hts.of_allDone hdone
    rw [Nat.max_eq_left (Nat.zero_le _)]
    cases failure with
    | some error =>
      obtain ⟨t', ht', hfail⟩ : ∃ t ∈ ts, t.failure? ≠ none := by
        simpa using hfailure
      rw [every_eq_none (hts.of_failure ht' hfail)] at hnext
      obtain ⟨rfl, rfl⟩ := hnext
      exact endsAt_done (.error error) hm
    | none =>
      rw [eq_values_of_allDone hdone (hfailure.mp rfl)] at hts
      rw [hts.of_values, every_map_some] at hnext
      exact henter _ hnext m _ hm
  · next hopen =>
    have hopen := eq_false_of_ne_true hopen
    have hle := hts.now_le hopen
    refine ⟨rfl, [], f + t, by rwa [List.append_nil], ?_, by omega⟩
    rw [List.append_nil]
    exact .joining hts hopen hfailure hnext

end Thread

namespace Launch

theorem LastsAll.pollAll {ls : List (Launch W V V)} {t : Nat} {os : List (Option V)}
    (h : LastsAll ls t os) (failure : Option Error) {m : Machine W} {issued : List Nat}
    (hm : m.HasIssued issued) :
    Thread.AllEndAt m.now issued (pollAll ls failure m).1 (pollAll ls failure m).2.2
      (m.now + t) os := by
  induction h generalizing failure m issued with
  | nil => exact ⟨rfl, [], 0, by rwa [List.append_nil], .nil, by omega⟩
  | @cons l ls t t' o os hl _ ih =>
    obtain ⟨hnow, more, f, hm', hhead, htime⟩ := hl m issued hm
    obtain ⟨hnow', more', f', hm'', htail, htime'⟩ := ih (failure.or (l.poll m).1.failure?) hm'
    rw [hnow] at hnow' htail htime'
    rw [List.append_assoc] at hm'' htail
    rw [Launch.pollAll]
    refine ⟨hnow', more ++ more', max f f', hm'', .cons ?_ htail, by omega⟩
    rw [← List.append_assoc]
    exact hhead.append more'

/-- What has settled lasts for no time. -/
theorem Lasts.of_settled {result : Except Error R} {t : Nat} {o : Option R}
    (h : (settled result : Launch W V R).Lasts t o) (w : W) : t = 0 ∧ o = result.toOption := by
  obtain ⟨-, more, f, -, hs, htime⟩ := h { world := w } [] ⟨rfl, rfl⟩
  obtain ⟨rfl, rfl⟩ := hs.of_done
  exact ⟨by dsimp only at htime; omega, rfl⟩

theorem LastsAll.of_ready {ls : List (Launch W V V)} {t : Nat} {os : List (Option V)}
    (h : LastsAll ls t os) (hready : ls.all (·.isReady) = true) (w : W) :
    t = 0 ∧ every os =
      match failure? ls with
      | some _ => none
      | none => some (values ls) := by
  induction h with
  | nil => exact ⟨rfl, rfl⟩
  | @cons l ls t t' o os hl _ ih =>
    rw [List.all_cons, Bool.and_eq_true] at hready
    obtain ⟨rfl, hevery⟩ := ih hready.2
    match l with
    | suspended poll => cases hready.1
    | settled (.error error) =>
      obtain ⟨rfl, rfl⟩ := hl.of_settled w
      exact ⟨rfl, rfl⟩
    | settled (.ok value) =>
      obtain ⟨rfl, rfl⟩ := hl.of_settled w
      refine ⟨rfl, ?_⟩
      have hfailure : failure? (settled (.ok value) :: ls) = failure? ls := rfl
      rw [every, hevery, hfailure]
      cases failure? ls <;> rfl

end Launch

namespace Job

/-- What is launched and then polled has been entered. -/
theorem Lasts.enter_of_launch {j : Job W V R} {t : Nat} {o : Option R}
    (h : ∀ w, (j.launch w).1.Lasts t o) (m : Machine W) (issued : List Nat)
    (hm : m.HasIssued issued) : Thread.EndsAt m.now issued (j.enter m) (m.now + t) o :=
  h m.world { m with world := (j.launch m.world).2 } issued ⟨hm.thawed, hm.length_eq⟩

mutual

theorem lasts_launch {R : Type} (j : Job W V R) {t : Nat} {o : Option R} (h : j.Lasts t o)
    (w : W) : (j.launch w).1.Lasts t o := by
  match j with
  | .done result =>
    cases h
    rw [launch]
    intro m issued hm
    exact Thread.endsAt_done result hm
  | .act update next =>
    cases h with
    | act hnext =>
      rw [launch]
      exact lasts_launch (next w) (hnext w) (update w)
  | .nap delay next =>
    cases h with
    | @nap _ _ _ t o hnext =>
      rw [launch_nap]
      intro m issued hm
      simp only [Launch.poll, hm.thawed, Bool.false_eq_true, or_false]
      split
      · next hdelay =>
        have hgo := Lasts.enter_of_launch (lasts_launch (next m.now) (hnext m.now)) m issued hm
        rwa [hdelay, Nat.zero_add]
      · refine ⟨rfl, [m.now + delay], m.now + delay + t, ⟨rfl, ?_⟩, ?_, by omega⟩
        · rw [List.length_append, hm.length_eq]
          rfl
        · refine .waiting ?_ (by omega) hnext
          rw [← hm.length_eq, List.getElem?_concat_length]
  | .join members next =>
    obtain ⟨t₁, t₂, os, hall, hnext, rfl⟩ := lasts_join h
    have hlaunched := lasts_launchAll members hall w
    have hgo := fun values (hvalues : (next values).Lasts t₂ o) =>
      Lasts.enter_of_launch (lasts_launch (next values) hvalues)
    rw [launch]
    generalize Job.launchAll members w = started at hlaunched ⊢
    obtain ⟨started, w'⟩ := started
    dsimp only at hlaunched ⊢
    split
    · next hready =>
      obtain ⟨rfl, hevery⟩ := hlaunched.of_ready hready w
      rw [Nat.zero_add]
      rw [hevery] at hnext
      split
      · next error hfailure =>
        rw [hfailure] at hnext
        obtain ⟨rfl, rfl⟩ := hnext
        intro m issued hm
        exact Thread.endsAt_done (.error error) hm
      · next hfailure =>
        rw [hfailure] at hnext
        exact lasts_launch (next _) hnext w'
    · intro m issued hm
      have hpolled := hlaunched.pollAll (Launch.failure? started) hm
      have hfailures := Launch.failures_pollAll_failure? started m
      rw [← Nat.add_assoc]
      exact hpolled.conclude hfailures hnext hgo
termination_by structural j

theorem lasts_launchAll (js : List (Job W V V)) {t : Nat} {os : List (Option V)}
    (h : LastsAll js t os) (w : W) : Launch.LastsAll (Job.launchAll js w).1 t os := by
  match js with
  | [] =>
    cases h
    exact .nil
  | j :: rest =>
    cases h with
    | cons hj hrest =>
      rw [Job.launchAll]
      exact .cons (lasts_launch j hj w) (lasts_launchAll rest hrest (j.launch w).2)
termination_by structural js

end

theorem Lasts.enter {j : Job W V R} {t : Nat} {o : Option R} (h : j.Lasts t o) {m : Machine W}
    {issued : List Nat} (hm : m.HasIssued issued) :
    Thread.EndsAt m.now issued (j.enter m) (m.now + t) o :=
  Lasts.enter_of_launch (lasts_launch j h) m issued hm

end Job

/-! ## Firing and driving -/

namespace Thread

section

variable {issued : List Nat} {ticket : Nat} {m : Machine W}

mutual

/-- The nap whose deadline it is ends, and what follows it goes on from there. -/
theorem Finishes.fire {R : Type} {t : Thread W V R} {f : Nat} {o : Option R}
    (h : t.Finishes issued m.now f o) (hm : m.HasIssued issued)
    (hticket : issued[ticket]? = some m.now) {s : Thread W V R × Machine W}
    (hs : t.fire ticket m = some s) : EndsAt m.now issued s (max m.now f) o := by
  match h with
  | .done =>
    rw [Thread.fire] at hs
    cases hs
  | @Finishes.waiting _ _ _ _ _ deadline ticket' next t o hdeadline _ hnext =>
    rw [Thread.fire] at hs
    split at hs
    · next e =>
      subst e
      obtain rfl : deadline = m.now := Option.some.inj (hdeadline.symm.trans hticket)
      obtain rfl := Option.some.inj hs
      rw [Nat.max_eq_right (by omega)]
      exact (hnext m.now).enter hm
    · cases hs
  | @Finishes.joining _ _ _ _ _ members failure next f t os o hmembers hopen hfailure hnext =>
    rw [Thread.fire] at hs
    obtain ⟨⟨ts', failed, m'⟩, hany, e⟩ := Option.map_eq_some_iff.mp hs
    dsimp only at e
    subst e
    have hnoted := failures_fireAny hany
    rw [← hfailure, and_comm, ← Option.or_eq_none_iff] at hnoted
    have hended := (hmembers.fireAny hm hticket hany).conclude hnoted.symm hnext
      fun values hvalues m issued hm => hvalues.enter hm
    have hle := hmembers.now_le hopen
    rwa [show max m.now (f + t) = max m.now f + t by omega]

theorem FinishesAll.fireAny {ts : List (Thread W V V)} {f : Nat} {os : List (Option V)}
    (h : FinishesAll issued m.now ts f os) (hm : m.HasIssued issued)
    (hticket : issued[ticket]? = some m.now) {ts' : List (Thread W V V)} {failed : Option Error}
    {m' : Machine W} (hs : Thread.fireAny ticket ts m = some (ts', failed, m')) :
    AllEndAt m.now issued ts' m' (max m.now f) os := by
  match h with
  | .nil => cases hs
  | @FinishesAll.cons _ _ _ _ t ts f₁ f₂ _ _ ht hts =>
    rw [Thread.fireAny] at hs
    split at hs
    · next t' m'' hfire =>
      cases hs
      obtain ⟨hnow, more, f', hm', ht', htime⟩ := ht.fire hm hticket hfire
      exact ⟨hnow, more, max f' f₂, hm', .cons ht' (hts.append more), by omega⟩
    · obtain ⟨⟨us, failed', m''⟩, hany, e⟩ := Option.map_eq_some_iff.mp hs
      cases e
      obtain ⟨hnow, more, f', hm', hts', htime⟩ := hts.fireAny hm hticket hany
      exact ⟨hnow, more, max f₁ f', hm', .cons (ht.append more) hts', by omega⟩

end

end

theorem earlier_le (a b : Nat × Nat) : (earlier a b).1 ≤ a.1 ∧ (earlier a b).1 ≤ b.1 := by
  unfold earlier
  split <;> omega

theorem foldl_earlier_le (first : Nat × Nat) (rest : List (Nat × Nat)) :
    ∀ timer ∈ first :: rest, (rest.foldl earlier first).1 ≤ timer.1 := by
  induction rest generalizing first with
  | nil =>
    intro timer hin
    rw [List.mem_singleton.mp hin]
    exact Nat.le_refl _
  | cons second rest ih =>
    rw [List.foldl_cons]
    have hfirst := ih (earlier first second) _ List.mem_cons_self
    have hle := earlier_le first second
    intro timer hin
    rcases List.mem_cons.mp hin with rfl | hin
    · omega
    · rcases List.mem_cons.mp hin with rfl | hin
      · omega
      · exact ih _ timer (List.mem_cons_of_mem _ hin)

/-- The timer that is due first has the least deadline. -/
theorem due?_le {t : Thread W V R} {due : Nat × Nat} (h : t.due? = some due) :
    ∀ timer ∈ t.timers, due.1 ≤ timer.1 := by
  rw [due?] at h
  split at h
  · cases h
  · next first rest e =>
    cases h
    rw [e]
    exact foldl_earlier_le first rest

/-- A thread is driven to its end at the time at which it ends, with its value. -/
theorem Finishes.drive {t : Thread W V R} {m : Machine W} {issued : List Nat} {f : Nat}
    {o : Option R} (h : t.Finishes issued m.now f o) (ht : t.Sound) (hm : m.HasIssued issued) :
    (t.drive m).2.now = max m.now f ∧ (t.drive m).1.result?.map Except.toOption = some o := by
  cases hd : t.due? with
  | none =>
    rw [drive_of_due_none hd]
    cases hr : t.result? with
    | none => exact absurd hd (due?_ne_none ht hr)
    | some r =>
      rw [eq_done_iff.mpr hr] at h
      obtain ⟨rfl, rfl⟩ := h.of_done
      exact ⟨by dsimp only; omega, rfl⟩
  | some timer =>
    obtain ⟨deadline, ticket⟩ := timer
    obtain ⟨hticket, hlater⟩ := h.timers _ (due?_mem hd)
    cases hf : t.fire ticket { m with now := deadline } with
    | none =>
      have hsome := fire_isSome t (due?_mem hd) { m with now := deadline }
      rw [hf] at hsome
      cases hsome
    | some s =>
      -- no deadline is passed over, so that `f` stays ahead of the clock
      have hdue : t.Finishes issued deadline f o :=
        h.mono (List.prefix_refl issued) fun timer hin _ => due?_le hd timer hin
      have hle := hdue.now_le (result?_of_fire hf)
      obtain ⟨hnow, more, f', hm', hs, htime⟩ := hdue.fire (m := { m with now := deadline })
        ⟨hm.thawed, hm.length_eq⟩ hticket hf
      dsimp only at hnow hs htime
      rw [← hnow] at hs
      obtain ⟨hend, hresult⟩ := hs.drive (sound_fire t ht _ _ hf) hm'
      rw [drive_of_due hd hf]
      refine ⟨?_, hresult⟩
      dsimp only at hlater
      rw [hend, hnow]
      omega
termination_by t
decreasing_by exact ⟨ticket, _, _, hf⟩

end Thread

/-- A run takes the time that the job lasts, and ends with its value. -/
theorem Job.Lasts.run {j : Job W V R} {t : Nat} {o : Option R} (h : j.Lasts t o) (m : Machine W)
    (hm : m.frozen = false) : (j.run m).2.now = m.now + t ∧ (j.run m).1.toOption = o := by
  have hissued : m.HasIssued (List.replicate m.issued 0) := ⟨hm, List.length_replicate⟩
  obtain ⟨hnow, more, f, hm', hs, htime⟩ := h.enter hissued
  rw [← hnow] at hs htime
  obtain ⟨hend, hresult⟩ := hs.drive (sound_launch j _ _) hm'
  rw [drive_enter] at hend hresult
  rw [htime] at hend
  exact ⟨hend.trans (by omega), Option.some.inj hresult⟩

end Parlance
