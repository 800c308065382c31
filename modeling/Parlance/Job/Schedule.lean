import Parlance.Job.Launch

/-
  Running a job to its end. While something waits, the timer that is due first fires alone, the
  clock moves to its deadline, and that part goes on as far as it can. A job has no bound on its
  naps that could be read off it, since what follows a nap may depend on the world; but it is a
  tree without infinite paths, and a fired nap leaves a smaller one. `Thread.halts` says so for
  every order of firing, and `drive` recurses on it. `Thread.result?_drive` says that a thread
  which came out of a job is driven to a result and never left waiting.
-/

namespace Parlance

namespace Thread

variable {W V R : Type}

/-! ## Every order of firing comes to an end -/

/-- `t'` is what is left of `t` when one of its naps has ended. -/
def Fires (t' t : Thread W V R) : Prop :=
  ∃ ticket m m', t.fire ticket m = some (t', m')

/-- One of the threads has fired. -/
def FiresAny (ts' ts : List (Thread W V V)) : Prop :=
  ∃ ticket m failed m', fireAny ticket ts m = some (ts', failed, m')

theorem acc_firesAny_cons {t : Thread W V V} (ht : Acc Fires t) {ts : List (Thread W V V)}
    (hts : Acc FiresAny ts) : Acc FiresAny (t :: ts) := by
  induction ht generalizing ts with
  | intro t _ iht =>
    induction hts with
    | intro ts hts ihts =>
      refine Acc.intro _ fun ts' ⟨ticket, m, failed, m', h⟩ => ?_
      rw [fireAny] at h
      split at h
      next t' m'' ht' =>
        cases h
        exact iht t' ⟨ticket, m, _, ht'⟩ (Acc.intro ts hts)
      next =>
        obtain ⟨⟨ts'', f, m''⟩, hr, e⟩ := Option.map_eq_some_iff.1 h
        cases e
        exact ihts ts'' ⟨ticket, m, _, _, hr⟩

theorem acc_firesAny {ts : List (Thread W V V)} (h : ∀ t ∈ ts, Acc Fires t) :
    Acc FiresAny ts := by
  induction ts with
  | nil => exact Acc.intro _ fun _ ⟨_, _, _, _, h⟩ => by simp [fireAny] at h
  | cons t ts ih =>
    exact acc_firesAny_cons (h t (by simp)) (ih fun t' ht' => h t' (by simp [ht']))

theorem acc_done (result : Except Error R) : Acc Fires (done result : Thread W V R) :=
  Acc.intro _ fun _ ⟨_, _, _, h⟩ => by simp [fire] at h

theorem acc_joining {members : List (Thread W V V)} {next : List V → Job W V R}
    (hm : Acc FiresAny members) (hn : ∀ values m, Acc Fires ((next values).enter m).1)
    (failure : Option Error) : Acc Fires (joining members failure next) := by
  induction hm generalizing failure with
  | intro members _ ih =>
    refine Acc.intro _ fun t' ⟨ticket, m, m', h⟩ => ?_
    rw [fire] at h
    obtain ⟨⟨members', failed, m''⟩, hf, e⟩ := Option.map_eq_some_iff.1 h
    have e' := congrArg Prod.fst e
    simp only at e'
    rw [← e']
    unfold conclude
    split
    · split
      · exact acc_done _
      · exact hn _ _
    · exact ih members' ⟨ticket, m, _, _, hf⟩ _

theorem acc_pollAll {ls : List (Launch W V V)} (h : ∀ l ∈ ls, ∀ m, Acc Fires (l.poll m).1)
    (failure : Option Error) (m : Machine W) :
    ∀ t ∈ (Launch.pollAll ls failure m).1, Acc Fires t := by
  induction ls generalizing failure m with
  | nil => simp [Launch.pollAll]
  | cons l ls ih =>
    intro t ht
    simp only [Launch.pollAll, List.mem_cons] at ht
    rcases ht with rfl | ht
    · exact h l (by simp) m
    · exact ih (fun l' hl' => h l' (by simp [hl'])) _ _ t ht

end Thread

namespace Job

variable {W V : Type}

mutual

/-- Whatever a job has left to do when it is launched and polled ends in every order of firing. -/
theorem acc_launch {R : Type} (j : Job W V R) (w : W) (m : Machine W) :
    Acc Thread.Fires ((j.launch w).1.poll m).1 := by
  match j with
  | done result => rw [launch]; exact Thread.acc_done result
  | act update next => rw [launch]; exact acc_launch (next w) _ _
  | nap delay next =>
    rw [launch]
    simp only [Launch.poll]
    split
    · exact acc_launch (next m.now) _ _
    · refine Acc.intro _ fun t' ⟨ticket, m₁, m', h⟩ => ?_
      rw [Thread.fire] at h
      split at h
      · have e : _ = t' := congrArg Prod.fst (Option.some.inj h)
        rw [← e]
        exact acc_launch (next m₁.now) _ _
      · cases h
  | join members next =>
    rw [launch]
    simp only
    split
    · split
      · exact Thread.acc_done _
      · exact acc_launch (next _) _ _
    · simp only [Launch.poll, Thread.conclude]
      split
      · split
        · exact Thread.acc_done _
        · exact acc_launch (next _) _ _
      · refine Thread.acc_joining (Thread.acc_firesAny (Thread.acc_pollAll ?_ _ _)) ?_ _
        · exact fun l hl m' => acc_launchAll members w l hl m'
        · exact fun values m' => acc_launch (next values) _ _
termination_by structural j

theorem acc_launchAll (js : List (Job W V V)) (w : W) :
    ∀ l ∈ (launchAll js w).1, ∀ m, Acc Thread.Fires (l.poll m).1 := by
  match js with
  | [] => simp [launchAll]
  | j :: rest =>
    intro l hl m
    simp only [launchAll, List.mem_cons] at hl
    rcases hl with rfl | hl
    · exact acc_launch j w m
    · exact acc_launchAll rest _ l hl m
termination_by structural js

end

end Job

namespace Thread

variable {W V : Type}

mutual

/-- Every order of firing the naps of a thread comes to an end. -/
theorem halts {R : Type} (t : Thread W V R) : Acc Fires t := by
  match t with
  | done result => exact acc_done result
  | waiting deadline ticket next =>
    refine Acc.intro _ fun t' ⟨ticket', m, m', h⟩ => ?_
    rw [fire] at h
    split at h
    · have e : _ = t' := congrArg Prod.fst (Option.some.inj h)
      rw [← e]
      exact Job.acc_launch (next m.now) _ _
    · cases h
  | joining members failure next =>
    exact acc_joining (acc_firesAny (haltsAll members))
      (fun values m => Job.acc_launch (next values) _ _) failure
termination_by structural t

theorem haltsAll (ts : List (Thread W V V)) : ∀ t ∈ ts, Acc Fires t := by
  match ts with
  | [] => simp
  | t :: rest =>
    intro t' ht'
    rcases List.mem_cons.1 ht' with e | ht'
    · exact e ▸ halts t
    · exact haltsAll rest t' ht'
termination_by structural ts

end

/-- Firing a nap makes a thread smaller. -/
instance {R : Type} : WellFoundedRelation (Thread W V R) where
  rel := Fires
  wf := ⟨halts⟩

/-- Fires the timer that is due first until nothing waits. -/
def drive {R : Type} (t : Thread W V R) (m : Machine W) : Thread W V R × Machine W :=
  match t.due? with
  | none => (t, m)
  | some (deadline, ticket) =>
    match _h : t.fire ticket { m with now := deadline } with
    | none => (t, m)
    | some (t', m') => drive t' m'
termination_by t
decreasing_by exact ⟨ticket, _, _, by assumption⟩

/-! ## A thread that came out of a job is never stuck -/

mutual

/-- No group waits although all its members have ended. -/
def Sound {R : Type} : Thread W V R → Prop
  | done _ | waiting .. => True
  | joining members _ _ => allDone members = false ∧ SoundAll members
termination_by structural t => t

/-- Each of the threads is sound. -/
def SoundAll : List (Thread W V V) → Prop
  | [] => True
  | t :: rest => t.Sound ∧ SoundAll rest
termination_by structural ts => ts

end

theorem sound_conclude {R : Type} {members : List (Thread W V V)} {failure : Option Error}
    {next : List V → Job W V R} {proceed : List V → Machine W → Thread W V R × Machine W}
    (hm : SoundAll members) (hp : ∀ values m, (proceed values m).1.Sound) (m : Machine W) :
    (conclude members failure next proceed m).1.Sound := by
  unfold conclude
  split
  · split
    · simp [Sound]
    · exact hp _ _
  · next h => exact ⟨by simpa using h, hm⟩

theorem sound_pollAll {ls : List (Launch W V V)} (h : ∀ l ∈ ls, ∀ m, (l.poll m).1.Sound)
    (failure : Option Error) (m : Machine W) : SoundAll (Launch.pollAll ls failure m).1 := by
  induction ls generalizing failure m with
  | nil => simp [Launch.pollAll, SoundAll]
  | cons l ls ih =>
    simp only [Launch.pollAll, SoundAll]
    exact ⟨h l (by simp) m, ih (fun l' hl' => h l' (by simp [hl'])) _ _⟩

end Thread

namespace Job

variable {W V : Type}

mutual

theorem sound_launch {R : Type} (j : Job W V R) (w : W) (m : Machine W) :
    ((j.launch w).1.poll m).1.Sound := by
  match j with
  | done result => rw [launch]; simp [Launch.poll, Thread.Sound]
  | act update next => rw [launch]; exact sound_launch (next w) _ _
  | nap delay next =>
    rw [launch]
    simp only [Launch.poll]
    split
    · exact sound_launch (next m.now) _ _
    · simp [Thread.Sound]
  | join members next =>
    rw [launch]
    simp only
    split
    · split
      · simp [Launch.poll, Thread.Sound]
      · exact sound_launch (next _) _ _
    · simp only [Launch.poll]
      refine Thread.sound_conclude (Thread.sound_pollAll ?_ _ _) ?_ _
      · exact fun l hl m' => sound_launchAll members w l hl m'
      · exact fun values m' => sound_launch (next values) _ _
termination_by structural j

theorem sound_launchAll (js : List (Job W V V)) (w : W) :
    ∀ l ∈ (launchAll js w).1, ∀ m, (l.poll m).1.Sound := by
  match js with
  | [] => simp [launchAll]
  | j :: rest =>
    intro l hl m
    simp only [launchAll, List.mem_cons] at hl
    rcases hl with rfl | hl
    · exact sound_launch j w m
    · exact sound_launchAll rest _ l hl m
termination_by structural js

end

end Job

namespace Thread

variable {W V : Type}

mutual

theorem sound_fire {R : Type} (t : Thread W V R) (ht : t.Sound) (ticket : Nat) (m : Machine W)
    {t' : Thread W V R} {m' : Machine W} (h : t.fire ticket m = some (t', m')) : t'.Sound := by
  match t with
  | done result => simp [fire] at h
  | waiting deadline ticket' next =>
    rw [fire] at h
    split at h
    · have e : _ = t' := congrArg Prod.fst (Option.some.inj h)
      rw [← e]
      exact Job.sound_launch (next m.now) _ _
    · cases h
  | joining members failure next =>
    rw [fire] at h
    obtain ⟨⟨members', failed, m''⟩, hf, e⟩ := Option.map_eq_some_iff.1 h
    have e' := congrArg Prod.fst e
    simp only at e'
    rw [← e']
    rw [Sound] at ht
    exact sound_conclude (sound_fireAny members ht.2 ticket m hf)
      (fun values m => Job.sound_launch (next values) _ _) _
termination_by structural t

theorem sound_fireAny (ts : List (Thread W V V)) (hts : SoundAll ts) (ticket : Nat)
    (m : Machine W) {ts' : List (Thread W V V)} {failed : Option Error} {m' : Machine W}
    (h : fireAny ticket ts m = some (ts', failed, m')) : SoundAll ts' := by
  match ts with
  | [] => simp [fireAny] at h
  | t :: rest =>
    rw [SoundAll] at hts
    rw [fireAny] at h
    split at h
    next t' m'' ht' =>
      cases h
      rw [SoundAll]
      exact ⟨sound_fire t hts.1 ticket m ht', hts.2⟩
    next =>
      obtain ⟨⟨ts'', f, m''⟩, hr, e⟩ := Option.map_eq_some_iff.1 h
      cases e
      rw [SoundAll]
      exact ⟨hts.1, sound_fireAny rest hts.2 ticket m hr⟩
termination_by structural ts

end

mutual

/-- A sound thread that has not ended has a nap to wait for. -/
theorem timers_ne_nil {R : Type} (t : Thread W V R) (ht : t.Sound) (hr : t.result? = none) :
    t.timers ≠ [] := by
  match t with
  | done result => simp [result?] at hr
  | waiting deadline ticket next => simp [timers]
  | joining members failure next =>
    rw [Sound] at ht
    rw [timers]
    exact timersAll_ne_nil members ht.2 ht.1
termination_by structural t

theorem timersAll_ne_nil (ts : List (Thread W V V)) (hts : SoundAll ts)
    (hd : allDone ts = false) : timersAll ts ≠ [] := by
  match ts with
  | [] => simp [allDone] at hd
  | t :: rest =>
    rw [SoundAll] at hts
    rw [timersAll]
    intro h
    obtain ⟨h₁, h₂⟩ := List.append_eq_nil_iff.1 h
    cases hr : t.result? with
    | none => exact timers_ne_nil t hts.1 hr h₁
    | some result =>
      refine timersAll_ne_nil rest hts.2 ?_ h₂
      simpa [allDone, hr] using hd
termination_by structural ts

end

mutual

/-- A ticket that a thread waits for can be fired. -/
theorem fire_isSome {R : Type} (t : Thread W V R) {deadline ticket : Nat}
    (h : (deadline, ticket) ∈ t.timers) (m : Machine W) : (t.fire ticket m).isSome := by
  match t with
  | done result => simp [timers] at h
  | waiting deadline' ticket' next =>
    simp [timers] at h
    simp [fire, h.2]
  | joining members failure next =>
    rw [timers] at h
    rw [fire, Option.isSome_map]
    exact fireAny_isSome members h m
termination_by structural t

theorem fireAny_isSome (ts : List (Thread W V V)) {deadline ticket : Nat}
    (h : (deadline, ticket) ∈ timersAll ts) (m : Machine W) : (fireAny ticket ts m).isSome := by
  match ts with
  | [] => simp [timersAll] at h
  | t :: rest =>
    rw [timersAll, List.mem_append] at h
    rw [fireAny]
    split
    · rfl
    · next hn =>
      rw [Option.isSome_map]
      refine fireAny_isSome rest (h.resolve_left fun h₁ => ?_) m
      have := fire_isSome t h₁ m
      simp [hn] at this
termination_by structural ts

end

theorem foldl_earlier_mem (first : Nat × Nat) (rest : List (Nat × Nat)) :
    rest.foldl earlier first ∈ first :: rest := by
  induction rest generalizing first with
  | nil => simp
  | cons b rest ih =>
    rw [List.foldl_cons]
    have h := ih (earlier first b)
    rcases List.mem_cons.1 h with h | h
    · rw [h, earlier]
      split <;> simp
    · simp [h]

theorem due?_mem {R : Type} {t : Thread W V R} {timer : Nat × Nat} (h : t.due? = some timer) :
    timer ∈ t.timers := by
  rw [due?] at h
  split at h
  · cases h
  · next first rest e =>
    cases h
    rw [e]
    exact foldl_earlier_mem first rest

theorem due?_ne_none {R : Type} {t : Thread W V R} (ht : t.Sound) (hr : t.result? = none) :
    t.due? ≠ none := by
  rw [due?]
  split
  · next h => exact absurd h (timers_ne_nil t ht hr)
  · simp

/-- A sound thread is driven to a result. -/
theorem result?_drive {R : Type} (t : Thread W V R) (ht : t.Sound) (m : Machine W) :
    (t.drive m).1.result?.isSome := by
  rw [drive]
  split
  · next hd =>
    cases hr : t.result? with
    | none => exact absurd hd (due?_ne_none ht hr)
    | some _ => rfl
  · next deadline ticket hd =>
    have hs := fire_isSome t (due?_mem hd) { m with now := deadline }
    split
    · next h => simp [h] at hs
    · next t' m' h => exact result?_drive t' (sound_fire t ht _ _ h) m'
termination_by t
decreasing_by exact ⟨_, _, _, by assumption⟩

end Thread

namespace Job

variable {W V R : Type}

/-- Runs a job to its end: its result, and the machine afterwards. -/
def run (j : Job W V R) (m : Machine W) : Except Error R × Machine W :=
  let start := j.enter m
  let final := start.1.drive start.2
  (final.1.result?.get (Thread.result?_drive _ (sound_launch j _ _) _), final.2)

end Job

end Parlance
