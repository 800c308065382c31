import Parlance.Job

/-
  How a job runs. Launching a job does all of its work that needs no waiting: it changes the
  world up to the first nap, starting every member of a group on the way, in order. What is left
  is either a result or a suspended rest. Polling a suspended rest starts its naps: each nap that
  takes time gets a deadline and a ticket, counted up in the order in which naps start, and a nap
  of no time is over at once. What then waits is a thread, and firing a ticket ends one nap and
  lets that part go on as far as it can.

  A group reports the failure of the member of least index that failed when it was launched, or
  else the first failure in order of completion, and not before all members have ended.
-/

namespace Parlance

/-- The world, the time, and the number of tickets given out. On a frozen clock every nap is over
at once. -/
structure Machine (W : Type) where
  world : W
  now : Nat := 0
  issued : Nat := 0
  frozen : Bool := false

/-- Work that waits for naps to end. -/
inductive Thread (W V : Type) : Type → Type 1 where
  | done {R : Type} (result : Except Error R) : Thread W V R
  | waiting {R : Type} (deadline ticket : Nat) (next : Nat → Job W V R) : Thread W V R
  | joining {R : Type} (members : List (Thread W V V)) (failure : Option Error)
      (next : List V → Job W V R) : Thread W V R

/-- What launching a job gives: a result, or a rest that runs when it is polled. -/
inductive Launch (W V R : Type) where
  | settled (result : Except Error R)
  | suspended (poll : Machine W → Thread W V R × Machine W)

namespace Thread

variable {W V R : Type}

/-- The result of a thread that has ended. -/
def result? : Thread W V R → Option (Except Error R)
  | done result => some result
  | waiting .. | joining .. => none

/-- The failure of a thread that has ended with one. -/
def failure? : Thread W V R → Option Error
  | done (.error error) => some error
  | done (.ok _) | waiting .. | joining .. => none

/-- The values of threads that have all ended well; those of other threads are left out. -/
def values : List (Thread W V V) → List V
  | [] => []
  | done (.ok value) :: rest => value :: values rest
  | _ :: rest => values rest

/-- All of them have ended. -/
def allDone (threads : List (Thread W V V)) : Bool := threads.all (·.result?.isSome)

/-- Ends a group whose members have all ended: with the failure, or by going on with the values.
A group with a member that has not ended waits. -/
def conclude (members : List (Thread W V V)) (failure : Option Error) (next : List V → Job W V R)
    (proceed : List V → Machine W → Thread W V R × Machine W) (m : Machine W) :
    Thread W V R × Machine W :=
  if allDone members then
    match failure with
    | some error => (done (.error error), m)
    | none => proceed (values members) m
  else (joining members failure next, m)

end Thread

namespace Launch

variable {W V R : Type}

/-- The result is there without any waiting. -/
def isReady : Launch W V R → Bool
  | settled _ => true
  | suspended _ => false

/-- Starts the naps of the rest. -/
def poll : Launch W V R → Machine W → Thread W V R × Machine W
  | settled result, m => (.done result, m)
  | suspended poll, m => poll m

/-- The first failure among what has settled. -/
def failure? : List (Launch W V V) → Option Error
  | [] => none
  | settled (.error error) :: _ => some error
  | _ :: rest => failure? rest

/-- The values of launches that have all settled well; those of others are left out. -/
def values : List (Launch W V V) → List V
  | [] => []
  | settled (.ok value) :: rest => value :: values rest
  | _ :: rest => values rest

/-- Polls the members of a group in order, and notes the first failure. -/
def pollAll : List (Launch W V V) → Option Error → Machine W →
    List (Thread W V V) × Option Error × Machine W
  | [], failure, m => ([], failure, m)
  | l :: rest, failure, m =>
    let (t, m) := l.poll m
    let (ts, failure, m) := pollAll rest (failure.or t.failure?) m
    (t :: ts, failure, m)

end Launch

namespace Job

variable {W V : Type}

mutual

/-- Does all the work that needs no waiting. -/
def launch {R : Type} : Job W V R → W → Launch W V R × W
  | done result, w => (.settled result, w)
  | act update next, w => (next w).launch (update w)
  | nap delay next, w =>
    (.suspended fun m =>
      if delay = 0 ∨ m.frozen then
        let (l, w) := (next m.now).launch m.world
        l.poll { m with world := w }
      else
        (.waiting (m.now + delay) m.issued next, { m with issued := m.issued + 1 }), w)
  | join members next, w =>
    let (started, w) := launchAll members w
    if started.all (·.isReady) then
      match Launch.failure? started with
      | some error => (.settled (.error error), w)
      | none => (next (Launch.values started)).launch w
    else
      (.suspended fun m =>
        let (threads, failure, m) := Launch.pollAll started (Launch.failure? started) m
        Thread.conclude threads failure next
          (fun values m =>
            let (l, w) := (next values).launch m.world
            l.poll { m with world := w }) m, w)
termination_by structural j => j

/-- Launches the members of a group in order. -/
def launchAll : List (Job W V V) → W → List (Launch W V V) × W
  | [], w => ([], w)
  | j :: rest, w =>
    let (l, w) := j.launch w
    let (ls, w) := launchAll rest w
    (l :: ls, w)
termination_by structural js => js

end

/-- Launches a job and starts its naps. -/
def enter {R : Type} (j : Job W V R) (m : Machine W) : Thread W V R × Machine W :=
  let (l, w) := j.launch m.world
  l.poll { m with world := w }

end Job

namespace Thread

variable {W V : Type}

mutual

/-- Ends the nap with the given ticket and goes on from there, if there is such a nap. -/
def fire {R : Type} (ticket : Nat) : Thread W V R → Machine W → Option (Thread W V R × Machine W)
  | done _, _ => none
  | waiting _ t next, m => if t = ticket then some ((next m.now).enter m) else none
  | joining members failure next, m =>
    (fireAny ticket members m).map fun (members, failed, m) =>
      conclude members (failure.or failed) next (fun values m => (next values).enter m) m
termination_by structural t => t

/-- Ends the nap in the first thread that has the ticket, and gives the failure with which that
thread has then ended, if it has. -/
def fireAny (ticket : Nat) : List (Thread W V V) → Machine W →
    Option (List (Thread W V V) × Option Error × Machine W)
  | [], _ => none
  | t :: rest, m =>
    match fire ticket t m with
    | some (t, m) => some (t :: rest, t.failure?, m)
    | none => (fireAny ticket rest m).map fun (ts, failed, m) => (t :: ts, failed, m)
termination_by structural ts => ts

end

mutual

/-- The deadlines and tickets of the naps that have not ended. -/
def timers {R : Type} : Thread W V R → List (Nat × Nat)
  | done _ => []
  | waiting deadline ticket _ => [(deadline, ticket)]
  | joining members _ _ => timersAll members
termination_by structural t => t

/-- The deadlines and tickets of several threads. -/
def timersAll : List (Thread W V V) → List (Nat × Nat)
  | [] => []
  | t :: rest => t.timers ++ timersAll rest
termination_by structural ts => ts

end

/-- The earlier of two timers; of two with one deadline, the one with the smaller ticket. -/
def earlier (a b : Nat × Nat) : Nat × Nat :=
  if a.1 < b.1 ∨ (a.1 = b.1 ∧ a.2 ≤ b.2) then a else b

/-- The timer that is due first. -/
def due? {R : Type} (t : Thread W V R) : Option (Nat × Nat) :=
  match t.timers with
  | [] => none
  | first :: rest => some (rest.foldl earlier first)

end Thread

end Parlance
