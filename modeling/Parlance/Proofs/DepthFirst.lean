import Mathlib.Logic.Relation

/-
  Depth-first walks of a graph, in pre-order. A walk has a list of what it has entered, oldest
  first, and a stack of what is still to be visited. What the test `skips` says of the list is
  passed over; anything else is entered and put at the end of the list, and what it leads to is
  visited before the rest of the stack. The test is a parameter: `x ∈ seen` gives the walk that
  enters everything once, and the walk behind a grammar goes by tags.

  A walk that has a derivation ends. `DepthFirst.covers` is the invariant of the search: behind
  the walk, all that was on the stack and all that anything entered leads to is skipped.
-/

namespace Parlance

variable {α : Type}

/-- From a list of what has been entered, visiting a stack ends with another list. -/
inductive DepthFirst (next : α → List α) (skips : List α → α → Prop) :
    List α → List α → List α → Prop where
  | done {seen : List α} : DepthFirst next skips seen [] seen
  | skipped {seen stack out : List α} {x : α} :
      skips seen x → DepthFirst next skips seen stack out →
      DepthFirst next skips seen (x :: stack) out
  | entered {seen stack mid out : List α} {x : α} :
      ¬ skips seen x → DepthFirst next skips (seen ++ [x]) (next x) mid →
      DepthFirst next skips mid stack out → DepthFirst next skips seen (x :: stack) out

namespace DepthFirst

variable {next : α → List α} {skips : List α → α → Prop} {seen stack out : List α}

/-- A stack is visited from the top down. -/
theorem append {mid stack' : List α} (h : DepthFirst next skips seen stack mid)
    (h' : DepthFirst next skips mid stack' out) :
    DepthFirst next skips seen (stack ++ stack') out := by
  induction h with
  | done => exact h'
  | skipped hs _ ih => exact .skipped hs (ih h')
  | entered hs hx _ _ ih => exact .entered hs hx (ih h')

/-- What has been entered stays in its place. -/
theorem exists_append (h : DepthFirst next skips seen stack out) : ∃ more, out = seen ++ more := by
  induction h with
  | done => exact ⟨[], (List.append_nil _).symm⟩
  | skipped _ _ ih => exact ih
  | @entered seen _ _ _ x _ _ _ ihx ih =>
    obtain ⟨more, rfl⟩ := ihx
    obtain ⟨more', rfl⟩ := ih
    exact ⟨[x] ++ more ++ more', by simp only [List.append_assoc]⟩

/-- There is one walk at most: what is on top of the stack is either skipped or entered. -/
theorem unique {out' : List α} (h : DepthFirst next skips seen stack out)
    (h' : DepthFirst next skips seen stack out') : out' = out := by
  induction h generalizing out' with
  | done =>
    cases h'
    rfl
  | skipped hs _ ih =>
    cases h' with
    | skipped _ hrest => exact ih hrest
    | entered hn _ _ => exact absurd hs hn
  | entered hn _ _ ihx ih =>
    cases h' with
    | skipped hs _ => exact absurd hs hn
    | entered _ hx hrest =>
      cases ihx hx
      exact ih hrest

/-- A walk keeps what entering keeps, if only what satisfies `good` can come up. -/
theorem invariant (good : α → Prop) (P : List α → Prop)
    (hnext : ∀ x, good x → ∀ y ∈ next x, good y)
    (hP : ∀ seen x, P seen → good x → ¬ skips seen x → P (seen ++ [x]))
    (h : DepthFirst next skips seen stack out) (hseen : P seen) (hstack : ∀ x ∈ stack, good x) :
    P out := by
  induction h with
  | done => exact hseen
  | skipped _ _ ih => exact ih hseen fun x hx => hstack x (List.mem_cons_of_mem _ hx)
  | entered hs _ _ ihx ih =>
    have hx := hstack _ List.mem_cons_self
    exact ih (ihx (hP _ _ hseen hx hs) (hnext _ hx))
      fun y hy => hstack y (List.mem_cons_of_mem _ hy)

/-- Everything entered can be reached from the stack. -/
theorem reachable {root : α} (h : DepthFirst next skips [] [root] out) {x : α} (hx : x ∈ out) :
    Relation.ReflTransGen (fun a b => b ∈ next a) root x := by
  refine h.invariant (Relation.ReflTransGen (fun a b => b ∈ next a) root)
    (fun seen => ∀ x ∈ seen, Relation.ReflTransGen (fun a b => b ∈ next a) root x)
    (fun x hx y hy => hx.tail hy) ?_ (by simp) (by simp [Relation.ReflTransGen.refl]) x hx
  intro seen x hseen hx _
  exact List.forall_mem_append.mpr ⟨hseen, List.forall_mem_singleton.mpr hx⟩

/-- Two tests that agree on what can come up give the same walk. -/
theorem congr {skips' : List α → α → Prop} (good : α → Prop)
    (hnext : ∀ x, good x → ∀ y ∈ next x, good y)
    (hskips : ∀ seen x, (∀ y ∈ seen, good y) → good x → (skips seen x ↔ skips' seen x))
    (h : DepthFirst next skips seen stack out) (hseen : ∀ x ∈ seen, good x)
    (hstack : ∀ x ∈ stack, good x) : DepthFirst next skips' seen stack out := by
  have hgrow : ∀ (seen : List α) (x : α), (∀ y ∈ seen, good y) → good x →
      ∀ y ∈ seen ++ [x], good y := fun seen x hseen hx =>
    List.forall_mem_append.mpr ⟨hseen, List.forall_mem_singleton.mpr hx⟩
  induction h with
  | done => exact .done
  | skipped hs _ ih =>
    have hx := hstack _ List.mem_cons_self
    exact .skipped ((hskips _ _ hseen hx).mp hs)
      (ih hseen fun y hy => hstack y (List.mem_cons_of_mem _ hy))
  | entered hs hwalk _ ihx ih =>
    have hx := hstack _ List.mem_cons_self
    have hseen' := hgrow _ _ hseen hx
    have hmid := hwalk.invariant good (fun seen => ∀ y ∈ seen, good y) hnext
      (fun seen x hseen hx _ => hgrow seen x hseen hx) hseen' (hnext _ hx)
    exact .entered (fun hs' => hs ((hskips _ _ hseen hx).mpr hs')) (ihx hseen' (hnext _ hx))
      (ih hmid fun y hy => hstack y (List.mem_cons_of_mem _ hy))

/-- Two graphs that agree on what can come up give the same walk. -/
theorem congr_next {next' : α → List α} (good : α → Prop)
    (hnext : ∀ x, good x → ∀ y ∈ next x, good y) (heq : ∀ x, good x → next' x = next x)
    (h : DepthFirst next skips seen stack out) (hstack : ∀ x ∈ stack, good x) :
    DepthFirst next' skips seen stack out := by
  induction h with
  | done => exact .done
  | skipped hs _ ih => exact .skipped hs (ih fun y hy => hstack y (List.mem_cons_of_mem _ hy))
  | entered hs _ _ ihx ih =>
    have hx := hstack _ List.mem_cons_self
    have hwalk := ihx (hnext _ hx)
    rw [← heq _ hx] at hwalk
    exact .entered hs hwalk (ih fun y hy => hstack y (List.mem_cons_of_mem _ hy))

/-- What is skipped once is always skipped, and so is what has been entered. -/
structure Marks (skips : List α → α → Prop) : Prop where
  of_mem {seen : List α} {x : α} : x ∈ seen → skips seen x
  append {seen : List α} {x : α} (more : List α) : skips seen x → skips (seen ++ more) x

/-- Behind a walk everything on the stack is skipped, and so is everything that leads on from what
the walk has entered. -/
theorem covers (hm : Marks skips) (h : DepthFirst next skips seen stack out) :
    (∀ x ∈ stack, skips out x) ∧ ∀ x ∈ out, x ∉ seen → ∀ y ∈ next x, skips out y := by
  induction h with
  | done => exact ⟨nofun, fun x hx hn => absurd hx hn⟩
  | @skipped seen stack out x hs hrest ih =>
    obtain ⟨more, rfl⟩ := hrest.exists_append
    refine ⟨fun y hy => ?_, ih.2⟩
    rcases List.mem_cons.mp hy with rfl | hy
    · exact hm.append more hs
    · exact ih.1 y hy
  | @entered seen stack mid out x hs hx hrest ihx ih =>
    obtain ⟨more, hmid⟩ := hx.exists_append
    obtain ⟨more', hout⟩ := hrest.exists_append
    have hlast : ∀ y, skips mid y → skips out y := fun y hy => hout ▸ hm.append more' hy
    refine ⟨fun y hy => ?_, fun y hy hn z hz => ?_⟩
    · rcases List.mem_cons.mp hy with rfl | hy
      · exact hm.of_mem (by simp [hout, hmid])
      · exact ih.1 y hy
    · by_cases hymid : y ∈ mid
      · by_cases hyx : y = x
        · subst hyx
          exact hlast z (ihx.1 z hz)
        · exact hlast z (ihx.2 y hymid (by simp [hn, hyx]) z hz)
      · exact ih.2 y hy hymid z hz

end DepthFirst

end Parlance
