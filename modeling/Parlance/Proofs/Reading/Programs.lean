import Parlance.Proofs.Graph
import Parlance.Proofs.Reading.Rules

/-
  The programs of an expression. `v.Builds e p` says that `p` is put together as `e` prescribes:
  literals by primitives, calls by the rules of types, lists by repetitions. Every program that is
  read is such a program, so that what holds of every expression that can be reached holds of
  every node of an accepted program (`Vocabulary.Builds.every`).
-/

namespace Parlance

variable {ι W V : Type}

mutual

/-- The program is put together as the expression prescribes. -/
inductive Vocabulary.Builds (v : Vocabulary ι W V) : Expr ι V → Program ι W V → Prop where
  | literal {p : Primitive V} {token : Token} {value : V} :
      p.convert token.value = .ok value → Builds v (.prim p) (.literal p.tag token value)
  | call {name : ι} {table : Table ι W V} {keyword : Token} {rule : Rule ι W V}
      {args : List (Program ι W V)} :
      v.table name = some table → table.lookup keyword.value = some rule →
      BuildsAll v rule.args args → Builds v (.type name) (.call (v.tag name) keyword rule args)
  | fallback {name : ι} {table : Table ι W V} {e : Expr ι V} {p : Program ι W V} :
      v.table name = some table → table.fallback = some e → Builds v e p →
      Builds v (.type name) p
  | list {r : Repetition V} {child : Expr ι V} {items : List (Program ι W V)}
      {exit : Option Token} :
      BuildsAll v (List.replicate items.length child) items →
      Builds v (.rep r child) (.list ((Expr.rep r child).tag v.tag) r items exit)

/-- One program per expression. -/
inductive Vocabulary.BuildsAll (v : Vocabulary ι W V) :
    List (Expr ι V) → List (Program ι W V) → Prop where
  | nil : BuildsAll v [] []
  | cons {e : Expr ι V} {es : List (Expr ι V)} {p : Program ι W V} {ps : List (Program ι W V)} :
      Builds v e p → BuildsAll v es ps → BuildsAll v (e :: es) (p :: ps)

end

/-! ## What is read is put together -/

mutual

theorem Reads.builds {v : Vocabulary ι W V} {e : Expr ι V} {c : Cursor}
    {r : Reply (Program ι W V)} (h : Reads v e c r) {p : Program ι W V} {c' : Cursor}
    (hr : r = .accepted p c') : v.Builds e p := by
  match h with
  | .prim =>
    obtain ⟨token, value, -, hv, rfl⟩ := Primitive.parse_eq_accepted hr
    exact .literal hv
  | .undefined _ | .exhausted _ _ | .unexpected _ _ _ _ => cases hr
  | .keyword ht _ hl ha =>
    obtain ⟨args, hargs, rfl⟩ := Reply.map_eq_accepted hr
    exact .call ht hl (ha.builds hargs)
  | .fallback ht _ _ he hrest =>
    exact .fallback ht he (hrest.builds (Reply.mapError_eq_accepted hr))
  | .rep hitems =>
    obtain ⟨⟨items, exit⟩, hreply, rfl⟩ := Reply.map_eq_accepted hr
    exact .list (hitems.builds hreply)

theorem ReadsArgs.builds {v : Vocabulary ι W V} {es : List (Expr ι V)} {c : Cursor}
    {r : Reply (List (Program ι W V))} (h : ReadsArgs v es c r) {ps : List (Program ι W V)}
    {c' : Cursor} (hr : r = .accepted ps c') : v.BuildsAll es ps := by
  match h with
  | .nil =>
    cases hr
    exact .nil
  | .cons he hes =>
    obtain ⟨ps, hps, rfl⟩ := Reply.map_eq_accepted hr
    exact .cons (he.builds rfl) (hes.builds hps)
  | .failed _ => cases hr

theorem ReadsItems.builds {v : Vocabulary ι W V} {r : Repetition V} {child : Expr ι V}
    {c : Cursor} {reply : Reply (List (Program ι W V) × Option Token)}
    (h : ReadsItems v r child c reply) {ps : List (Program ι W V)} {exit : Option Token}
    {c' : Cursor} (hr : reply = .accepted (ps, exit) c') :
    v.BuildsAll (List.replicate ps.length child) ps := by
  match h with
  | .finished _ | .exit _ _ =>
    cases hr
    exact .nil
  | .item _ _ hp hi =>
    obtain ⟨⟨ps, exit⟩, hps, e⟩ := Reply.map_eq_accepted hr
    cases e
    exact .cons (hp.builds rfl) (hi.builds hps)
  | .failed _ _ _ => cases hr

end

theorem Language.builds_of_parse {l : Language ι W V} {words : List String} {p : Program ι W V}
    {c : Cursor} (h : l.parse words = .accepted p c) : l.vocabulary.Builds l.root p :=
  (Language.parse_eq_accepted.mp h).1.builds rfl

/-! ## What holds of every node -/

namespace Program

mutual

/-- Every literal has a tag as required, and every list a repetition as required. -/
def Every (T : String → Prop) (S : Repetition V → Prop) : Program ι W V → Prop
  | literal tag _ _ => T tag
  | call _ _ _ args => EveryAll T S args
  | list _ r items _ => S r ∧ EveryAll T S items
termination_by structural p => p

/-- Every node of a list of programs is as required. -/
def EveryAll (T : String → Prop) (S : Repetition V → Prop) : List (Program ι W V) → Prop
  | [] => True
  | p :: rest => p.Every T S ∧ EveryAll T S rest
termination_by structural ps => ps

end

end Program

section

variable {v : Vocabulary ι W V} {T : String → Prop} {S : Repetition V → Prop} {root : Expr ι V}

mutual

/-- What holds of the expressions that can be reached holds of the nodes that they build. -/
theorem Vocabulary.Builds.every (hT : ∀ p, v.Reachable root (.prim p) → T p.tag)
    (hS : ∀ r child, v.Reachable root (.rep r child) → S r) {e : Expr ι V} {p : Program ι W V}
    (h : v.Builds e p) (he : v.Reachable root e) : p.Every T S := by
  match h with
  | .literal _ => exact hT _ he
  | .call ht hl hargs =>
    refine hargs.every hT hS fun e' he' => he.trans (.of_argument ht ?_ he')
    exact List.mem_of_find?_eq_some hl
  | .fallback ht hf hp => exact hp.every hT hS (he.trans (.of_silent (.fallback ht hf)))
  | .list hitems =>
    refine ⟨hS _ _ he, hitems.every hT hS fun e' he' => ?_⟩
    rw [List.eq_of_mem_replicate he']
    exact he.trans (.of_silent .item)

theorem Vocabulary.BuildsAll.every (hT : ∀ p, v.Reachable root (.prim p) → T p.tag)
    (hS : ∀ r child, v.Reachable root (.rep r child) → S r) {es : List (Expr ι V)}
    {ps : List (Program ι W V)} (h : v.BuildsAll es ps) (hes : ∀ e ∈ es, v.Reachable root e) :
    Program.EveryAll T S ps := by
  match h with
  | .nil => trivial
  | .cons hp hps =>
    exact ⟨hp.every hT hS (hes _ List.mem_cons_self),
      hps.every hT hS fun e he => hes e (List.mem_cons_of_mem _ he)⟩

end

end

end Parlance
