import Mathlib.Data.Fintype.Card
import Mathlib.Data.Set.Finite.Basic
import Mathlib.Logic.Relation
import Parlance.Language.Vocabulary

/-
  The graph of the expressions of a vocabulary. A type refers to the arguments of its rules and to
  its fallback, a repetition to its child. The last two are silent: they are followed without
  reading a word. Arguments may form any cycles; `Grounded` says that silent references form none
  among the expressions that can be reached, and `Grounded.acc` that then no silent path is
  infinite. It is here that the names of a vocabulary have to be finitely many.
-/

namespace Parlance

variable {ι W V : Type}

namespace Vocabulary

/-- The first expression leads to the second without a word being read. -/
inductive Silent (v : Vocabulary ι W V) : Expr ι V → Expr ι V → Prop where
  | fallback {name : ι} {table : Table ι W V} {e : Expr ι V} :
      v.table name = some table → table.fallback = some e → Silent v (.type name) e
  | item {r : Repetition V} {child : Expr ι V} : Silent v (.rep r child) child

/-- The first expression refers to the second. -/
inductive Refers (v : Vocabulary ι W V) : Expr ι V → Expr ι V → Prop where
  | argument {name : ι} {table : Table ι W V} {rule : Rule ι W V} {e : Expr ι V} :
      v.table name = some table → rule ∈ table.rules → e ∈ rule.args → Refers v (.type name) e
  | silent {e e' : Expr ι V} : Silent v e e' → Refers v e e'

/-- The second expression is part of what the first is made of. -/
def Reachable (v : Vocabulary ι W V) : Expr ι V → Expr ι V → Prop :=
  Relation.ReflTransGen v.Refers

/-- No expression that can be reached from `root` leads back to itself silently. -/
def Grounded (v : Vocabulary ι W V) (root : Expr ι V) : Prop :=
  ∀ e, v.Reachable root e → ¬ Relation.TransGen v.Silent e e

theorem Reachable.refl (v : Vocabulary ι W V) (e : Expr ι V) : v.Reachable e e :=
  Relation.ReflTransGen.refl

theorem Reachable.trans {v : Vocabulary ι W V} {e e' e'' : Expr ι V} (h : v.Reachable e e')
    (h' : v.Reachable e' e'') : v.Reachable e e'' :=
  Relation.ReflTransGen.trans h h'

theorem Reachable.of_silent {v : Vocabulary ι W V} {e e' : Expr ι V} (h : v.Silent e e') :
    v.Reachable e e' :=
  Relation.ReflTransGen.single (.silent h)

theorem Reachable.of_argument {v : Vocabulary ι W V} {name : ι} {table : Table ι W V}
    {rule : Rule ι W V} {e : Expr ι V} (ht : v.table name = some table) (hr : rule ∈ table.rules)
    (he : e ∈ rule.args) : v.Reachable (.type name) e :=
  Relation.ReflTransGen.single (.argument ht hr he)

theorem Reachable.of_silentPath {v : Vocabulary ι W V} {e e' : Expr ι V}
    (h : Relation.ReflTransGen v.Silent e e') : v.Reachable e e' := by
  induction h with
  | refl => exact .refl v e
  | tail _ hs ih => exact ih.trans (.of_silent hs)

theorem Grounded.of_reachable {v : Vocabulary ι W V} {root e : Expr ι V} (h : v.Grounded root)
    (he : v.Reachable root e) : v.Grounded e :=
  fun e' he' => h e' (he.trans he')

/-- Silent references form no cycle if each of them lowers a rank. -/
theorem Grounded.of_rank {v : Vocabulary ι W V} {root : Expr ι V} (rank : Expr ι V → Nat)
    (h : ∀ e e', v.Silent e e' → rank e' < rank e) : v.Grounded root := by
  intro e _ hcycle
  have hlt : ∀ e', Relation.TransGen v.Silent e e' → rank e' < rank e := by
    intro e' he'
    induction he' with
    | single hs => exact h _ _ hs
    | tail _ hs ih => exact Nat.lt_trans (h _ _ hs) ih
  exact Nat.lt_irrefl _ (hlt e hcycle)

/-! ## Silent paths are finite -/

/-- A silent path is finite if it is so from each defined type on the way. Only types and
repetitions go on, and a repetition goes on to a smaller expression. -/
theorem acc_of_types {v : Vocabulary ι W V} (e : Expr ι V)
    (h : ∀ name table, v.table name = some table →
      Relation.ReflTransGen v.Silent e (.type name) → Acc (flip v.Silent) (.type name)) :
    Acc (flip v.Silent) e := by
  induction e with
  | prim p => exact Acc.intro _ fun e' hs => nomatch hs
  | type name =>
    cases ht : v.table name with
    | none =>
      refine Acc.intro _ fun e' hs => ?_
      cases hs with
      | fallback ht' _ =>
        rw [ht] at ht'
        cases ht'
    | some table => exact h name table ht .refl
  | rep r child ih =>
    refine Acc.intro _ fun e' hs => ?_
    cases hs with
    | item => exact ih fun name table ht hp => h name table ht (.head .item hp)

/-- The names of the defined types that can be reached. -/
abbrev ReachableName (v : Vocabulary ι W V) (root : Expr ι V) : Type :=
  { name : ι // name ∈ v.names ∧ v.Reachable root (.type name) }

theorem finite_reachableName (v : Vocabulary ι W V) (root : Expr ι V) :
    Finite (v.ReachableName root) := by
  have hnames : Set.Finite { name : ι | name ∈ v.names } := List.finite_toSet v.names
  exact (hnames.subset fun _ h => h.1).to_subtype

theorem Grounded.wellFounded_names {v : Vocabulary ι W V} {root : Expr ι V}
    (h : v.Grounded root) :
    WellFounded fun m n : v.ReachableName root =>
      Relation.TransGen v.Silent (.type n.1) (.type m.1) := by
  have := finite_reachableName v root
  have : IsTrans (v.ReachableName root) fun m n =>
      Relation.TransGen v.Silent (.type n.1) (.type m.1) :=
    ⟨fun _ _ _ hmn hno => Relation.TransGen.trans hno hmn⟩
  have : Std.Irrefl fun m n : v.ReachableName root =>
      Relation.TransGen v.Silent (.type n.1) (.type m.1) :=
    ⟨fun n hn => h _ n.2.2 hn⟩
  exact Finite.wellFounded_of_trans_of_irrefl _

/-- In a grounded graph every silent path comes to an end. -/
theorem Grounded.acc {v : Vocabulary ι W V} {root : Expr ι V} (h : v.Grounded root) :
    Acc (flip v.Silent) root := by
  have htypes : ∀ n : v.ReachableName root, Acc (flip v.Silent) (.type n.1) := by
    intro n
    induction n using h.wellFounded_names.induction with
    | _ n ih =>
      refine Acc.intro _ fun e hs => acc_of_types e fun name table ht hp => ?_
      have hpath : Relation.TransGen v.Silent (.type n.1) (.type name) :=
        Relation.TransGen.head' hs hp
      have hreach : v.Reachable root (.type name) :=
        n.2.2.trans ((Reachable.of_silent hs).trans (.of_silentPath hp))
      exact ih ⟨name, v.mem_names name (by rw [ht]; rfl), hreach⟩ hpath
  refine acc_of_types root fun name table ht hp => ?_
  exact htypes ⟨name, v.mem_names name (by rw [ht]; rfl), .of_silentPath hp⟩

end Vocabulary

end Parlance
