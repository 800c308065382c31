import Parlance.Job
import Parlance.Language.Expr

/-
  Vocabularies. A type has a tag and, once it is defined, a table: rules that are picked by their
  keywords, and a fallback for every other word. The names of a vocabulary are finitely many, and
  its rules and fallbacks may refer to each other in any cycles. `W` is the world that handlers
  change.
-/

namespace Parlance

/-- A keyword, the expressions of its arguments, and what it does with their values. -/
structure Rule (ι W V : Type) where
  keyword : String
  args : List (Expr ι V)
  handler : List V → Job W V V

/-- The rules of a type, with distinct keywords, and the expression for everything else. -/
structure Table (ι W V : Type) where
  rules : List (Rule ι W V)
  fallback : Option (Expr ι V)
  nodup_keywords : (rules.map Rule.keyword).Nodup

/-- The types of a language: each name has a tag and, once it is defined, a table. Only the names
listed in `names` can be defined. -/
structure Vocabulary (ι W V : Type) where
  tag : ι → String
  table : ι → Option (Table ι W V)
  names : List ι
  mem_names : ∀ i, (table i).isSome → i ∈ names

namespace Table

variable {ι W V : Type}

/-- Puts a rule in the place of the rule with the same keyword, or else at the end. -/
def insertRule (rule : Rule ι W V) : List (Rule ι W V) → List (Rule ι W V)
  | [] => [rule]
  | r :: rest => if r.keyword = rule.keyword then rule :: rest else r :: insertRule rule rest

theorem map_keyword_insertRule (rule : Rule ι W V) (rules : List (Rule ι W V)) :
    (insertRule rule rules).map Rule.keyword =
      if rule.keyword ∈ rules.map Rule.keyword then rules.map Rule.keyword
      else rules.map Rule.keyword ++ [rule.keyword] := by
  induction rules with
  | nil => simp [insertRule]
  | cons first rules ih =>
    unfold insertRule
    split
    · next h => simp [h]
    · next h =>
      have hne : rule.keyword ≠ first.keyword := Ne.symm h
      simp only [List.map_cons, ih, List.mem_cons, hne, false_or]
      split <;> rfl

theorem nodup_insertRule (rule : Rule ι W V) {rules : List (Rule ι W V)}
    (h : (rules.map Rule.keyword).Nodup) : ((insertRule rule rules).map Rule.keyword).Nodup := by
  rw [map_keyword_insertRule]
  split
  · exact h
  · next hnew =>
    refine List.nodup_append.mpr ⟨h, List.pairwise_singleton _ _, ?_⟩
    rintro word hword _ hlast rfl
    exact hnew (List.mem_singleton.mp hlast ▸ hword)

/-- Rules that are registered one after the other keep the keywords distinct. -/
theorem nodup_foldl_insertRule (rules : List (Rule ι W V)) {registered : List (Rule ι W V)}
    (h : (registered.map Rule.keyword).Nodup) :
    ((rules.foldl (fun registered rule => insertRule rule registered) registered).map
      Rule.keyword).Nodup := by
  induction rules generalizing registered with
  | nil => exact h
  | cons rule rules ih => exact ih (nodup_insertRule rule h)

/-- The table of the given rules, registered from left to right. -/
def ofRules (rules : List (Rule ι W V)) (fallback : Option (Expr ι V)) : Table ι W V where
  rules := rules.foldl (fun registered rule => insertRule rule registered) []
  fallback := fallback
  nodup_keywords := nodup_foldl_insertRule rules List.nodup_nil

/-- The keywords in order. -/
def keywords (t : Table ι W V) : List String := t.rules.map Rule.keyword

/-- The rule of a keyword. -/
def lookup (t : Table ι W V) (word : String) : Option (Rule ι W V) :=
  t.rules.find? (·.keyword == word)

end Table

namespace Vocabulary

variable {ι W V : Type}

/-- The vocabulary in which no name is defined yet. -/
def undefined (tag : ι → String) : Vocabulary ι W V where
  tag := tag
  table := fun _ => none
  names := []
  mem_names := by simp

/-- Gives a name its tag. -/
def declare [DecidableEq ι] (v : Vocabulary ι W V) (name : ι) (tag : String) :
    Vocabulary ι W V :=
  { v with tag := fun i => if i = name then tag else v.tag i }

/-- Gives a name its table, once. -/
def define [DecidableEq ι] (v : Vocabulary ι W V) (name : ι) (table : Table ι W V) :
    Except Error (Vocabulary ι W V) :=
  if (v.table name).isSome then .error (.alreadyDefined (v.tag name))
  else
    .ok
      { tag := v.tag
        table := fun i => if i = name then some table else v.table i
        names := name :: v.names
        mem_names := fun i h => by
          by_cases e : i = name
          · simp [e]
          · simp only [e, if_false] at h
            exact List.mem_cons_of_mem _ (v.mem_names i h) }

/-- The keywords of a name, none while it is undefined. -/
def keywords (v : Vocabulary ι W V) (name : ι) : List String :=
  ((v.table name).map Table.keywords).getD []

/-- The name is defined and has a fallback. -/
def hasFallback (v : Vocabulary ι W V) (name : ι) : Bool :=
  ((v.table name).bind Table.fallback).isSome

end Vocabulary

end Parlance
