import Mathlib.Data.List.Forall2
import Parlance.Language

/-
  Vocabularies of one shape. Two vocabularies vary each other if they have the same tags and the
  same tables up to a relation `R` between their rules, which keeps keywords, and a relation `S`
  between their repetitions, which keeps exit words. Reading does not look at what a rule does, or
  at how the items of a repetition are run: under both vocabularies it succeeds at the same
  cursor, with programs that vary each other, or fails with the same error at the same cursor
  (`Language.Varies.parse`).
-/

universe u v

namespace Parlance

/-! ## Replies that agree -/

namespace Reply

variable {α α' : Type u} {β β' : Type v}

/-- Related values at one cursor, or one error at one cursor, or no end on both sides. -/
inductive Agrees (P : α → β → Prop) : Reply α → Reply β → Prop where
  | accepted {a : α} {b : β} {c : Cursor} : P a b → Agrees P (.accepted a c) (.accepted b c)
  | rejected {error : Error} {c : Cursor} : Agrees P (.rejected error c) (.rejected error c)
  | endless : Agrees P .endless .endless

theorem Agrees.andThen {P : α → β → Prop} {Q : α' → β' → Prop} {r : Reply α} {s : Reply β}
    {f : α → Cursor → Reply α'} {g : β → Cursor → Reply β'} (h : r.Agrees P s)
    (hfg : ∀ a b c, P a b → (f a c).Agrees Q (g b c)) : (r.andThen f).Agrees Q (s.andThen g) := by
  cases h with
  | accepted hab => exact hfg _ _ _ hab
  | rejected => exact .rejected
  | endless => exact .endless

theorem Agrees.map {P : α → β → Prop} {Q : α' → β' → Prop} {r : Reply α} {s : Reply β}
    {f : α → α'} {g : β → β'} (h : r.Agrees P s) (hfg : ∀ a b, P a b → Q (f a) (g b)) :
    (r.map f).Agrees Q (s.map g) :=
  h.andThen fun _ _ _ hab => .accepted (hfg _ _ hab)

theorem Agrees.mapError {P : α → β → Prop} {r : Reply α} {s : Reply β} (f : Error → Error)
    (h : r.Agrees P s) : (r.mapError f).Agrees P (s.mapError f) := by
  cases h with
  | accepted hab => exact .accepted hab
  | rejected => exact .rejected
  | endless => exact .endless

theorem Agrees.mono {P Q : α → β → Prop} {r : Reply α} {s : Reply β} (h : r.Agrees P s)
    (hPQ : ∀ a b, P a b → Q a b) : r.Agrees Q s := by
  cases h with
  | accepted hab => exact .accepted (hPQ _ _ hab)
  | rejected => exact .rejected
  | endless => exact .endless

theorem Agrees.eq_accepted {P : α → β → Prop} {r : Reply α} {b : β} {c : Cursor}
    (h : r.Agrees P (.accepted b c)) : ∃ a, r = .accepted a c ∧ P a b := by
  cases h with
  | accepted hab => exact ⟨_, rfl, hab⟩

theorem Agrees.accepted_eq {P : α → β → Prop} {s : Reply β} {a : α} {c : Cursor}
    (h : Agrees P (.accepted a c) s) : ∃ b, s = .accepted b c ∧ P a b := by
  cases h with
  | accepted hab => exact ⟨_, rfl, hab⟩

end Reply

variable {ι W W' V : Type}

/-! ## What varies what -/

/-- The expressions are the same up to their repetitions. -/
inductive Expr.Varies (S : Repetition V → Repetition V → Prop) : Expr ι V → Expr ι V → Prop where
  | prim {p : Primitive V} : Varies S (.prim p) (.prim p)
  | type {name : ι} : Varies S (.type name) (.type name)
  | rep {r r' : Repetition V} {child child' : Expr ι V} :
      S r r' → Varies S child child' → Varies S (.rep r child) (.rep r' child')

theorem Expr.Varies.refl (e : Expr ι V) : Expr.Varies Eq e e := by
  induction e with
  | prim p => exact .prim
  | type name => exact .type
  | rep r child ih => exact .rep rfl ih

/-- The rules have the same keyword and arguments that vary, and are related. -/
structure Rule.Varies (R : Rule ι W V → Rule ι W' V → Prop)
    (S : Repetition V → Repetition V → Prop) (rule : Rule ι W V) (rule' : Rule ι W' V) : Prop where
  keyword_eq : rule'.keyword = rule.keyword
  args : List.Forall₂ (Expr.Varies S) rule.args rule'.args
  related : R rule rule'

/-- The tables have as many rules, which vary each other one by one, as have their fallbacks. -/
structure Table.Varies (R : Rule ι W V → Rule ι W' V → Prop)
    (S : Repetition V → Repetition V → Prop) (t : Table ι W V) (t' : Table ι W' V) : Prop where
  rules : List.Forall₂ (Rule.Varies R S) t.rules t'.rules
  fallback : Option.Rel (Expr.Varies S) t.fallback t'.fallback

/-- The vocabularies have the same tags, as many names, and tables that vary each other. -/
structure Vocabulary.Varies (R : Rule ι W V → Rule ι W' V → Prop)
    (S : Repetition V → Repetition V → Prop) (v : Vocabulary ι W V) (v' : Vocabulary ι W' V) :
    Prop where
  tag_eq : v'.tag = v.tag
  length_names : v'.names.length = v.names.length
  table (name : ι) : Option.Rel (Table.Varies R S) (v.table name) (v'.table name)
  exit_eq {r r' : Repetition V} : S r r' → r'.exit = r.exit

mutual

/-- The programs were read from the same words by expressions that vary each other. -/
inductive Program.Varies (tag : ι → String) (R : Rule ι W V → Rule ι W' V → Prop)
    (S : Repetition V → Repetition V → Prop) : Program ι W V → Program ι W' V → Prop where
  | literal {label : String} {token : Token} {value : V} :
      Varies tag R S (.literal label token value) (.literal label token value)
  | call {label : String} {keyword : Token} {rule : Rule ι W V} {rule' : Rule ι W' V}
      {args : List (Program ι W V)} {args' : List (Program ι W' V)} :
      keyword.value = rule.keyword → rule.Varies R S rule' → VariesAll tag R S args args' →
      Varies tag R S (.call label keyword rule args) (.call label keyword rule' args')
  | list {r r' : Repetition V} {child child' : Expr ι V} {items : List (Program ι W V)}
      {items' : List (Program ι W' V)} {exit : Option Token} :
      Expr.Varies S (.rep r child) (.rep r' child') → VariesAll tag R S items items' →
      Varies tag R S (.list ((Expr.rep r child).tag tag) r items exit)
        (.list ((Expr.rep r' child').tag tag) r' items' exit)

/-- The programs vary each other one by one. -/
inductive Program.VariesAll (tag : ι → String) (R : Rule ι W V → Rule ι W' V → Prop)
    (S : Repetition V → Repetition V → Prop) :
    List (Program ι W V) → List (Program ι W' V) → Prop where
  | nil : VariesAll tag R S [] []
  | cons {p : Program ι W V} {p' : Program ι W' V} {ps : List (Program ι W V)}
      {ps' : List (Program ι W' V)} :
      Varies tag R S p p' → VariesAll tag R S ps ps' → VariesAll tag R S (p :: ps) (p' :: ps')

end

section

variable {R : Rule ι W V → Rule ι W' V → Prop} {S : Repetition V → Repetition V → Prop}

/-- A word is a keyword of both tables, with rules that vary each other, or of neither. -/
theorem Table.Varies.lookup {t : Table ι W V} {t' : Table ι W' V} (h : t.Varies R S t')
    (word : String) : Option.Rel (Rule.Varies R S) (t.lookup word) (t'.lookup word) := by
  obtain ⟨hrules, -⟩ := h
  unfold Table.lookup
  generalize t.rules = rules, t'.rules = rules' at hrules ⊢
  induction hrules with
  | nil => exact .none
  | @cons rule rule' rules rules' hrule hrules ih =>
    rw [List.find?_cons, List.find?_cons, hrule.keyword_eq]
    cases rule.keyword == word with
    | true => exact .some hrule
    | false => exact ih

/-! ## Readers of vocabularies that vary each other -/

/-- The tag of a repetition does not matter for its exit word. -/
theorem exitWord?_tag (tag tag' : String) (exit : Option String) (c : Cursor) :
    exitWord? tag' exit c = exitWord? tag exit c := by
  unfold exitWord? Cursor.next
  cases c.tokens[c.index]? with
  | none => rfl
  | some word => rfl

theorem parseArgs_agrees {tag : ι → String}
    {p : Expr ι V → Cursor → Reply (Program ι W V)}
    {p' : Expr ι V → Cursor → Reply (Program ι W' V)}
    (hp : ∀ e e' c, Expr.Varies S e e' → (p e c).Agrees (Program.Varies tag R S) (p' e' c))
    {es es' : List (Expr ι V)} (hes : List.Forall₂ (Expr.Varies S) es es') (c : Cursor) :
    (parseArgs p es c).Agrees (Program.VariesAll tag R S) (parseArgs p' es' c) := by
  induction hes generalizing c with
  | nil => exact .accepted .nil
  | cons he hes ih =>
    refine (hp _ _ c he).andThen fun a b c' hab => ?_
    exact (ih c').map fun as bs habs => .cons hab habs

theorem Rule.Varies.parseWith {tag : ι → String}
    {p : Expr ι V → Cursor → Reply (Program ι W V)}
    {p' : Expr ι V → Cursor → Reply (Program ι W' V)}
    (hp : ∀ e e' c, Expr.Varies S e e' → (p e c).Agrees (Program.Varies tag R S) (p' e' c))
    {rule : Rule ι W V} {rule' : Rule ι W' V} (h : rule.Varies R S rule') (c : Cursor) :
    (rule.parseWith p c).Agrees
      (fun a b => b.1 = a.1 ∧ a.1.value = rule.keyword ∧ Program.VariesAll tag R S a.2 b.2)
      (rule'.parseWith p' c) := by
  unfold Rule.parseWith
  rw [h.keyword_eq]
  cases c.next rule.keyword with
  | error error => exact .rejected
  | ok read =>
    dsimp only
    split
    · next hk => exact (parseArgs_agrees hp h.args read.2).map fun _ _ hab => ⟨rfl, hk, hab⟩
    · exact .rejected

theorem parseItems_agrees {tag : ι → String} {p : Cursor → Reply (Program ι W V)}
    {p' : Cursor → Reply (Program ι W' V)}
    (hp : ∀ c, (p c).Agrees (Program.Varies tag R S) (p' c)) (label label' : String)
    (exit : Option String) (n : Nat) (c : Cursor) :
    (parseItems p label exit n c).Agrees
      (fun a b => Program.VariesAll tag R S a.1 b.1 ∧ b.2 = a.2)
      (parseItems p' label' exit n c) := by
  induction n generalizing c with
  | zero => exact .accepted ⟨.nil, rfl⟩
  | succ n ih =>
    unfold parseItems
    rw [exitWord?_tag label label']
    split
    · exact .accepted ⟨.nil, rfl⟩
    · split
      · exact .accepted ⟨.nil, rfl⟩
      · refine (hp c).andThen fun a b c' hab => ?_
        exact (ih c').map fun as bs h => ⟨.cons hab h.1, h.2⟩

namespace Vocabulary.Varies

variable {v : Vocabulary ι W V} {v' : Vocabulary ι W' V}

theorem parseWith (hv : v.Varies R S v') {p : ι → Cursor → Reply (Program ι W V)}
    {p' : ι → Cursor → Reply (Program ι W' V)}
    (hp : ∀ name c, (p name c).Agrees (Program.Varies v.tag R S) (p' name c)) {e e' : Expr ι V}
    (he : Expr.Varies S e e') (c : Cursor) :
    (e.parseWith v p c).Agrees (Program.Varies v.tag R S) (e'.parseWith v' p' c) := by
  induction he generalizing c with
  | @prim q =>
    unfold Expr.parseWith Primitive.parse
    split
    · exact .rejected
    · split
      · exact .accepted .literal
      · exact .rejected
  | type => exact hp _ c
  | @rep r r' child child' hr hchild ih =>
    unfold Expr.parseWith
    rw [hv.exit_eq hr, hv.tag_eq]
    refine (parseItems_agrees ih _ _ r.exit c.remaining c).map ?_
    rintro ⟨items, exit⟩ ⟨items', exit'⟩ ⟨hitems, rfl⟩
    exact .list (.rep hr hchild) hitems

theorem parseType (hv : v.Varies R S v') (fuel : Nat) (name : ι) (c : Cursor) :
    (Parlance.parseType v fuel name c).Agrees (Program.Varies v.tag R S)
      (Parlance.parseType v' fuel name c) := by
  induction fuel generalizing name c with
  | zero => exact .endless
  | succ fuel ih =>
    have hparse : ∀ e e' c, Expr.Varies S e e' →
        (e.parseWith v (Parlance.parseType v fuel) c).Agrees (Program.Varies v.tag R S)
          (e'.parseWith v' (Parlance.parseType v' fuel) c) :=
      fun e e' c he => hv.parseWith ih he c
    unfold Parlance.parseType
    rw [hv.tag_eq]
    have htable := hv.table name
    generalize v.table name = o, v'.table name = o' at htable ⊢
    cases htable with
    | none => exact .rejected
    | @some table table' htable =>
      cases c.next (v.tag name) with
      | error error => exact .rejected
      | ok read =>
        obtain ⟨token, ahead⟩ := read
        have hlookup := htable.lookup token.value
        dsimp only
        generalize table.lookup token.value = o, table'.lookup token.value = o' at hlookup ⊢
        cases hlookup with
        | @some rule rule' hrule =>
          refine (hrule.parseWith hparse ahead.undo).map ?_
          rintro ⟨keyword, args⟩ ⟨keyword', args'⟩ ⟨rfl, hk, hargs⟩
          exact .call hk hrule hargs
        | none =>
          have hfallback := htable.fallback
          generalize table.fallback = o, table'.fallback = o' at hfallback ⊢
          cases hfallback with
          | none => exact .rejected
          | some he => exact (hparse _ _ _ he).mapError _

theorem parse (hv : v.Varies R S v') {e e' : Expr ι V} (he : Expr.Varies S e e') (c : Cursor) :
    (e.parse v c).Agrees (Program.Varies v.tag R S) (e'.parse v' c) := by
  unfold Expr.parse Vocabulary.depth
  rw [hv.length_names]
  exact hv.parseWith (fun name c => hv.parseType _ name c) he c

end Vocabulary.Varies

/-- The languages have the same name, and roots and vocabularies that vary each other. -/
structure Language.Varies (R : Rule ι W V → Rule ι W' V → Prop)
    (S : Repetition V → Repetition V → Prop) (l : Language ι W V) (l' : Language ι W' V) :
    Prop where
  name_eq : l'.name = l.name
  root : Expr.Varies S l.root l'.root
  vocabulary : l.vocabulary.Varies R S l'.vocabulary

/-- Languages that vary each other accept the same words, and refuse the others alike. -/
theorem Language.Varies.parse {l : Language ι W V} {l' : Language ι W' V} (h : l.Varies R S l')
    (words : List String) :
    (l.parse words).Agrees (Program.Varies l.vocabulary.tag R S) (l'.parse words) := by
  unfold Language.parse Language.parseFrom Language.tag
  refine (h.vocabulary.parse h.root _).andThen fun p p' c hp => ?_
  rw [h.name_eq]
  cases c.next ("l." ++ l.name) with
  | ok read => exact .rejected
  | error error => exact .accepted hp

end

end Parlance
