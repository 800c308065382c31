import Parlance.Proofs.Grammar.Walk
import Parlance.Script.Build

/-
  Vocabularies that grow. A name is defined once, so that a vocabulary only ever comes to define
  more names; what it has defined keeps its tag and its table (`Vocabulary.ExtendedBy`). This is so
  of every step of a workshop, where new types have new keys.

  Reading an expression and deriving its grammar look at no names but those that can be reached from
  it. Two vocabularies that agree on these read the same and publish the same
  (`Vocabulary.Shares.parse`, `Vocabulary.Shares.grammar`). So what can be read to the end of its
  definitions once is read in the same way forever.
-/

namespace Parlance

variable {ι W V : Type}

namespace Vocabulary

/-! ## Vocabularies that agree on what can be reached -/

/-- From the expression on, both vocabularies have the same tags and the same tables. -/
def Shares (v w : Vocabulary ι W V) (e : Expr ι V) : Prop :=
  ∀ name, v.Reachable e (.type name) → w.table name = v.table name ∧ w.tag name = v.tag name

namespace Shares

variable {v w : Vocabulary ι W V} {e e' : Expr ι V}

theorem of_reachable (h : v.Shares w e) (he : v.Reachable e e') : v.Shares w e' :=
  fun name hname => h name (he.trans hname)

theorem of_refers (h : v.Shares w e) (he : v.Refers e e') : v.Shares w e' :=
  h.of_reachable (.single he)

theorem table {name : ι} (h : v.Shares w (.type name)) : w.table name = v.table name :=
  (h name (.refl v _)).1

theorem tag {name : ι} (h : v.Shares w (.type name)) : w.tag name = v.tag name :=
  (h name (.refl v _)).2

theorem expr_tag (h : v.Shares w e) : e.tag w.tag = e.tag v.tag := by
  induction e with
  | prim p => rfl
  | type name => exact h.tag
  | rep r child ih => rw [Expr.tag, Expr.tag, ih (h.of_refers (.silent .item))]

theorem silent (h : v.Shares w e) (hs : w.Silent e e') : v.Silent e e' := by
  cases hs with
  | fallback ht hf => exact .fallback (h.table ▸ ht) hf
  | item => exact .item

theorem refers (h : v.Shares w e) (hr : w.Refers e e') : v.Refers e e' := by
  cases hr with
  | argument ht hr ha => exact .argument (h.table ▸ ht) hr ha
  | silent hs => exact .silent (h.silent hs)

theorem reachable (h : v.Shares w e) (hr : w.Reachable e e') : v.Reachable e e' := by
  induction hr with
  | refl => exact .refl v e
  | tail _ hlast ih => exact ih.tail ((h.of_reachable ih).refers hlast)

theorem symm (h : v.Shares w e) : w.Shares v e := fun name hname =>
  have hshared := h name (h.reachable hname)
  ⟨hshared.1.symm, hshared.2.symm⟩

end Shares

end Vocabulary

/-! ## They read the same -/

section Readings

variable {v w : Vocabulary ι W V}

mutual

theorem Reads.of_shares {e : Expr ι V} {c : Cursor} {r : Reply (Program ι W V)}
    (h : Reads v e c r) (he : v.Shares w e) : Reads w e c r := by
  match h with
  | .prim => exact .prim
  | .undefined ht =>
    rw [← he.tag]
    exact .undefined (he.table.trans ht)
  | .exhausted ht hn => exact .exhausted (he.table.trans ht) (he.tag ▸ hn)
  | .keyword ht hn hlook ha =>
    have hargs := ha.of_shares fun e' he' =>
      he.of_refers (.argument ht (List.mem_of_find?_eq_some hlook) he')
    rw [← he.tag] at hn ⊢
    exact .keyword (he.table.trans ht) hn hlook hargs
  | .fallback ht hn hlook hf hrest =>
    have hread := hrest.of_shares (he.of_refers (.silent (.fallback ht hf)))
    rw [← he.tag] at hn ⊢
    exact .fallback (he.table.trans ht) hn hlook hf hread
  | .unexpected ht hn hlook hf =>
    rw [← he.tag] at hn ⊢
    exact .unexpected (he.table.trans ht) hn hlook hf
  | .rep hitems =>
    rw [← he.expr_tag]
    exact .rep (hitems.of_shares he)

theorem ReadsArgs.of_shares {es : List (Expr ι V)} {c : Cursor}
    {r : Reply (List (Program ι W V))} (h : ReadsArgs v es c r) (hes : ∀ e ∈ es, v.Shares w e) :
    ReadsArgs w es c r := by
  match h with
  | .nil => exact .nil
  | .cons hfirst hothers =>
    exact .cons (hfirst.of_shares (hes _ List.mem_cons_self))
      (hothers.of_shares fun e he => hes e (List.mem_cons_of_mem _ he))
  | .failed hfirst => exact .failed (hfirst.of_shares (hes _ List.mem_cons_self))

theorem ReadsItems.of_shares {r : Repetition V} {child : Expr ι V} {c : Cursor}
    {reply : Reply (List (Program ι W V) × Option Token)} (h : ReadsItems v r child c reply)
    (he : v.Shares w (.rep r child)) : ReadsItems w r child c reply := by
  match h with
  | .finished hf => exact .finished hf
  | .exit hn hx => exact .exit (he.expr_tag ▸ hn) hx
  | .item hn hx hp hi =>
    exact .item (he.expr_tag ▸ hn) hx (hp.of_shares (he.of_refers (.silent .item)))
      (hi.of_shares he)
  | .failed hn hx hp =>
    exact .failed (he.expr_tag ▸ hn) hx (hp.of_shares (he.of_refers (.silent .item)))

end

/-- Reading looks at no names but those that can be reached. -/
theorem Vocabulary.Shares.parse {e : Expr ι V} (h : v.Shares w e) {c : Cursor} (hc : c.Within) :
    e.parse w c = e.parse v c := by
  by_cases hv : e.parse v c = .endless
  · -- An end under the second vocabulary would be one under the first.
    by_contra hne
    have hw : Reads w e c (e.parse w c) :=
      (reads_iff hc).mpr ⟨rfl, fun hw => hne (hw.trans hv.symm)⟩
    exact hne ((reads_iff hc).mp (hw.of_shares h.symm)).1.symm
  · have hread : Reads v e c (e.parse v c) := (reads_iff hc).mpr ⟨rfl, hv⟩
    exact ((reads_iff hc).mp (hread.of_shares h)).1

end Readings

/-! ## They publish the same -/

namespace Vocabulary

variable {v w : Vocabulary ι W V} {e : Expr ι V}

theorem Shares.references (h : v.Shares w e) : w.references e = v.references e := by
  cases e with
  | prim _ | rep _ _ => rfl
  | type name => rw [Vocabulary.references, Vocabulary.references, h.table]

/-- A table has the same alternatives if its arguments and its fallback are shared. -/
theorem Shares.alternatives {name : ι} {t : Table ι W V} (h : v.Shares w (.type name))
    (ht : v.table name = some t) : t.alternatives w = t.alternatives v := by
  have hrules : ∀ rule ∈ t.rules, rule.alternative w = rule.alternative v := fun rule hr =>
    congrArg _ (List.map_congr_left fun e he => by
      rw [(h.of_refers (.argument ht hr he)).expr_tag])
  have hfallback : ∀ e ∈ t.fallback.toList, [Sym.type (e.tag w.tag)] = [.type (e.tag v.tag)] :=
    fun e he => by
      rw [(h.of_refers (.silent (.fallback ht (Option.mem_toList.mp he)))).expr_tag]
  rw [Table.alternatives, Table.alternatives, List.map_congr_left hrules,
    List.map_congr_left hfallback]

theorem Shares.production? (h : v.Shares w e) : w.production? e = v.production? e := by
  cases e with
  | prim _ => rfl
  | type name =>
    rw [Vocabulary.production?, Vocabulary.production?, h.table, h.tag]
    cases ht : v.table name with
    | none => rfl
    | some t => simp [h.alternatives ht]
  | rep r child =>
    rw [Vocabulary.production?, Vocabulary.production?, h.expr_tag,
      (h.of_refers (.silent .item)).expr_tag]

theorem Shares.listed {base : List Production} {seen : List (Expr ι V)}
    (hseen : ∀ e' ∈ seen, v.Shares w e') (h : v.Shares w e) :
    v.Listed base seen e ↔ w.Listed base seen e := by
  have hlisting : w.listing base seen = v.listing base seen := by
    rw [listing, listing, List.filterMap_congr fun e' he' => (hseen e' he').production?]
  rw [Listed, Listed, hlisting, h.expr_tag]

/-- What is added to a grammar is added by a walk. -/
theorem grammar_walks (v : Vocabulary ι W V) (e : Expr ι V) (g : Grammar) :
    v.Walks g.productions [] [e] (e.grammar v g) := by
  have hbase : v.listing g.productions [] = g := by simp [listing]
  have hdepth : (v.unlisted (v.listing g.productions [])).length ≤ v.names.length :=
    List.length_filter_le _ _
  have hwalk := visitWith_walks v.names.length
    (fun name seen hn => visitType_walks _ name seen (Nat.lt_succ_of_le hn)) e [] hdepth
  rw [hbase] at hwalk
  exact hwalk

/-- Deriving a grammar looks at no names but those that can be reached. -/
theorem Shares.grammar (h : v.Shares w e) (g : Grammar) : e.grammar w g = e.grammar v g := by
  obtain ⟨out, hout, hv⟩ := v.grammar_walks e g
  obtain ⟨out', hout', hw⟩ := w.grammar_walks e g
  have hnext : ∀ x, v.Shares w x → ∀ y ∈ v.references x, v.Shares w y := fun x hx y hy =>
    hx.of_refers (mem_references.mp hy)
  have hstack : ∀ x ∈ [e], v.Shares w x := List.forall_mem_singleton.mpr h
  have hgood : ∀ x ∈ out, v.Shares w x :=
    hout.invariant (v.Shares w) (fun seen => ∀ x ∈ seen, v.Shares w x) hnext
      (fun seen x hseen hx _ =>
        List.forall_mem_append.mpr ⟨hseen, List.forall_mem_singleton.mpr hx⟩) nofun hstack
  have hwalk := (hout.congr (v.Shares w) hnext (fun _ _ hseen hx => hx.listed hseen) nofun
    hstack).congr_next (v.Shares w) hnext (fun _ hx => hx.references) hstack
  rw [hv, hw, hwalk.unique hout', listing, listing,
    List.filterMap_congr fun x hx => (hgood x hx).production?]

/-! ## Vocabularies that grow -/

/-- What the first vocabulary defines has the same tag and the same table in the second. -/
structure ExtendedBy (v w : Vocabulary ι W V) : Prop where
  table {name : ι} {t : Table ι W V} : v.table name = some t → w.table name = some t
  tag {name : ι} {t : Table ι W V} : v.table name = some t → w.tag name = v.tag name

/-- Every type that the expression leads to has a table. -/
def Closed (v : Vocabulary ι W V) (e : Expr ι V) : Prop :=
  ∀ name, v.Reachable e (.type name) → (v.table name).isSome

theorem ExtendedBy.refl (v : Vocabulary ι W V) : v.ExtendedBy v := ⟨id, fun _ => rfl⟩

theorem ExtendedBy.trans {u : Vocabulary ι W V} (h : u.ExtendedBy v) (h' : v.ExtendedBy w) :
    u.ExtendedBy w :=
  ⟨fun ht => h'.table (h.table ht), fun ht => (h'.tag (h.table ht)).trans (h.tag ht)⟩

/-- Where all is defined, nothing changes any more. -/
theorem ExtendedBy.shares (h : v.ExtendedBy w) (he : v.Closed e) : v.Shares w e := by
  intro name hname
  obtain ⟨t, ht⟩ := Option.isSome_iff_exists.mp (he name hname)
  exact ⟨(h.table ht).trans ht.symm, h.tag ht⟩

section Define

variable [DecidableEq ι]

theorem define_of_undefined {name : ι} (h : v.table name = none) (t : Table ι W V) :
    ∃ w, v.define name t = .ok w ∧ w.table name = some t ∧ w.tag = v.tag := by
  simp [define, h]

theorem define_of_defined {name : ι} {t : Table ι W V} (h : v.table name = some t)
    (t' : Table ι W V) : v.define name t' = .error (.alreadyDefined (v.tag name)) := by
  simp [define, h]

theorem extendedBy_define {name : ι} {t : Table ι W V} (h : v.define name t = .ok w) :
    v.ExtendedBy w := by
  unfold define at h
  split at h
  · cases h
  · next hn =>
    cases h
    refine ⟨fun {other _} ht => ?_, fun _ => rfl⟩
    have hne : other ≠ name := by
      rintro rfl
      simp [ht] at hn
    simp [hne, ht]

/-- The second vocabulary comes from the first by defining one name after the other. -/
def Grows (v w : Vocabulary ι W V) : Prop :=
  Relation.ReflTransGen (fun v w => ∃ name t, v.define name t = .ok w) v w

theorem Grows.extendedBy (h : v.Grows w) : v.ExtendedBy w := by
  induction h with
  | refl => exact .refl v
  | tail _ hlast ih =>
    obtain ⟨name, t, hd⟩ := hlast
    exact ih.trans (extendedBy_define hd)

/-- Giving a tag to a name that is not defined leaves the others as they are. -/
theorem extendedBy_declare {name : ι} (h : v.table name = none) (tag : String) :
    v.ExtendedBy (v.declare name tag) := by
  refine ⟨id, fun {other _} ht => ?_⟩
  have hne : other ≠ name := by
    rintro rfl
    rw [h] at ht
    cases ht
  simp [declare, hne]

end Define

end Vocabulary

/-! ## Workshops -/

namespace Script.Workshop

/-- Only types that have been made have names or tables. -/
structure Sound (s : Workshop) : Prop where
  named {name : String} {key : Key} : (name, key) ∈ s.types → key < s.made
  defined {key : Key} {t : Table Key Log Value} : s.lexicon.table key = some t → key < s.made

variable {s : Workshop}

theorem sound_new : Sound {} := ⟨nofun, nofun⟩

theorem Sound.table_made (h : s.Sound) : s.lexicon.table s.made = none := by
  cases ht : s.lexicon.table s.made with
  | none => rfl
  | some t => exact absurd (h.defined ht) (Nat.lt_irrefl _)

theorem Sound.key_lt (h : s.Sound) {name : String} {key : Key} (hk : s.key? name = some key) :
    key < s.made := by
  obtain ⟨before, behind, htypes, -⟩ := List.lookup_eq_some_iff.mp hk
  exact h.named (htypes ▸ List.mem_append_right _ List.mem_cons_self)

/-- What a step does to a workshop: it stays sound, and what was defined is kept. -/
structure Leads (s s' : Workshop) : Prop where
  sound : s'.Sound
  extendedBy : s.lexicon.ExtendedBy s'.lexicon

theorem Sound.leads_make (h : s.Sound) (name tag : String) : s.Leads (s.make name tag).2 := by
  refine ⟨⟨fun {_ key} hmem => ?_, fun ht => ?_⟩, Vocabulary.extendedBy_declare h.table_made tag⟩
  · rcases List.mem_cons.mp hmem with heq | hmem
    · cases heq
      exact Nat.lt_succ_self _
    · exact Nat.lt_succ_of_lt (h.named hmem)
  · exact Nat.lt_succ_of_lt (h.defined ht)

theorem Sound.leads_define (h : s.Sound) {key : Key} (hk : key < s.made)
    (t : Table Key Log Value) : s.Leads (s.define key t).2 := by
  cases ht : s.lexicon.table key with
  | some t' =>
    rw [define, Vocabulary.define_of_defined ht]
    exact ⟨h, .refl _⟩
  | none =>
    rw [define]
    split
    · next lexicon hd =>
      refine ⟨⟨h.named, fun {other t'} hother => ?_⟩, Vocabulary.extendedBy_define hd⟩
      unfold Vocabulary.define at hd
      split at hd <;> cases hd
      dsimp only at hother
      split at hother
      · next heq => exact heq ▸ hk
      · exact h.defined hother
    · exact ⟨h, .refl _⟩

theorem Leads.trans {s' s'' : Workshop} (h : s.Leads s') (h' : s'.Leads s'') : s.Leads s'' :=
  ⟨h'.sound, h.extendedBy.trans h'.extendedBy⟩

theorem Sound.leads_introduce (h : s.Sound) (name tag : String) (t : Table Key Log Value) :
    s.Leads (s.introduce name tag t).2 :=
  (h.leads_make name tag).trans
    ((h.leads_make name tag).sound.leads_define (Nat.lt_succ_self s.made) t)

theorem Sound.leads_step (h : s.Sound) (x : Step) : s.Leads (s.step x).2 := by
  have hstay : s.Leads s := ⟨h, .refl _⟩
  cases x with
  | declare name tag => exact h.leads_make name tag
  | define name rules fallback =>
    rw [step]
    split
    · next key t hk _ => exact h.leads_define (h.key_lt hk) t
    · exact hstay
  | introduce name tag rules fallback =>
    rw [step]
    split
    · exact h.leads_introduce name tag _
    · exact hstay
  | ofRule name ref =>
    rw [step]
    split
    · exact h.leads_introduce name _ _
    · exact hstay
  | keep name ref =>
    rw [step]
    split
    · exact ⟨⟨h.named, h.defined⟩, .refl _⟩
    · exact hstay

theorem Sound.leads_steps (h : s.Sound) (xs : List Step) : s.Leads (s.steps xs).2 := by
  induction xs generalizing s with
  | nil => exact ⟨h, .refl _⟩
  | cons x xs ih => exact (h.leads_step x).trans (ih (h.leads_step x).sound)

theorem define_of_defined {key : Key} {t : Table Key Log Value}
    (h : s.lexicon.table key = some t) (t' : Table Key Log Value) :
    s.define key t' =
      (.type (s.summary key) (some (.alreadyDefined (s.lexicon.tag key))), s) := by
  rw [define, Vocabulary.define_of_defined h]

theorem table_define {key : Key} (h : s.lexicon.table key = none) (t : Table Key Log Value) :
    (s.define key t).2.lexicon.table key = some t := by
  obtain ⟨w, hd, ht, -⟩ := Vocabulary.define_of_undefined h t
  rw [define, hd]
  exact ht

/-- A type that is made and defined in one step has its table. -/
theorem table_introduce (h : s.Sound) (name tag : String) (t : Table Key Log Value) :
    (s.introduce name tag t).2.lexicon.table s.made = some t :=
  table_define (s := (s.make name tag).2) h.table_made t

end Script.Workshop

end Parlance
