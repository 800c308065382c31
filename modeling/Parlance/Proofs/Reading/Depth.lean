import Mathlib.Data.List.Perm.Subperm
import Parlance.Proofs.Reading.Progress

/-
  The depth to which types are opened does not matter. A reading that comes to an end at some
  depth comes to the same end at every larger depth (`parseType_mono`), and at the depth that
  `Expr.parse` uses (`parseType_depth`): no reading is `endless` there that would end if types
  were opened further.

  The bound counts names. Between two words that are read, the types that are opened at one
  cursor are all different, because a type that is opened again inside itself at the same cursor
  does the same again and never ends. A name that is open at a depth where it does not end yet is
  kept on a path, and a path without repetitions is no longer than the list of names.
-/

namespace Parlance

universe u v

namespace Reply

variable {α : Type u} {β : Type v}

/-- If the first reply comes to an end, the second is the same. -/
def Refines (r r' : Reply α) : Prop := r ≠ endless → r' = r

theorem Refines.refl (r : Reply α) : r.Refines r := fun _ => rfl

theorem Refines.trans {r r' r'' : Reply α} (h : r.Refines r') (h' : r'.Refines r'') :
    r.Refines r'' := by
  intro hr
  have e : r' = r := h hr
  rw [← e] at hr ⊢
  exact h' hr

theorem Refines.andThen {r r' : Reply α} {f g : α → Cursor → Reply β} (h : r.Refines r')
    (hfg : ∀ value c, r = accepted value c → (f value c).Refines (g value c)) :
    (r.andThen f).Refines (r'.andThen g) := by
  intro hr
  cases r with
  | accepted value c =>
    rw [h (by simp)]
    exact hfg value c rfl hr
  | rejected error c =>
    rw [h (by simp)]
    rfl
  | endless => exact absurd rfl hr

theorem Refines.map {r r' : Reply α} (f : α → β) (h : r.Refines r') :
    (r.map f).Refines (r'.map f) :=
  h.andThen fun _ _ _ => Refines.refl _

theorem Refines.mapError {r r' : Reply α} (f : Error → Error) (h : r.Refines r') :
    (r.mapError f).Refines (r'.mapError f) := by
  intro hr
  cases r with
  | endless => exact absurd rfl hr
  | accepted value c => rw [h (by simp)]
  | rejected error c => rw [h (by simp)]

end Reply

variable {ι W V : Type}

/-! ## Readers that refine each other -/

theorem parseArgs_refines {p q : Expr ι V → Cursor → Reply (Program ι W V)}
    (hp : ∀ e c, c.Within → (p e c).Advances c) (es : List (Expr ι V)) {c : Cursor}
    (hc : c.Within) (h : ∀ e c', c.Reaches c' → (p e c').Refines (q e c')) :
    (parseArgs p es c).Refines (parseArgs q es c) := by
  induction es generalizing c with
  | nil => exact Reply.Refines.refl _
  | cons e es ih =>
    have he := hp e c hc
    refine (h e c (Cursor.Reaches.refl hc)).andThen fun a c' ha => ?_
    rw [ha] at he
    exact (ih he.1.within_right fun e' c'' hr => h e' c'' (he.1.trans hr)).map _

/-- Only the first item is read at the cursor itself. -/
theorem parseItems_refines {p q : Cursor → Reply (Program ι W V)}
    (hp : ∀ c, c.Within → (p c).Advances c) (tag : String) (exit : Option String) (n : Nat)
    {c : Cursor} (hc : c.Within) (h : (p c).Refines (q c))
    (hl : ∀ c', c.Reaches c' → c.index < c'.index → (p c').Refines (q c')) :
    (parseItems p tag exit n c).Refines (parseItems q tag exit n c) := by
  induction n generalizing c with
  | zero => exact Reply.Refines.refl _
  | succ n ih =>
    unfold parseItems
    split
    · exact Reply.Refines.refl _
    · next hf =>
      split
      · exact Reply.Refines.refl _
      · have hadv := hp c hc
        refine h.andThen fun a c' ha => ?_
        rw [ha] at hadv
        have hpos := Cursor.remaining_pos hc hf
        have hlt : c.index < c'.index := hadv.2 (by unfold Cursor.remaining at hpos; omega)
        refine Reply.Refines.map _ (ih hadv.1.within_right (hl c' hadv.1 hlt) ?_)
        exact fun c'' hr hlt' => hl c'' (hadv.1.trans hr) (Nat.lt_trans hlt hlt')

theorem Expr.parseWith_refines (v : Vocabulary ι W V)
    {f g : ι → Cursor → Reply (Program ι W V)}
    (hf : ∀ name c, c.Within → (f name c).Advances c) (e : Expr ι V) {c : Cursor}
    (hc : c.Within) (h : ∀ name, (f name c).Refines (g name c))
    (hl : ∀ name c', c.Reaches c' → c.index < c'.index → (f name c').Refines (g name c')) :
    (e.parseWith v f c).Refines (e.parseWith v g c) := by
  induction e generalizing c with
  | prim p => exact Reply.Refines.refl _
  | type name => exact h name
  | rep r child ih =>
    refine Reply.Refines.map _ (parseItems_refines ?_ _ r.exit _ hc (ih hc h hl) ?_)
    · exact fun c' hc' => child.parseWith_advances v hf hc'
    · intro c' hr hlt
      refine ih hr.within_right (fun name => hl name c' hr hlt) ?_
      exact fun name c'' hr' hlt' => hl name c'' (hr.trans hr') (Nat.lt_trans hlt hlt')

/-- Opening one type more on both sides. -/
theorem parseType_succ_refines (v : Vocabulary ι W V) {k l : Nat} (name : ι) {c : Cursor}
    (hc : c.Within) (h : ∀ name, (parseType v k name c).Refines (parseType v l name c))
    (hl : ∀ name c', c.Reaches c' → c.index < c'.index →
      (parseType v k name c').Refines (parseType v l name c')) :
    (parseType v (k + 1) name c).Refines (parseType v (l + 1) name c) := by
  have hadv : ∀ name c, c.Within → (parseType v k name c).Advances c :=
    fun name c hc => parseType_advances v k name hc
  unfold parseType
  split
  · exact Reply.Refines.refl _
  · next table _ =>
    split
    · exact Reply.Refines.refl _
    · next token ahead hn =>
      rw [Cursor.undo_of_next hn]
      dsimp only
      split
      · next rule hlk =>
        rw [Rule.parseWith_of_next hn (Table.lookup_keyword hlk),
          Rule.parseWith_of_next hn (Table.lookup_keyword hlk)]
        obtain ⟨hr, hlt⟩ := Cursor.next_reaches hn
        refine Reply.Refines.map _ (Reply.Refines.map _ ?_)
        refine parseArgs_refines (fun e c hc => e.parseWith_advances v hadv hc) _
          hr.within_right ?_
        -- The keyword has been read, so that every argument starts behind `c`.
        intro e c' hr'
        have hlt' : c.index < c'.index := Nat.lt_of_lt_of_le hlt hr'.le
        refine e.parseWith_refines v hadv hr'.within_right
          (fun name => hl name c' (hr.trans hr') hlt') ?_
        exact fun name c'' hr'' hlt'' =>
          hl name c'' ((hr.trans hr').trans hr'') (Nat.lt_trans hlt' hlt'')
      · split
        · next e _ => exact (e.parseWith_refines v hadv hc h hl).mapError _
        · exact Reply.Refines.refl _

/-! ## More depth keeps a finished reading -/

theorem parseType_mono (v : Vocabulary ι W V) {k l : Nat} (hkl : k ≤ l) (name : ι) {c : Cursor}
    (hc : c.Within) : (parseType v k name c).Refines (parseType v l name c) := by
  induction k generalizing l name c with
  | zero => exact fun h => absurd rfl h
  | succ k ih =>
    cases l with
    | zero => omega
    | succ l =>
      have hkl' : k ≤ l := by omega
      exact parseType_succ_refines v name hc (fun name => ih hkl' name hc)
        fun name c' hr _ => ih hkl' name hr.within_right

/-! ## The depth suffices -/

/-- The names of a path without repetitions, and one name more, are at most all the names. -/
theorem length_path_lt {names path : List ι} {name : ι} (hp : path.Nodup) (hn : name ∉ path)
    (hs : ∀ m ∈ path, m ∈ names) (hname : name ∈ names) : path.length < names.length := by
  have hnd : (name :: path).Nodup := List.nodup_cons.mpr ⟨hn, hp⟩
  have hsub : (name :: path) ⊆ names := by
    intro m hm
    rcases List.mem_cons.mp hm with rfl | hm
    · exact hname
    · exact hs m hm
  exact (List.subperm_of_subset hnd hsub).length_le

/-- With the names of `path` still open at `c`, a reading that ends at some depth `k` ends when
each name that is not on the path is opened once more at `c`, and all names behind each word. -/
theorem parseType_settles (v : Vocabulary ι W V) (k : Nat) (path : List ι) (name : ι) {c : Cursor}
    (hc : c.Within) (hp : path.Nodup) (hs : ∀ m ∈ path, m ∈ v.names)
    (hopen : ∀ m ∈ path, parseType v k m c = .endless) :
    (parseType v k name c).Refines
      (parseType v ((v.names.length + 1) * c.remaining + (v.names.length - path.length) + 1)
        name c) := by
  induction k generalizing path name c with
  | zero => exact fun h => absurd rfl h
  | succ k ih =>
    have hmono : ∀ m, (parseType v k m c).Refines (parseType v (k + 1) m c) :=
      fun m => parseType_mono v (Nat.le_succ k) m hc
    have hopen' : ∀ m ∈ path, parseType v k m c = .endless := by
      intro m hm
      by_contra hne
      exact hne (hopen m hm ▸ hmono m hne).symm
    by_cases hk : parseType v k name c = .endless
    · intro hend
      cases ht : v.table name with
      | none =>
        unfold parseType
        simp only [ht]
      | some table =>
        have hname : name ∈ v.names := v.mem_names name (by rw [ht]; rfl)
        have hnot : name ∉ path := fun hm => hend (hopen name hm)
        have hlen := length_path_lt hp hnot hs hname
        refine parseType_succ_refines v name hc ?_ ?_ hend
        · -- At `c` itself the name joins the path.
          intro m
          have h := ih (name :: path) m hc (List.nodup_cons.mpr ⟨hnot, hp⟩)
            (by simpa using ⟨hname, hs⟩) (by simpa using ⟨hk, hopen'⟩)
          have e : v.names.length - (name :: path).length + 1 = v.names.length - path.length := by
            simp only [List.length_cons]
            omega
          rwa [Nat.add_assoc, e] at h
        · -- Behind a word the path is empty again.
          intro m c' hr hlt
          have h := ih [] m hr.within_right List.nodup_nil (by simp) (by simp)
          refine h.trans (parseType_mono v ?_ m hr.within_right)
          have hrem : c'.remaining + 1 ≤ c.remaining := hr.remaining_lt hlt
          have hmul := Nat.mul_le_mul_left (v.names.length + 1) hrem
          rw [Nat.mul_add] at hmul
          simp only [List.length_nil]
          omega
    · exact fun _ => (ih path name hc hp hs hopen' hk).trans (hmono name hk).symm

theorem parseType_depth (v : Vocabulary ι W V) (k : Nat) (name : ι) {c : Cursor} (hc : c.Within) :
    (parseType v k name c).Refines (parseType v (v.depth c) name c) := by
  have h := parseType_settles v k [] name hc List.nodup_nil (by simp) (by simp)
  have e : v.depth c = (v.names.length + 1) * c.remaining + (v.names.length - 0) + 1 := by
    unfold Vocabulary.depth
    rw [Nat.mul_add]
    omega
  rwa [e]

/-- Reading at any depth agrees with `Expr.parse` as soon as it comes to an end. -/
theorem Expr.parseWith_depth (v : Vocabulary ι W V) (k : Nat) (e : Expr ι V) {c : Cursor}
    (hc : c.Within) : (e.parseWith v (parseType v k) c).Refines (e.parse v c) := by
  refine e.parseWith_refines v (fun name _ hc => parseType_advances v k name hc) hc
    (fun name => parseType_depth v k name hc) ?_
  intro name c' hr _
  refine (parseType_depth v k name hr.within_right).trans (parseType_mono v ?_ name hr.within_right)
  exact Nat.mul_le_mul_left _ (Nat.succ_le_succ hr.remaining_le)

end Parlance
