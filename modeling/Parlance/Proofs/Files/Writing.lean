import Parlance.FileStore

/-
  What writing a file changes. Of a file system it is known that reading changes nothing, and that
  writing sets the one file that the path leads to, or fails (`FileSystem.Lawful`); and it can note
  the calls that are made of it (`FileSystem.noted`), so that they can be counted.

  The store in memory obeys these laws (`FileStore.lawful_files`). A path leads to a place if the
  names on its way lead through directories to it (`FileStore.LeadsTo`). To write a file is to put
  an entry at the place that the path leads to, which was not a directory before and is none
  afterwards, so that every path leads where it led.
-/

namespace Parlance

namespace FileSystem

variable {S : Type}

/-- What is known of a file system. `bytes` are those of the file that a path leads to, if it leads
to a file, and `Alias` says of two paths that they lead to one file. Nothing is said of what a
writing that fails leaves behind. -/
structure Lawful (files : FileSystem S) (bytes : S → String → Option ByteArray)
    (Alias : S → String → String → Prop) : Prop where
  /-- Reading changes nothing. -/
  read_keeps : ∀ path s, (files.readText path s).2 = s
  /-- Writing sets the file of the path and no other, unless it fails. -/
  write_sets : ∀ path text s, (files.writeText path text s).1 = .ok () →
    bytes (files.writeText path text s).2 path = some text.toUTF8 ∧
      ∀ other, ¬ Alias s path other →
        bytes (files.writeText path text s).2 other = bytes s other

end FileSystem

/-! ## Calls -/

/-- A call of a file system. -/
inductive FileCall where
  | read (path : String)
  | write (path text : String)
  deriving DecidableEq, Repr

/-- The file system that answers as before and notes every call, behind those before it. -/
def FileSystem.noted {S : Type} (files : FileSystem S) : FileSystem (S × List FileCall) where
  readText path s :=
    let (answer, after) := files.readText path s.1
    (answer, after, s.2 ++ [.read path])
  writeText path text s :=
    let (answer, after) := files.writeText path text s.1
    (answer, after, s.2 ++ [.write path text])

namespace FileStore

/-! ## Entries -/

theorem entry?_put_self (fs : FileStore) {p : Place} (hp : p.names ≠ []) (e : Entry) :
    entry? (fs.put p e) p = some e := by
  have hnames : p.names.isEmpty = false := by simpa using hp
  unfold entry? put
  rw [hnames]
  exact List.lookup_cons_self

theorem entry?_put_of_ne (fs : FileStore) {p q : Place} (hq : q ≠ p) (e : Entry) :
    entry? (fs.put p e) q = fs.entry? q := by
  have hlookup : ∀ entries : List (Place × Entry),
      (entries.filter fun entry => entry.1 ≠ p).lookup q = entries.lookup q := by
    intro entries
    induction entries with
    | nil => rfl
    | cons first entries ih =>
      obtain ⟨place, entry⟩ := first
      by_cases hplace : place = p
      · subst hplace
        have hdiff : (q == place) = false := by simpa using hq
        rw [List.filter_cons_of_neg (by simp), ih, List.lookup_cons, hdiff]
      · rw [List.filter_cons_of_pos (by simpa using hplace), List.lookup_cons, List.lookup_cons, ih]
  have hdiff : (q == p) = false := by simpa using hq
  unfold entry? put
  rw [List.lookup_cons, hdiff]
  exact congrArg (fun found => if q.names.isEmpty then some .directory else found)
    (hlookup fs.entries)

/-! ## Where paths lead -/

/-- The names on the way lead through directories, and the last one from there to the place. -/
def LeadsTo (fs : FileStore) (route : Path) (place : Place) : Prop :=
  ∃ p name, fs.walk route.start route.way = .ok p ∧ route.last = some name ∧
    step p name = .ok place

/-- A path has bytes if and only if it leads to a file and no slash stands behind it. -/
theorem bytes_eq_ok_iff {fs : FileStore} {route : Path} {bytes : ByteArray} :
    fs.bytes route = .ok bytes ↔
      route.slash = false ∧ ∃ place, fs.LeadsTo route place ∧
        fs.entry? place = some (.file bytes) := by
  constructor
  · intro h
    unfold FileStore.bytes at h
    split at h
    · cases h
    · cases h
    · next p name hwalk hlast =>
      split at h
      · cases h
      · next place hstep =>
        split at h
        · cases h
        · cases h
        · next bytes' hentry =>
          split at h
          · cases h
          · next hslash =>
            cases h
            exact ⟨eq_false_of_ne_true hslash, place, ⟨p, name, hwalk, hlast, hstep⟩, hentry⟩
  · rintro ⟨hslash, place, ⟨p, name, hwalk, hlast, hstep⟩, hentry⟩
    unfold FileStore.bytes
    rw [hwalk, hlast]
    simp only [hstep, hentry, hslash]
    rfl

/-- A name that is not `.` or `..` leads to a place below. -/
theorem names_of_step {p place : Place} {name : String} (hname : ¬(name = "." ∨ name = ".."))
    (h : step p name = .ok place) : place.names ≠ [] := by
  rw [not_or] at hname
  unfold step at h
  rw [if_neg hname.1, if_neg hname.2] at h
  split at h
  · cases h
  · cases h
    simp

/-- What is written to stands where the path leads, and is no directory. -/
theorem target_eq_ok {fs : FileStore} {route : Path} {place : Place}
    (h : fs.target route = .ok place) :
    fs.LeadsTo route place ∧ route.slash = false ∧ place.names ≠ [] ∧
      fs.entry? place ≠ some .directory := by
  unfold FileStore.target at h
  split at h
  · cases h
  · cases h
  · next p name hwalk hlast =>
    split at h
    · cases h
    · next hname =>
      rw [not_or] at hname
      split at h
      · cases h
      · next place' hstep =>
        split at h
        · cases h
        · next hentry =>
          cases h
          exact ⟨⟨p, name, hwalk, hlast, hstep⟩, eq_false_of_ne_true hname.1,
            names_of_step hname.2 hstep, hentry⟩

section

variable {fs : FileStore} {place : Place}

/-- A file that is put where no directory is stands on no way, before or after. -/
theorem walk_put_eq_ok_iff (hnames : place.names ≠ [])
    (hplace : fs.entry? place ≠ some .directory) (bytes : ByteArray) (p q : Place)
    (names : List String) :
    (fs.put place (.file bytes)).walk p names = .ok q ↔ fs.walk p names = .ok q := by
  induction names generalizing p with
  | nil => rfl
  | cons name rest ih =>
    rw [walk, walk]
    cases step p name with
    | error fault => rfl
    | ok next =>
      dsimp only
      by_cases hnext : next = place
      · subst hnext
        rw [entry?_put_self fs hnames]
        cases hentry : fs.entry? next with
        | none => simp
        | some entry =>
          cases entry with
          | file old => rfl
          | directory => exact absurd hentry hplace
      · rw [entry?_put_of_ne fs hnext]
        cases fs.entry? next with
        | none => rfl
        | some entry =>
          cases entry with
          | file old => rfl
          | directory => exact ih next

/-- So that paths lead where they led. -/
theorem leadsTo_put_iff (hnames : place.names ≠ []) (hplace : fs.entry? place ≠ some .directory)
    (bytes : ByteArray) (route : Path) (q : Place) :
    (fs.put place (.file bytes)).LeadsTo route q ↔ fs.LeadsTo route q := by
  unfold LeadsTo
  simp only [walk_put_eq_ok_iff hnames hplace]

end

/-! ## The store obeys the laws -/

/-- The bytes of the file that a path leads to, if it leads to a file. -/
def bytesAt (fs : FileStore) (path : String) : Option ByteArray :=
  match Path.read path with
  | .error _ => none
  | .ok route => (fs.bytes route).toOption

/-- The paths lead to one place. -/
def Alias (fs : FileStore) (path other : String) : Prop :=
  ∃ route route' place, Path.read path = .ok route ∧ Path.read other = .ok route' ∧
    fs.LeadsTo route place ∧ fs.LeadsTo route' place

theorem bytesAt_eq_some_iff {fs : FileStore} {path : String} {bytes : ByteArray} :
    fs.bytesAt path = some bytes ↔
      ∃ route, Path.read path = .ok route ∧ route.slash = false ∧
        ∃ place, fs.LeadsTo route place ∧ fs.entry? place = some (.file bytes) := by
  unfold bytesAt
  cases Path.read path with
  | error fault => simp
  | ok route =>
    have hbytes : (fs.bytes route).toOption = some bytes ↔ fs.bytes route = .ok bytes := by
      cases fs.bytes route <;> simp [Except.toOption]
    simp [hbytes, bytes_eq_ok_iff]

/-- A text that has been written is what the path leads to. -/
theorem bytesAt_put_self {fs : FileStore} {path text : String} {route : Path} {place : Place}
    (hroute : Path.read path = .ok route) (htarget : fs.target route = .ok place) :
    (fs.put place (.file text.toUTF8)).bytesAt path = some text.toUTF8 := by
  obtain ⟨hleads, hslash, hnames, hplace⟩ := target_eq_ok htarget
  exact bytesAt_eq_some_iff.mpr ⟨route, hroute, hslash, place,
    (leadsTo_put_iff hnames hplace _ route place).mpr hleads, entry?_put_self fs hnames _⟩

/-- A path that leads elsewhere leads to what it led to. -/
theorem bytesAt_put_of_not_alias {fs : FileStore} {path other text : String} {route : Path}
    {place : Place} (hroute : Path.read path = .ok route) (htarget : fs.target route = .ok place)
    (hother : ¬ fs.Alias path other) :
    (fs.put place (.file text.toUTF8)).bytesAt other = fs.bytesAt other := by
  obtain ⟨hleads, -, hnames, hplace⟩ := target_eq_ok htarget
  -- The places that the other path leads to keep their entries.
  have hsame : ∀ route' q, Path.read other = .ok route' → fs.LeadsTo route' q →
      entry? (fs.put place (.file text.toUTF8)) q = fs.entry? q := by
    intro route' q hread hq
    apply entry?_put_of_ne
    rintro rfl
    exact hother ⟨route, route', q, hroute, hread, hleads, hq⟩
  refine Option.ext fun bytes => ?_
  rw [bytesAt_eq_some_iff, bytesAt_eq_some_iff]
  simp only [leadsTo_put_iff hnames hplace]
  refine exists_congr fun route' => and_congr_right fun hread => and_congr_right fun _ =>
    exists_congr fun q => and_congr_right fun hq => ?_
  rw [hsame route' q hread hq]

theorem lawful_files : files.Lawful bytesAt Alias where
  read_keeps _ _ := rfl
  write_sets path text fs hwritten := by
    dsimp only [files] at hwritten ⊢
    unfold writeText at hwritten ⊢
    cases hroute : Path.read path with
    | error fault => simp [hroute] at hwritten
    | ok route =>
      cases htarget : fs.target route with
      | error fault => simp [hroute, htarget] at hwritten
      | ok place =>
        simp only [htarget]
        exact ⟨bytesAt_put_self hroute htarget,
          fun other hother => bytesAt_put_of_not_alias hroute htarget hother⟩

end FileStore

end Parlance
