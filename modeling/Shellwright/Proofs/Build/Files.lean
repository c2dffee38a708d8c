/-
What writing a file does to a file system.

A path is followed through directories only, and a file is never written where
a directory stands.  So a write cannot bend the way by which its own path was
followed: the path leads to the file that was written, and to nothing else that
has changed.
-/
import Mathlib.Data.List.DropRight
import Mathlib.Tactic.SplitIfs
import Shellwright.FileSystem

namespace Shellwright

/-- Texts are read back from the bytes that encode them. -/
@[simp] theorem Content.text?_ofText (text : String) :
    Content.text? (.ofText text) = some text := by
  have bytes : (⟨(Content.ofText text).toArray⟩ : ByteArray) =
    text.toUTF8 := rfl
  rw [Content.text?, bytes, String.fromUTF8?, String.toUTF8_eq_toByteArray,
    dif_pos text.isValidUTF8]
  rfl

namespace FileSystem

variable {fs : FileSystem} {location : Location} {path text : String}

theorem entry?_put_self (hroot : location ≠ []) (entry : Entry) :
    entry? (fs.put location entry) location = some entry := by
  simp [put, entry?, hroot]

theorem entry?_put_of_ne {other : Location} (hne : other ≠ location)
    (entry : Entry) :
    entry? (fs.put location entry) other = fs.entry? other := by
  have hbeq : (other == location) = false := beq_false_of_ne hne
  have kept :
    (fs.entries.filter fun other => other.1 != location).lookup other =
      fs.entries.lookup other := by
    induction fs.entries with
    | nil => rfl
    | cons head tail ih =>
        obtain ⟨place, kind⟩ := head
        by_cases hplace : place = location
        · simp [hplace, ih, List.lookup_cons, hbeq]
        · simp [List.lookup_cons, hplace, ih]
  by_cases hroot : other = []
  · simp [hroot, entry?]
  · simp [put, entry?, hroot, List.lookup_cons, hbeq, kept]

theorem requireDirectory_ok_iff :
    fs.requireDirectory location = .ok () ↔
      fs.entry? location = some .directory := by
  unfold requireDirectory
  split <;> simp_all

theorem walk_cons_ok_iff {here there : Location} {part : String}
    {rest : List String} :
    fs.walk here (part :: rest) = .ok there ↔
      fs.entry? here = some .directory ∧
        (if SourcePath.isIdle part then fs.walk here rest
          else if part = ".." then fs.walk here.dropLast rest
          else if part.utf8ByteSize > nameLimit then .error .nameTooLong
          else fs.walk (here ++ [part]) rest) = .ok there := by
  rw [← requireDirectory_ok_iff, walk]
  cases hdir : fs.requireDirectory here with
  | error cause => simp [bind, Except.bind]
  | ok => simp [bind, Except.bind]

theorem walk_append (here : Location) (first second : List String) :
    fs.walk here (first ++ second) =
      (fs.walk here first).bind (fs.walk · second) := by
  induction first generalizing here with
  | nil => rfl
  | cons part rest ih =>
      simp only [List.cons_append, walk, ih]
      cases fs.requireDirectory here with
      | error cause => rfl
      | ok =>
          simp only [bind, Except.bind]
          split_ifs <;> rfl

/-- Where no directory stands, an entry can be replaced without changing the
ways through the file system. -/
theorem walk_put (entry : Entry) (hfree : fs.entry? location ≠ some .directory)
    {here there : Location} {parts : List String}
    (hwalk : fs.walk here parts = .ok there) :
    (fs.put location entry).walk here parts = .ok there := by
  induction parts generalizing here with
  | nil => exact hwalk
  | cons part rest ih =>
      obtain ⟨hhere, hrest⟩ := walk_cons_ok_iff.mp hwalk
      have hne : here ≠ location := fun heq => hfree (heq ▸ hhere)
      refine walk_cons_ok_iff.mpr ⟨(entry?_put_of_ne hne entry).trans hhere, ?_⟩
      split_ifs at hrest ⊢
      · exact ih hrest
      · exact ih hrest
      · exact ih hrest

/-- A location at which a file can be written is where the path leads, and no
directory stands there. -/
theorem findTarget_ok (h : fs.findTarget path = .ok location) :
    checkPath path = .ok () ∧ fs.walk (fs.route path).1 (fs.route path).2 =
      .ok location ∧ fs.entry? location ≠ some .directory := by
  unfold findTarget at h
  cases hcheck : checkPath path with
  | error cause => rw [hcheck] at h; cases h
  | ok =>
  refine ⟨rfl, ?_⟩
  rw [hcheck] at h
  simp only [bind, Except.bind] at h
  split at h
  · cases h
  rename_i name hlast
  split at h
  · cases h
  rename_i directory hdirectory
  split at h
  · cases h
  split_ifs at h with hplain
  split at h
  · cases h
  rename_i place hplace
  -- No slash is left over at the end, so that the parts are the directory's and
  -- the name.
  have hall : dropTrailing (· == "") (fs.route path).2 = (fs.route path).2 :=
    (List.rdropWhile_prefix _ _).eq_of_length_le
    (Nat.le_of_not_lt fun hlt => hplain (.inl hlt))
  rw [hall] at hlast hdirectory
  have hwalk : fs.walk (fs.route path).1 (fs.route path).2 = .ok place := by
    rw [← List.dropLast_append_getLast? name hlast, walk_append, hdirectory]
    exact hplace
  split at h
  · cases h
  · rename_i hentry
    cases h
    exact ⟨hwalk, hentry⟩

theorem find_ok_iff {entry : Entry} :
    fs.find path = .ok (location, entry) ↔
      checkPath path = .ok () ∧ fs.walk (fs.route path).1 (fs.route path).2 =
        .ok location ∧ fs.entry? location = some entry := by
  unfold find
  cases checkPath path with
  | error cause => simp [bind, Except.bind]
  | ok =>
  cases hwalk : fs.walk (fs.route path).1 (fs.route path).2 with
  | error cause => simp [bind, Except.bind, hwalk]
  | ok place =>
  cases hentry : fs.entry? place with
  | none =>
      simp only [bind, Except.bind, hwalk, hentry, throw, throwThe,
        MonadExceptOf.throw]
      constructor
      · intro h
        cases h
      · rintro ⟨-, hplace, hfound⟩
        cases hplace
        rw [hentry] at hfound
        cases hfound
  | some found =>
      simp only [bind, Except.bind, hwalk, hentry, pure, Except.pure,
        Except.ok.injEq, Prod.mk.injEq]
      constructor
      · rintro ⟨rfl, rfl⟩
        exact ⟨trivial, rfl, hentry⟩
      · rintro ⟨-, rfl, hfound⟩
        exact ⟨rfl, Option.some.inj (hentry.symm.trans hfound)⟩

/-- `after` differs from `before` in one file only, which stands at
`location`. -/
structure Replaces (before after : FileSystem) (location : Location)
    (file : File) : Prop where
  workingDirectory : after.workingDirectory = before.workingDirectory
  elsewhere : ∀ other, other ≠ location →
    after.entry? other = before.entry? other
  here : after.entry? location = some (.file file)

theorem replaces_put (hroot : location ≠ []) (file : File) :
    Replaces fs (fs.put location (.file file)) location file :=
  ⟨rfl, fun _ hne => entry?_put_of_ne hne _, entry?_put_self hroot _⟩

theorem Replaces.trans {before mid after : FileSystem} {first second : File}
    (h : Replaces before mid location first)
    (h' : Replaces mid after location second) :
    Replaces before after location second :=
  ⟨h'.workingDirectory.trans h.workingDirectory,
    fun other hne => (h'.elsewhere other hne).trans
      (h.elsewhere other hne), h'.here⟩

theorem ne_root_of_free (hfree : fs.entry? location ≠ some .directory) :
    location ≠ [] := by
  rintro rfl
  exact hfree rfl

/-- A path still leads to the place where it led before something else than a
directory was put there. -/
theorem find_put (hcheck : checkPath path = .ok ())
    (hwalk : fs.walk (fs.route path).1 (fs.route path).2 = .ok location)
    (hfree : fs.entry? location ≠ some .directory) (entry : Entry) :
    (fs.put location entry).find path = .ok (location, entry) :=
  find_ok_iff.mpr
    ⟨hcheck, walk_put entry hfree hwalk,
      entry?_put_self (ne_root_of_free hfree) entry⟩

/-- A written file is found by its path and holds the text.  It can be executed
if it could be before. -/
theorem writeText_ok {after : FileSystem}
    (h : fs.writeText path text = .ok after) :
    ∃ location, fs.findTarget path = .ok location ∧
      Replaces fs after location ⟨.ofText text, fs.isExecutable location⟩ ∧
      after.find path =
        .ok (location, .file ⟨.ofText text, fs.isExecutable location⟩) := by
  unfold writeText at h
  cases htarget : fs.findTarget path with
  | error cause => rw [htarget] at h; cases h
  | ok location =>
      obtain ⟨hcheck, hwalk, hfree⟩ := findTarget_ok htarget
      rw [htarget] at h
      cases h
      exact ⟨location, rfl, replaces_put (ne_root_of_free hfree) _,
        find_put hcheck hwalk hfree _⟩

theorem markExecutable_of_find {file : File}
    (h : fs.find path = .ok (location, .file file)) :
    Replaces fs (fs.markExecutable path) location
        { file with executable := true } ∧
      (fs.markExecutable path).find path =
        .ok (location, .file { file with executable := true }) := by
  obtain ⟨hcheck, hwalk, hentry⟩ := find_ok_iff.mp h
  have hfree : fs.entry? location ≠ some .directory := by
    rw [hentry]
    exact fun heq => Entry.noConfusion (Option.some.inj heq)
  simp only [markExecutable, h]
  exact ⟨replaces_put (ne_root_of_free hfree) _, find_put hcheck hwalk hfree _⟩

theorem readText_of_find {file : File}
    (h : fs.find path = .ok (location, .file file))
    (hcontent : file.content = .ofText text) : fs.readText path = .ok text := by
  simp only [readText, h, bind, Except.bind, hcontent, Content.text?_ofText]
  rfl

end FileSystem

end Shellwright
