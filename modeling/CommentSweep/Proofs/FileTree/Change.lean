import CommentSweep.FileTree.Update
import CommentSweep.Proofs.Text.Encoding

/-!
# What a change of a file tree leaves as it is

A change within some places leaves the files elsewhere as they are and takes nothing away, so paths
still lead where they led.
-/

namespace CommentSweep

namespace FileTree

section Walking

variable {tree : FileTree} {location next last : Location} {name : Text}

/-- A step is taken from a folder, by a name that is not too long, to something that is there. -/
theorem enter_eq_ok_iff : tree.enter location name = .ok next ↔
    tree.isFolder location = true ∧ (encode name).length ≤ nameLimit ∧
      (tree.isFolder next = true ∨ (tree.file? next).isSome = true) ∧
        next = follow location name := by
  simp only [enter]
  split_ifs with hfolder hlong hthere
  · simp_all
  · simp only [false_iff]
    exact fun h => absurd h.2.1 (Nat.not_le.mpr hlong)
  · rw [Bool.or_eq_true] at hthere
    rw [Bool.not_eq_true', Bool.not_eq_false] at hfolder
    constructor
    · intro h
      obtain rfl := Except.ok.inj h
      exact ⟨hfolder, Nat.not_lt.mp hlong, hthere, rfl⟩
    · rintro ⟨-, -, -, rfl⟩
      rfl
  · simp only [false_iff]
    rintro ⟨-, -, h, rfl⟩
    exact hthere (Bool.or_eq_true _ _ |>.mpr h)

theorem foldlM_enter_cons_eq_ok_iff {rest : List Text} :
    (name :: rest).foldlM tree.enter location = .ok last ↔
      ∃ next, tree.enter location name = .ok next ∧ rest.foldlM tree.enter next = .ok last := by
  rw [List.foldlM_cons]
  cases tree.enter location name with
  | error fault => exact iff_of_false nofun (by simp)
  | ok next => simp [Bind.bind, Except.bind]

/-- A path can be resolved if the system takes it as a path and all its steps can be taken. -/
theorem resolve_eq_ok_iff {path : Text} : tree.resolve path = .ok location ↔
    ('\x00' ∉ path ∧ path ≠ [] ∧ (encode path).length < pathLimit) ∧
      (pathNames path).foldlM tree.enter (tree.start path) = .ok location := by
  unfold resolve
  split_ifs with hnul hempty hlong
  · simp [hnul]
  · simp [hempty]
  · simp [Nat.not_lt.mpr hlong]
  · simp [hnul, hempty, Nat.lt_of_not_le hlong]

theorem openPath_eq_file {path : Text} {file : File} (hr : tree.resolve path = .ok location)
    (hf : tree.file? location = some file) : tree.openPath path = .ok (.file file.bytes) := by
  simp only [openPath, hr, hf, Bind.bind, Except.bind]

/-- An opened file gives exactly the text that its bytes encode. -/
theorem readText_file_eq_ok_iff {bytes : Bytes} {text : Text} :
    (Opened.file bytes).readText = .ok text ↔ encode text = bytes := by
  rw [← decode?_eq_some_iff]
  simp only [Opened.readText, Opened.read, Bind.bind, Except.bind]
  cases decode? bytes <;> simp

/-- A text is read from the location of a file that holds its encoding. -/
theorem readText_eq_ok_iff {path text : Text} : tree.readText path = .ok text ↔
    ∃ location file, tree.resolve path = .ok location ∧ tree.file? location = some file ∧
      encode text = file.bytes := by
  constructor
  · intro h
    cases hr : tree.resolve path with
    | error fault => simp [FileTree.readText, openPath, hr, Bind.bind, Except.bind] at h
    | ok location =>
      cases hf : tree.file? location with
      | none =>
        simp [FileTree.readText, openPath, hr, hf, Bind.bind, Except.bind, Opened.readText,
          Opened.read] at h
      | some file =>
        rw [FileTree.readText, openPath_eq_file hr hf] at h
        exact ⟨location, file, rfl, hf, readText_file_eq_ok_iff.mp h⟩
  · rintro ⟨location, file, hr, hf, hb⟩
    rw [FileTree.readText, openPath_eq_file hr hf]
    exact readText_file_eq_ok_iff.mpr hb

end Walking

/-- A change replaces files at some places only, and may add files and folders. -/
structure ChangesWithin (places : Location → Prop) (before after : FileTree) : Prop where
  working : after.working = before.working
  folder : ∀ location, before.isFolder location = true → after.isFolder location = true
  file : ∀ location, (before.file? location).isSome = true →
    (after.file? location).isSome = true
  elsewhere : ∀ location, ¬ places location → after.file? location = before.file? location

namespace ChangesWithin

variable {places more : Location → Prop} {first before after : FileTree}

theorem refl (places : Location → Prop) (tree : FileTree) : ChangesWithin places tree tree :=
  ⟨rfl, fun _ h => h, fun _ h => h, fun _ _ => rfl⟩

theorem trans (h : ChangesWithin places first before) (h' : ChangesWithin more before after) :
    ChangesWithin (fun location => places location ∨ more location) first after where
  working := h'.working.trans h.working
  folder location hf := h'.folder location (h.folder location hf)
  file location hf := h'.file location (h.file location hf)
  elsewhere location hn := by
    rw [not_or] at hn
    exact (h'.elsewhere location hn.2).trans (h.elsewhere location hn.1)

theorem mono (h : ChangesWithin places before after)
    (hp : ∀ location, places location → more location) : ChangesWithin more before after :=
  ⟨h.working, h.folder, h.file, fun location hn => h.elsewhere location (mt (hp location) hn)⟩

/-- A path that could be resolved still leads where it led. -/
theorem resolve (h : ChangesWithin places before after) {path : Text} {location : Location}
    (hr : before.resolve path = .ok location) : after.resolve path = .ok location := by
  have hwalk (names : List Text) (start : Location)
      (hw : names.foldlM before.enter start = .ok location) :
      names.foldlM after.enter start = .ok location := by
    induction names generalizing start with
    | nil => exact hw
    | cons name rest ih =>
      obtain ⟨next, he, hw⟩ := foldlM_enter_cons_eq_ok_iff.mp hw
      obtain ⟨hfolder, hlimit, hthere, hnext⟩ := enter_eq_ok_iff.mp he
      have hthere' := hthere.imp (h.folder next) (h.file next)
      exact foldlM_enter_cons_eq_ok_iff.mpr ⟨next,
        enter_eq_ok_iff.mpr ⟨h.folder start hfolder, hlimit, hthere', hnext⟩, ih next hw⟩
  rw [resolve_eq_ok_iff] at hr ⊢
  rw [start, h.working]
  exact ⟨hr.1, hwalk _ _ hr.2⟩

/-- What is read from elsewhere stays the same. -/
theorem readText (h : ChangesWithin places before after) {path text : Text}
    (ht : before.readText path = .ok text)
    (hp : ∀ location, before.resolve path = .ok location → ¬ places location) :
    after.readText path = .ok text := by
  obtain ⟨location, file, hr, hf, hb⟩ := readText_eq_ok_iff.mp ht
  rw [← h.elsewhere location (hp location hr)] at hf
  exact readText_eq_ok_iff.mpr ⟨location, file, h.resolve hr, hf, hb⟩

end ChangesWithin

section Putting

variable (tree : FileTree) (location : Location) (file : File)

/-- Exchanging the files at a location shows there, if one is there, and nowhere else. -/
theorem lookup_map_put (files : List (Location × File)) (other : Location) :
    (files.map fun item => if item.1 = location then (location, file) else item).lookup other =
      if other = location then (files.lookup location).map fun _ => file
      else files.lookup other := by
  induction files with
  | nil => simp
  | cons item rest ih =>
    obtain ⟨key, old⟩ := item
    rw [List.map_cons]
    by_cases hk : key = location
    · subst hk
      by_cases ho : other = key
      · subst ho
        simp
      · simp [List.lookup_cons, beq_false_of_ne ho, ho, ih]
    · by_cases ho : other = location
      · subst ho
        simp [List.lookup_cons, beq_false_of_ne (Ne.symm hk), hk, ih]
      · simp only [hk, ite_false, List.lookup_cons, ih, ho]

/-- Putting a file shows at its location and nowhere else. -/
theorem file?_put (other : Location) : (tree.put location file).file? other =
    if other = location then some file else tree.file? other := by
  unfold put
  split
  · next h =>
    obtain ⟨old, hold⟩ := Option.isSome_iff_exists.mp h
    change (List.map _ tree.files).lookup other = _
    rw [lookup_map_put, show tree.files.lookup location = some old from hold]
    rfl
  · next h =>
    rw [Option.not_isSome_iff_eq_none] at h
    change (tree.files ++ [(location, file)]).lookup other = _
    rw [List.lookup_append]
    by_cases ho : other = location
    · subst ho
      simp [show tree.files.lookup other = none from h]
    · simp [List.lookup_cons, beq_false_of_ne ho, ho, file?]

theorem map_fst_files_put {tree : FileTree} {location : Location}
    (h : (tree.file? location).isSome = true) (file : File) :
    (tree.put location file).files.map Prod.fst = tree.files.map Prod.fst := by
  rw [put, if_pos h, List.map_map]
  refine List.map_congr_left fun item _ => ?_
  by_cases hk : item.1 = location
  · simp [hk]
  · simp [hk]

/-- Putting a file takes no location out of the tree. -/
theorem exists_locations_put : ∃ added,
    (tree.put location file).files.map Prod.fst = tree.files.map Prod.fst ++ added := by
  by_cases h : (tree.file? location).isSome = true
  · exact ⟨[], by rw [map_fst_files_put h, List.append_nil]⟩
  · rw [put, if_neg h]
    exact ⟨[location], List.map_append⟩

theorem folders_put : (tree.put location file).folders = tree.folders := by
  unfold put
  split <;> rfl

/-- Putting a file changes the tree at its location. -/
theorem changesWithin_put : ChangesWithin (· = location) tree (tree.put location file) where
  working := by
    unfold put
    split <;> rfl
  folder other hf := by
    obtain ⟨added, ha⟩ := tree.exists_locations_put location file
    have hall (files : List (Location × File)) :
        files.any (fun item => other.isPrefixOf item.1 && other != item.1) =
          (files.map Prod.fst).any fun key => other.isPrefixOf key && other != key := by
      rw [List.any_map]
      rfl
    have hput : (tree.put location file).isFolder other =
        (tree.isFolder other ||
          added.any fun key => other.isPrefixOf key && other != key) := by
      unfold isFolder
      rw [hall, hall, ha, List.any_append, ← Bool.or_assoc]
      unfold put
      split <;> rfl
    rw [hput, hf, Bool.true_or]
  file other hs := by
    rw [file?_put]
    split
    · rfl
    · exact hs
  elsewhere other hn := by rw [file?_put, if_neg hn]

/-- What was put where a path leads is read through the path. -/
theorem readText_put {tree : FileTree} {path : Text} {location : Location}
    (hr : tree.resolve path = .ok location) (text : Text) (mode : Nat) :
    (tree.put location ⟨encode text, mode⟩).readText path = .ok text := by
  have hthere := (tree.changesWithin_put location ⟨encode text, mode⟩).resolve hr
  exact readText_eq_ok_iff.mpr ⟨location, _, hthere, by rw [file?_put, if_pos rfl], rfl⟩

end Putting

end FileTree

end CommentSweep
