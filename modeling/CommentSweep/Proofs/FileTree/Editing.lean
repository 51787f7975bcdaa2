import CommentSweep.Proofs.FileTree.Staging

/-!
# Rewriting texts in their places

Rewriting the text of a file leaves each path where it leads, and the texts of different files may
be rewritten in either order.
-/

namespace CommentSweep

namespace File

/-- Rewrite the text of a file, if it holds one. -/
def edit (file : File) (change : Text → Text) : File :=
  match decode? file.bytes with
  | some text => { file with bytes := encode (change text) }
  | none => file

variable (file : File) {change : Text → Text}

theorem edit_eq {text : Text} (h : decode? file.bytes = some text) :
    file.edit change = ⟨encode (change text), file.mode⟩ := by
  rw [edit, h]

theorem edit_eq_self (h : ∀ text, decode? file.bytes = some text → change text = text) :
    file.edit change = file := by
  cases hd : decode? file.bytes with
  | none => rw [edit, hd]
  | some text => rw [edit_eq file hd, h text hd, encode_of_decode? hd]

@[simp] theorem mode_edit (change : Text → Text) : (file.edit change).mode = file.mode := by
  cases hd : decode? file.bytes with
  | none => rw [edit, hd]
  | some text => rw [edit_eq file hd]

end File

namespace FileTree

/-- Two trees have the same files and folders; what the files hold may differ. -/
structure SameShape (tree other : FileTree) : Prop where
  working : other.working = tree.working
  folder : ∀ location, other.isFolder location = tree.isFolder location
  file : ∀ location, (other.file? location).isSome = (tree.file? location).isSome

namespace SameShape

variable {tree other : FileTree}

theorem refl (tree : FileTree) : SameShape tree tree := ⟨rfl, fun _ => rfl, fun _ => rfl⟩

theorem trans {last : FileTree} (h : SameShape tree other) (h' : SameShape other last) :
    SameShape tree last where
  working := h'.working.trans h.working
  folder location := (h'.folder location).trans (h.folder location)
  file location := (h'.file location).trans (h.file location)

/-- Every path leads to the same location or meets the same fault. -/
theorem resolve_eq (h : SameShape tree other) (path : Text) :
    other.resolve path = tree.resolve path := by
  have henter : other.enter = tree.enter := by
    funext location name
    simp only [enter, h.folder, h.file]
  simp only [resolve, start, h.working, henter]

end SameShape

section Reading

variable {tree : FileTree} {location : Location}

/-- What reading a location gives, where a path leads to it. -/
def readAt (tree : FileTree) (location : Location) : Except Fault Text :=
  match tree.file? location with
  | some file => (Opened.file file.bytes).readText
  | none => Opened.folder.readText

/-- A path is read by reading the location that it leads to. -/
theorem readText_eq_bind (tree : FileTree) (path : Text) :
    tree.readText path = (tree.resolve path).bind tree.readAt := by
  simp only [FileTree.readText, openPath, Bind.bind]
  cases tree.resolve path with
  | error fault => rfl
  | ok location =>
    simp only [Except.bind, readAt]
    cases tree.file? location <;> rfl

theorem readText_congr {path other : Text} (h : tree.resolve path = tree.resolve other) :
    tree.readText path = tree.readText other := by
  rw [readText_eq_bind, readText_eq_bind, h]

/-- Two paths name one file. -/
def SameFile (tree : FileTree) (path other : Text) : Prop :=
  ∃ location, tree.resolve path = .ok location ∧ tree.resolve other = .ok location ∧
    (tree.file? location).isSome = true

theorem SameFile.symm {path other : Text} (h : tree.SameFile path other) :
    tree.SameFile other path := by
  obtain ⟨location, hpath, hother, hfile⟩ := h
  exact ⟨location, hother, hpath, hfile⟩

instance (path other : Text) : Decidable (tree.SameFile path other) :=
  match hp : tree.resolve path with
  | .error _ => isFalse fun ⟨_, hr, _⟩ => nomatch hp.symm.trans hr
  | .ok location =>
    decidable_of_iff (tree.resolve other = .ok location ∧ (tree.file? location).isSome = true)
      ⟨fun ⟨ho, hf⟩ => ⟨location, hp, ho, hf⟩,
        fun ⟨_, hr, ho, hf⟩ => Except.ok.inj (hp.symm.trans hr) ▸ ⟨ho, hf⟩⟩

/-- A path that can be read names the same file as any path that leads there. -/
theorem sameFile_of_readText {path other text : Text} (ht : tree.readText path = .ok text)
    (h : tree.resolve path = tree.resolve other) : tree.SameFile path other := by
  obtain ⟨location, file, hr, hf, -⟩ := readText_eq_ok_iff.mp ht
  exact ⟨location, hr, h ▸ hr, by rw [hf]; rfl⟩

/-- In a tree of the same shape the same paths name one file. -/
theorem SameShape.sameFile_iff {other : FileTree} (h : SameShape tree other) {first second : Text} :
    other.SameFile first second ↔ tree.SameFile first second := by
  simp only [SameFile, h.resolve_eq, h.file]

end Reading

section Putting

variable {tree : FileTree} {location : Location}

/-- Putting a file in the place of another one changes no shape. -/
theorem sameShape_put (h : (tree.file? location).isSome = true) (file : File) :
    SameShape tree (tree.put location file) := by
  refine ⟨(tree.changesWithin_put location file).working, fun other => ?_, fun other => ?_⟩
  · rw [put, if_pos h, isFolder, isFolder, List.any_map]
    refine congrArg₂ _ rfl (List.any_congr rfl fun item => ?_)
    by_cases hk : item.1 = location
    · simp [hk]
    · simp [hk]
  · rw [file?_put]
    split
    · next he => rw [he, h]; rfl
    · rfl

/-- A text that is put in the place of a file is read through the paths that lead there. -/
theorem readText_put_of_isSome (h : (tree.file? location).isSome = true) (text : Text) (mode : Nat)
    (path : Text) : (tree.put location ⟨encode text, mode⟩).readText path =
      if tree.resolve path = .ok location then .ok text else tree.readText path := by
  rw [readText_eq_bind, readText_eq_bind, (sameShape_put h _).resolve_eq]
  cases tree.resolve path with
  | error fault => rfl
  | ok place =>
    simp only [Except.bind, readAt, file?_put, Except.ok.injEq]
    by_cases hp : place = location
    · simp only [if_pos hp]
      exact readText_file_eq_ok_iff.mpr rfl
    · simp only [if_neg hp]

/-- Files that are put in the places of two others may be put in either order. -/
theorem put_comm {other : Location} (hne : location ≠ other)
    (h : (tree.file? location).isSome = true) (ho : (tree.file? other).isSome = true)
    (file new : File) :
    (tree.put location file).put other new = (tree.put other new).put location file := by
  have hother : ((tree.put location file).file? other).isSome = true := by
    rwa [file?_put, if_neg hne.symm]
  have hlocation : ((tree.put other new).file? location).isSome = true := by
    rwa [file?_put, if_neg hne]
  rw [put, if_pos hother, put, if_pos h, put, if_pos hlocation, put, if_pos ho]
  rw [FileTree.mk.injEq, List.map_map, List.map_map]
  refine ⟨List.map_congr_left fun item _ => ?_, rfl, rfl⟩
  by_cases hk : item.1 = location
  · simp [hk, hne]
  · by_cases hk' : item.1 = other
    · simp [hk', hne.symm]
    · simp [hk, hk']

end Putting

section Editing

variable {tree : FileTree} {path : Text} {change : Text → Text}

/-- Rewrite the text of the file that a path names. The tree stays as it is if no text can be read
through the path or the change leaves the text as it is. -/
def edit (tree : FileTree) (path : Text) (change : Text → Text) : FileTree :=
  match tree.readText path with
  | .error _ => tree
  | .ok text =>
    if change text = text then tree
    else (Surroundings.undisturbed.replace tree path (encode (change text))).2

theorem edit_eq_self (h : ∀ text, tree.readText path = .ok text → change text = text) :
    tree.edit path change = tree := by
  unfold edit
  split
  · rfl
  · next text ht => rw [if_pos (h text ht)]

/-- A text that comes to differ is put in the place of the old one. -/
theorem edit_eq_put {location : Location} {old : File} {text : Text}
    (hr : tree.resolve path = .ok location) (hf : tree.file? location = some old)
    (hb : encode text = old.bytes) (hne : change text ≠ text) :
    tree.edit path change = tree.put location ⟨encode (change text), old.mode⟩ := by
  have ht : tree.readText path = .ok text := readText_eq_ok_iff.mpr ⟨location, old, hr, hf, hb⟩
  simp only [edit, ht, if_neg hne, Surroundings.faultless_undisturbed.replace_eq hr hf]

/-- All that rewriting a text can come to. -/
theorem edit_cases (tree : FileTree) (path : Text) (change : Text → Text) :
    ((∀ text, tree.readText path = .ok text → change text = text) ∧
        tree.edit path change = tree) ∨
      ∃ location old text, tree.resolve path = .ok location ∧ tree.file? location = some old ∧
        encode text = old.bytes ∧ change text ≠ text ∧
          tree.edit path change = tree.put location ⟨encode (change text), old.mode⟩ := by
  by_cases h : ∀ text, tree.readText path = .ok text → change text = text
  · exact Or.inl ⟨h, edit_eq_self h⟩
  · push Not at h
    obtain ⟨text, ht, hne⟩ := h
    obtain ⟨location, old, hr, hf, hb⟩ := readText_eq_ok_iff.mp ht
    exact Or.inr ⟨location, old, text, hr, hf, hb, hne, edit_eq_put hr hf hb hne⟩

/-- Rewriting a text changes no shape. -/
theorem sameShape_edit (tree : FileTree) (path : Text) (change : Text → Text) :
    SameShape tree (tree.edit path change) := by
  obtain ⟨-, he⟩ | ⟨location, old, text, -, hf, -, -, he⟩ := tree.edit_cases path change
  · rw [he]
    exact .refl tree
  · rw [he]
    exact sameShape_put (by rw [hf]; rfl) _

/-- Rewriting a text brings no location in and takes none out. -/
theorem locations_edit (tree : FileTree) (path : Text) (change : Text → Text) :
    (tree.edit path change).files.map Prod.fst = tree.files.map Prod.fst ∧
      (tree.edit path change).folders = tree.folders := by
  obtain ⟨-, he⟩ | ⟨location, old, text, -, hf, -, -, he⟩ := tree.edit_cases path change
  · rw [he]
    exact ⟨rfl, rfl⟩
  · rw [he]
    exact ⟨map_fst_files_put (by rw [hf]; rfl) _, folders_put ..⟩

/-- A file whose text was rewritten keeps its permission bits, and the others are as they were. -/
theorem file?_edit (tree : FileTree) (path : Text) (change : Text → Text) (location : Location) :
    (tree.edit path change).file? location =
      if tree.resolve path = .ok location then (tree.file? location).map (·.edit change)
      else tree.file? location := by
  obtain ⟨hsame, he⟩ | ⟨place, old, text, hr, hf, hb, -, he⟩ := tree.edit_cases path change
  · rw [he]
    split
    · next hr =>
      cases hf : tree.file? location with
      | none => rfl
      | some file =>
        refine congrArg some (file.edit_eq_self fun text ht => hsame text ?_).symm
        exact readText_eq_ok_iff.mpr ⟨location, file, hr, hf, encode_of_decode? ht⟩
    · rfl
  · rw [he, file?_put, hr]
    by_cases hp : location = place
    · obtain rfl := hp
      rw [if_pos rfl, if_pos rfl, hf, Option.map_some, old.edit_eq (decode?_eq_some_iff.mpr hb)]
    · rw [if_neg hp, if_neg fun heq => hp (Except.ok.inj heq).symm]

/-- What is read is changed through every path that leads to the file and through no other. -/
theorem readText_edit (tree : FileTree) (path : Text) (change : Text → Text) (other : Text) :
    (tree.edit path change).readText other = (tree.readText other).map fun text =>
      if tree.resolve path = tree.resolve other then change text else text := by
  obtain ⟨hsame, he⟩ | ⟨location, old, text, hr, hf, hb, -, he⟩ := tree.edit_cases path change
  · rw [he]
    cases ht : tree.readText other with
    | error fault => rfl
    | ok text =>
      rw [Except.map]
      split
      · next hp => rw [hsame text ((readText_congr hp).trans ht)]
      · rfl
  · have ht : tree.readText path = .ok text := readText_eq_ok_iff.mpr ⟨location, old, hr, hf, hb⟩
    rw [he, readText_put_of_isSome (by rw [hf]; rfl), hr]
    by_cases hp : tree.resolve other = .ok location
    · rw [if_pos hp, ← readText_congr (hr.trans hp.symm), ht, Except.map, if_pos hp.symm]
    · simp only [if_neg hp, if_neg (Ne.symm hp)]
      cases tree.readText other <;> rfl

/-- What is read through a path that names another file stays the same. -/
theorem readText_edit_of_not_sameFile {other : Text} (h : ¬ tree.SameFile path other) :
    (tree.edit path change).readText other = tree.readText other := by
  rw [readText_edit]
  cases ht : tree.readText other with
  | error fault => rfl
  | ok text =>
    have hne : tree.resolve path ≠ tree.resolve other := fun he =>
      h (sameFile_of_readText ht he.symm).symm
    rw [Except.map, if_neg hne]

/-- The texts of different files may be rewritten in either order. -/
theorem edit_comm {other : Text} (h : ¬ tree.SameFile path other) (change more : Text → Text) :
    (tree.edit path change).edit other more = (tree.edit other more).edit path change := by
  have hother : (tree.edit path change).readText other = tree.readText other :=
    readText_edit_of_not_sameFile h
  have hpath : (tree.edit other more).readText path = tree.readText path :=
    readText_edit_of_not_sameFile (mt SameFile.symm h)
  obtain ⟨hsame, he⟩ | ⟨location, old, text, hr, hf, hb, hne, he⟩ := tree.edit_cases path change
  · rw [he, edit_eq_self fun text ht => hsame text (hpath.symm.trans ht)]
  obtain ⟨hsame, ho⟩ | ⟨place, last, new, hr', hf', hb', hne', ho⟩ := tree.edit_cases other more
  · rw [ho, edit_eq_self fun text ht => hsame text (hother.symm.trans ht)]
  · have hfirst : (tree.file? location).isSome = true := by rw [hf]; rfl
    have hsecond : (tree.file? place).isSome = true := by rw [hf']; rfl
    have happart : location ≠ place := by
      rintro rfl
      exact h ⟨location, hr, hr', hfirst⟩
    have hthere : (tree.edit path change).resolve other = .ok place := by
      rw [(tree.sameShape_edit path change).resolve_eq, hr']
    have hhere : (tree.edit other more).resolve path = .ok location := by
      rw [(tree.sameShape_edit other more).resolve_eq, hr]
    have hlast : (tree.edit path change).file? place = some last := by
      rw [he, file?_put, if_neg happart.symm, hf']
    have hold : (tree.edit other more).file? location = some old := by
      rw [ho, file?_put, if_neg happart, hf]
    rw [edit_eq_put hthere hlast hb' hne', edit_eq_put hhere hold hb hne, he, ho,
      put_comm happart hfirst hsecond]

end Editing

end FileTree

end CommentSweep
