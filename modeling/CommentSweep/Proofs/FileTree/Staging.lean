import CommentSweep.Proofs.FileTree.Change
import Mathlib.Data.List.DropRight

/-!
# Staging beside a file

The text of a path gives the folder that holds the file. A replacement through a staged file there
is either done in full or not at all, whatever that file is called.
-/

namespace CommentSweep

section Names

variable {names : List Text}

/-- No name of a path has a slash. -/
theorem slash_notMem_of_mem_pathNames {path name : Text} (h : name ∈ pathNames path) :
    '/' ∉ name := by
  induction path generalizing name with
  | nil =>
    obtain rfl := List.mem_singleton.mp h
    exact List.not_mem_nil
  | cons c rest ih =>
    rw [pathNames, List.splitOn_cons_eq_if_modifyHead, ← pathNames] at h
    split at h
    case isTrue =>
      rcases List.mem_cons.mp h with rfl | hm
      · exact List.not_mem_nil
      · exact ih hm
    case isFalse hc =>
      cases hr : pathNames rest with
      | nil =>
        rw [hr] at h
        cases h
      | cons first more =>
        rw [hr] at h ih
        rcases List.mem_cons.mp h with rfl | hm
        · rw [beq_iff_eq] at hc
          exact List.not_mem_cons_of_ne_of_not_mem (Ne.symm hc) (ih List.mem_cons_self)
        · exact ih (List.mem_cons_of_mem _ hm)

/-- Names of a path that are joined are read back. -/
theorem pathNames_intercalate {path : Text} (hne : names ≠ []) (h : names ⊆ pathNames path) :
    pathNames (['/'].intercalate names) = names :=
  List.splitOn_intercalate '/' (fun _ hn => slash_notMem_of_mem_pathNames (h hn)) hne

theorem intercalate_isPrefix_append (separator : Text) (first second : List Text) :
    separator.intercalate first <+: separator.intercalate (first ++ second) := by
  induction first with
  | nil => exact List.nil_prefix
  | cons name rest ih =>
    rw [List.cons_append]
    rcases eq_or_ne rest [] with rfl | hr
    · cases second with
      | nil => exact List.prefix_rfl
      | cons other more =>
        rw [List.nil_append, List.intercalate_singleton, List.intercalate_cons_cons,
          List.append_assoc]
        exact List.prefix_append _ _
    · have hn : rest ++ second ≠ [] := List.append_ne_nil_of_left_ne_nil hr second
      rw [List.intercalate_cons_of_ne_nil hr, List.intercalate_cons_of_ne_nil hn]
      exact (List.prefix_append_right_inj _).mpr ih

/-- The first names of a path are the start of its text. -/
theorem intercalate_isPrefix {path : Text} (h : names <+: pathNames path) :
    ['/'].intercalate names <+: path := by
  obtain ⟨more, hmore⟩ := h
  have hpath : ['/'].intercalate (names ++ more) = path := by
    rw [hmore, pathNames, List.intercalate_splitOn]
  rw [← hpath]
  exact intercalate_isPrefix_append _ names more

theorem exists_idle_append (names : List Text) :
    ∃ idle, names = settledNames names ++ idle ∧ ∀ name ∈ idle, isIdle name = true :=
  ⟨names.rtakeWhile isIdle, List.rdropWhile_append_rtakeWhile.symm,
    fun _ hn => List.mem_rtakeWhile_imp hn⟩

theorem isIdle_of_settledNames_concat {front : List Text} {last : Text}
    (h : settledNames names = front ++ [last]) : isIdle last = false := by
  have hdrop : names.reverse.dropWhile isIdle = last :: front.reverse := by
    rw [← List.reverse_reverse (names.reverse.dropWhile isIdle)]
    change (settledNames names).reverse = _
    rw [h, List.reverse_append]
    rfl
  have hlast := List.head?_dropWhile_not isIdle names.reverse
  rwa [hdrop] at hlast

theorem isIdle_of_mem_leadingNames {name : Text} (h : name ∈ leadingNames names) :
    isIdle name = true := by
  unfold leadingNames at h
  split at h
  · obtain rfl := List.mem_singleton.mp h
    rfl
  · obtain rfl := List.mem_singleton.mp h
    rfl
  · cases h

theorem leadingNames_append_drop (names : List Text) :
    leadingNames names ++ names.drop (leadingNames names).length = names := by
  unfold leadingNames
  split <;> rfl

/-- A path begins with a slash exactly if its first name is empty. -/
theorem head?_pathNames_cons (c : Char) (rest : Text) :
    (pathNames (c :: rest)).head? = some [] ↔ c = '/' := by
  rw [pathNames, List.splitOn_cons_eq_if_modifyHead, ← pathNames]
  by_cases hc : c = '/'
  · simp [hc]
  · cases pathNames rest <;> simp [hc]

/-- A path either has idle names only, or its last other name stands behind those of the folder. -/
theorem stagingFolder_cases (path : Text) :
    (∀ name ∈ pathNames path, isIdle name = true) ∧ stagingFolder path = ['.'] ∨
      ∃ names idle last more, pathNames path = names ++ (idle ++ last :: more) ∧
        stagingFolder path = folderPath names ∧ (names = [] → path.head? ≠ some '/') ∧
          isIdle last = false ∧ ∀ name ∈ idle ++ more, isIdle name = true := by
  have hpath := leadingNames_append_drop (pathNames path)
  obtain ⟨more, hbelow, hmore⟩ :=
    exists_idle_append ((pathNames path).drop (leadingNames (pathNames path)).length)
  rcases List.eq_nil_or_concat'
    (settledNames ((pathNames path).drop (leadingNames (pathNames path)).length)) with
    hnone | ⟨front, last, hlast⟩
  · left
    rw [hnone, List.nil_append] at hbelow
    constructor
    · rw [← hpath, hbelow]
      exact List.forall_mem_append.mpr ⟨fun _ => isIdle_of_mem_leadingNames, hmore⟩
    · rw [stagingFolder, hnone, if_pos rfl]
  · right
    obtain ⟨idle, hfront, hidle⟩ := exists_idle_append front
    refine ⟨leadingNames (pathNames path) ++ settledNames front, idle, last, more, ?_, ?_, ?_,
      isIdle_of_settledNames_concat hlast, List.forall_mem_append.mpr ⟨hidle, hmore⟩⟩
    · calc
        pathNames path = leadingNames (pathNames path) ++ (front ++ [last] ++ more) := by
          rw [← hlast, ← hbelow, hpath]
        _ = leadingNames (pathNames path) ++
            (settledNames front ++ idle ++ [last] ++ more) := by rw [← hfront]
        _ = _ := by simp only [List.append_assoc, List.singleton_append]
    · rw [stagingFolder, hlast, if_neg (List.append_ne_nil_of_right_ne_nil front (by simp)),
        List.dropLast_concat]
    · intro hn hslash
      cases path with
      | nil => cases hslash
      | cons c rest =>
        obtain rfl := Option.some.inj hslash
        have hfirst := (head?_pathNames_cons '/' rest).mpr rfl
        obtain ⟨names, hnames⟩ := List.head?_eq_some_iff.mp hfirst
        rw [hnames] at hn
        cases hn

end Names

namespace FileTree

variable {tree : FileTree} {start last location folder : Location} {path : Text}

theorem foldlM_enter_append_eq_ok_iff {first second : List Text} :
    (first ++ second).foldlM tree.enter start = .ok last ↔
      ∃ middle, first.foldlM tree.enter start = .ok middle ∧
        second.foldlM tree.enter middle = .ok last := by
  rw [List.foldlM_append]
  cases first.foldlM tree.enter start <;> simp [Bind.bind, Except.bind]

/-- Idle names are taken in a folder and lead nowhere. -/
theorem eq_of_foldlM_enter_idle {idle : List Text} (hi : ∀ name ∈ idle, isIdle name = true)
    (hw : idle.foldlM tree.enter start = .ok last) :
    last = start ∧ (idle ≠ [] → tree.isFolder start = true) := by
  induction idle generalizing start with
  | nil => exact ⟨(Except.ok.inj hw).symm, fun hn => absurd rfl hn⟩
  | cons name rest ih =>
    obtain ⟨hname, hrest⟩ := List.forall_mem_cons.mp hi
    obtain ⟨next, he, hw⟩ := foldlM_enter_cons_eq_ok_iff.mp hw
    obtain ⟨hfolder, -, -, rfl⟩ := enter_eq_ok_iff.mp he
    have hstay : follow start name = start := by
      simp only [isIdle, Bool.or_eq_true, beq_iff_eq] at hname
      rw [follow, if_pos hname]
    rw [hstay] at hw
    exact ⟨(ih hrest hw).1, fun _ => hfolder⟩

theorem isFolder_dropLast (h : tree.isFolder location = true) :
    tree.isFolder location.dropLast = true := by
  have habove : location.dropLast <+: location := List.dropLast_prefix location
  simp only [isFolder, Bool.or_eq_true, List.any_eq_true, Bool.and_eq_true, bne_iff_ne,
    List.isPrefixOf_iff_prefix] at h ⊢
  rcases h with (hw | ⟨marked, hm, hl⟩) | ⟨item, hi, hl, hne⟩
  · exact Or.inl (Or.inl (habove.trans hw))
  · exact Or.inl (Or.inr ⟨marked, hm, habove.trans hl⟩)
  · refine Or.inr ⟨item, hi, habove.trans hl, fun heq => hne ?_⟩
    rw [← heq] at hl
    rw [← heq, List.IsPrefix.eq_of_length_le habove hl.length_le]

theorem isFolder_working (tree : FileTree) : tree.isFolder tree.working = true := by
  simp [isFolder]

theorem resolve_dot (tree : FileTree) : tree.resolve ['.'] = .ok tree.working := by
  refine resolve_eq_ok_iff.mpr ⟨⟨by simp, by simp, by decide⟩, ?_⟩
  refine foldlM_enter_cons_eq_ok_iff.mpr ⟨tree.working, ?_, rfl⟩
  exact enter_eq_ok_iff.mpr ⟨tree.isFolder_working, by decide, Or.inl tree.isFolder_working, rfl⟩

/-- The start of a path is taken as a path itself. -/
theorem resolve_isPrefix {first : Text} (hr : tree.resolve path = .ok location) (hne : first ≠ [])
    (h : first <+: path)
    (hw : (pathNames first).foldlM tree.enter (tree.start path) = .ok folder) :
    tree.resolve first = .ok folder := by
  obtain ⟨⟨hnul, -, hshort⟩, -⟩ := resolve_eq_ok_iff.mp hr
  obtain ⟨rest, rfl⟩ := h
  rw [start, List.head?_append_of_ne_nil _ hne] at hw
  rw [encode_append, List.length_append] at hshort
  refine resolve_eq_ok_iff.mpr ⟨⟨fun hm => hnul (List.mem_append_left rest hm), hne, ?_⟩, hw⟩
  omega

/-- Names that lead to a folder are its path. -/
theorem resolve_folderPath {names : List Text} (hr : tree.resolve path = .ok location)
    (hn : names <+: pathNames path) (habsolute : names = [] → path.head? ≠ some '/')
    (hw : names.foldlM tree.enter (tree.start path) = .ok folder) :
    tree.resolve (folderPath names) = .ok folder := by
  unfold folderPath
  split
  · rw [← Except.ok.inj hw, start, if_neg (habsolute rfl), resolve_dot]
  · obtain ⟨rfl, hfolder⟩ := eq_of_foldlM_enter_idle (List.forall_mem_singleton.mpr rfl) hw
    have hroot : ['/'] <+: path := by
      cases path with
      | nil => exact absurd rfl (resolve_eq_ok_iff.mp hr).1.2.1
      | cons c rest =>
        obtain ⟨more, hmore⟩ := hn
        obtain rfl := (head?_pathNames_cons c rest).mp (by rw [← hmore]; rfl)
        exact List.prefix_append ['/'] rest
    refine resolve_isPrefix hr (List.cons_ne_nil _ _) hroot ?_
    exact foldlM_enter_append_eq_ok_iff.mpr ⟨_, hw, hw⟩
  · next hnil hroot =>
    have hread := pathNames_intercalate hnil hn.subset
    refine resolve_isPrefix hr ?_ (intercalate_isPrefix hn) (by rwa [hread])
    intro hempty
    rw [hempty] at hread
    exact hroot hread.symm

/-- The folder that a file is staged in is there if the path leads anywhere, and unless the path
leads to a folder it is the one that holds what the path leads to. -/
theorem exists_resolveFolder_stagingFolder (hr : tree.resolve path = .ok location) :
    ∃ folder, tree.resolveFolder (stagingFolder path) = .ok folder ∧
      (tree.isFolder location = false → folder = location.dropLast) := by
  obtain ⟨-, hw⟩ := resolve_eq_ok_iff.mp hr
  rcases stagingFolder_cases path with
    ⟨hidle, hstaging⟩ | ⟨names, idle, last, more, hnames, hstaging, habsolute, hlast, hidle⟩
  · obtain ⟨rfl, hfolder⟩ := eq_of_foldlM_enter_idle hidle hw
    refine ⟨tree.working, ?_, fun hf => ?_⟩
    · simp only [resolveFolder, hstaging, resolve_dot, isFolder_working, if_true, Bind.bind,
        Except.bind]
    · rw [hfolder (List.splitOn_ne_nil _ _)] at hf
      cases hf
  · obtain ⟨hbefore, hafter⟩ := List.forall_mem_append.mp hidle
    rw [hnames] at hw
    obtain ⟨folder, hfirst, hrest⟩ := foldlM_enter_append_eq_ok_iff.mp hw
    obtain ⟨middle, hmiddle, hlatter⟩ := foldlM_enter_append_eq_ok_iff.mp hrest
    obtain ⟨next, he, hend⟩ := foldlM_enter_cons_eq_ok_iff.mp hlatter
    obtain ⟨rfl, -⟩ := eq_of_foldlM_enter_idle hbefore hmiddle
    obtain ⟨rfl, -⟩ := eq_of_foldlM_enter_idle hafter hend
    obtain ⟨hfolder, -, -, rfl⟩ := enter_eq_ok_iff.mp he
    have hthere := resolve_folderPath hr ⟨_, hnames.symm⟩ habsolute hfirst
    refine ⟨middle, ?_, fun hf => ?_⟩
    · simp only [resolveFolder, hstaging, hthere, hfolder, if_true, Bind.bind, Except.bind]
    · have hstay : ¬ (last = [] ∨ last = ['.']) := by
        simpa [isIdle] using hlast
      rw [follow, if_neg hstay] at hf ⊢
      split at hf
      · rw [isFolder_dropLast hfolder] at hf
        cases hf
      · next hdots => rw [if_neg hdots, List.dropLast_concat]

section Staging

variable {tree : FileTree} {location staged : Location}

theorem fst_ne_of_file?_eq_none (h : tree.file? location = none) {item : Location × File}
    (hi : item ∈ tree.files) : item.1 ≠ location := by
  have hn := List.lookup_eq_none_iff.mp h item hi
  rw [bne_iff_ne] at hn
  exact hn.symm

theorem put_put (tree : FileTree) (location : Location) (earlier later : File) :
    (tree.put location earlier).put location later = tree.put location later := by
  have hthere : ((tree.put location earlier).file? location).isSome = true := by
    rw [file?_put, if_pos rfl]
    rfl
  conv_lhs => rw [put, if_pos hthere]
  unfold put
  split
  · rw [FileTree.mk.injEq, List.map_map]
    refine ⟨List.map_congr_left fun item _ => ?_, rfl, rfl⟩
    by_cases hk : item.1 = location
    · simp [hk]
    · simp [hk]
  · next h =>
    rw [Option.not_isSome_iff_eq_none] at h
    rw [FileTree.mk.injEq, List.map_append]
    refine ⟨congrArg₂ _ ?_ (by simp), rfl, rfl⟩
    refine (List.map_congr_left fun item hi => ?_).trans (List.map_id _)
    rw [if_neg (fst_ne_of_file?_eq_none h hi), id]

theorem setMode_put (tree : FileTree) (location : Location) (file : File) (mode : Nat) :
    (tree.put location file).setMode location mode = tree.put location { file with mode } := by
  simp only [setMode, file?_put, ite_true, put_put]

/-- Taking away a file that was put where none was leaves the tree as it was. -/
theorem remove_put (h : tree.file? location = none) (file : File) :
    (tree.put location file).remove location = tree := by
  have hkeep : tree.files.filter (fun item => item.1 != location) = tree.files := by
    refine List.filter_eq_self.mpr fun item hi => ?_
    exact bne_iff_ne.mpr (fst_ne_of_file?_eq_none h hi)
  rw [put, if_neg (by simp [h]), remove, List.filter_append, hkeep]
  simp

/-- A filled staged file takes over the permission bits and the place of the old file. -/
theorem rename_setMode_put (h : tree.file? staged = none) (bytes : Bytes) (mode : Nat) :
    ((tree.put staged ⟨bytes, stagedMode⟩).setMode staged mode).rename staged location =
      tree.put location ⟨bytes, mode⟩ := by
  rw [setMode_put, rename, file?_put, if_pos rfl]
  exact congrArg (fun tree => put tree location _) (remove_put h _)

end Staging

end FileTree

section Steps

variable {α β : Type} {result : Except Failure α} {next : α → Except Failure β} {last : β}
  {failure : Failure} {undertaking : Undertaking}

theorem bind_eq_ok_iff : (result >>= next) = .ok last ↔
    ∃ value, result = .ok value ∧ next value = .ok last := by
  cases result <;> simp [Bind.bind, Except.bind]

theorem bind_eq_error_iff : (result >>= next) = .error failure ↔
    result = .error failure ∨ ∃ value, result = .ok value ∧ next value = .error failure := by
  cases result <;> simp [Bind.bind, Except.bind]

theorem mapError_eq_ok_iff {answer : Except Fault α} {value : α} :
    answer.mapError (⟨[undertaking], ·⟩) = (.ok value : Except Failure α) ↔
      answer = .ok value := by
  cases answer <;> simp [Except.mapError]

theorem undertakings_of_mapError {answer : Except Fault α}
    (h : answer.mapError (⟨[undertaking], ·⟩) = .error failure) :
    failure.undertakings = [undertaking] := by
  cases answer with
  | error fault => exact Except.error.inj h ▸ rfl
  | ok value => cases h

end Steps

namespace Surroundings

variable {around : Surroundings} {tree after : FileTree} {location staged : Location}
  {path : Text} {bytes : Bytes} {old : File} {failure : Failure} {undertaking : Undertaking}

theorem undertakings_of_attempt (h : around.attempt tree undertaking = .error failure) :
    failure.undertakings = [undertaking] := by
  unfold attempt at h
  split at h
  · exact Except.error.inj h ▸ rfl
  · cases h

theorem undertakings_of_stagingPlace (h : around.stagingPlace tree path = .error failure) :
    failure.undertakings = [.stagingIn (stagingFolder path)] := by
  rcases bind_eq_error_iff.mp h with hattempt | ⟨-, -, hfolder⟩
  · exact undertakings_of_attempt hattempt
  · exact undertakings_of_mapError hfolder

/-- The undertakings that fill a staged file and put it in its place. -/
def fillingSteps (path : Text) : List Undertaking :=
  [.writingStaged path, .readingMetadata path, .copyingPermissions path, .replacingFile path]

theorem undertakings_of_fillStaged
    (h : around.fillStaged tree staged path bytes = .error failure) :
    ∃ step ∈ fillingSteps path, failure.undertakings = [step] := by
  unfold fillStaged at h
  rcases bind_eq_error_iff.mp h with hw | ⟨-, -, h⟩
  · exact ⟨.writingStaged path, by simp [fillingSteps], undertakings_of_attempt hw⟩
  rcases bind_eq_error_iff.mp h with hm | ⟨-, -, h⟩
  · exact ⟨.readingMetadata path, by simp [fillingSteps], undertakings_of_attempt hm⟩
  rcases bind_eq_error_iff.mp h with hm | ⟨location, -, h⟩
  · exact ⟨.readingMetadata path, by simp [fillingSteps], undertakings_of_mapError hm⟩
  rcases bind_eq_error_iff.mp h with hc | ⟨-, -, h⟩
  · exact ⟨.copyingPermissions path, by simp [fillingSteps], undertakings_of_attempt hc⟩
  rcases bind_eq_error_iff.mp h with hp | ⟨-, -, h⟩
  · exact ⟨.replacingFile path, by simp [fillingSteps], undertakings_of_attempt hp⟩
  split at h
  · cases h
  · exact ⟨.replacingFile path, by simp [fillingSteps], Except.error.inj h ▸ rfl⟩

/-- A staged file that came into its place took it from the file that the path leads to. -/
theorem eq_rename_of_fillStaged (h : around.fillStaged tree staged path bytes = .ok after) :
    let filled := tree.put staged ⟨bytes, FileTree.stagedMode⟩
    ∃ location old, filled.resolve path = .ok location ∧ filled.file? location = some old ∧
      after = (filled.setMode staged old.mode).rename staged location := by
  unfold fillStaged at h
  obtain ⟨-, -, h⟩ := bind_eq_ok_iff.mp h
  obtain ⟨-, -, h⟩ := bind_eq_ok_iff.mp h
  obtain ⟨location, hr, h⟩ := bind_eq_ok_iff.mp h
  obtain ⟨-, -, h⟩ := bind_eq_ok_iff.mp h
  obtain ⟨-, -, h⟩ := bind_eq_ok_iff.mp h
  split at h
  · next old hold =>
    exact ⟨location, old, mapError_eq_ok_iff.mp hr, hold, (Except.ok.inj h).symm⟩
  · cases h

/-- A failed replacement leaves the tree as it was and names the step that failed. -/
theorem replace_of_error (h : (around.replace tree path bytes).1 = .error failure) :
    (around.replace tree path bytes).2 = tree ∧
      ∃ step ∈ .stagingIn (stagingFolder path) :: fillingSteps path,
        failure.undertakings = [step] := by
  unfold replace at h ⊢
  cases hplace : around.stagingPlace tree path with
  | error refused =>
    rw [hplace] at h
    obtain rfl := Except.error.inj h
    exact ⟨rfl, _, List.mem_cons_self, undertakings_of_stagingPlace hplace⟩
  | ok folder =>
    simp only [hplace] at h ⊢
    split at h
    · cases h
    · next refused hfill =>
      obtain rfl := Except.error.inj h
      obtain ⟨step, hstep, hu⟩ := undertakings_of_fillStaged hfill
      exact ⟨FileTree.remove_put (around.file?_name tree folder) _, step,
        List.mem_cons_of_mem _ hstep, hu⟩

/-- A file that a path leads to is replaced in its place, whatever the staged file was called. -/
theorem replace_of_ok (hr : tree.resolve path = .ok location)
    (hf : tree.file? location = some old) (h : (around.replace tree path bytes).1 = .ok ()) :
    (around.replace tree path bytes).2 = tree.put location ⟨bytes, old.mode⟩ := by
  unfold replace at h ⊢
  cases hplace : around.stagingPlace tree path with
  | error refused =>
    rw [hplace] at h
    cases h
  | ok folder =>
    simp only [hplace] at h ⊢
    split at h
    · next after hfill =>
      obtain ⟨place, last, hr', hf', rfl⟩ := eq_rename_of_fillStaged hfill
      have hnew := around.file?_name tree folder
      have hne : location ≠ folder ++ [around.name tree folder] := by
        rintro rfl
        cases hnew.symm.trans hf
      rw [FileTree.put_put] at hr' hf' ⊢
      obtain rfl := Except.ok.inj (((tree.changesWithin_put _ _).resolve hr).symm.trans hr')
      rw [FileTree.file?_put, if_neg hne, hf] at hf'
      obtain rfl := Option.some.inj hf'
      exact FileTree.rename_setMode_put hnew bytes old.mode
    · cases h

/-- Nothing but the tree prevents anything. -/
structure Faultless (around : Surroundings) : Prop where
  openFault?_eq : ∀ tree path, around.openFault? tree path = none
  fault?_eq : ∀ tree undertaking, around.fault? tree undertaking = none

theorem faultless_undisturbed : undisturbed.Faultless := ⟨fun _ _ => rfl, fun _ _ => rfl⟩

theorem Faultless.readText_eq (h : around.Faultless) (tree : FileTree) (path : Text) :
    around.readText tree path = tree.readText path := by
  rw [readText, openPath, h.openFault?_eq]
  rfl

/-- What may be read is what the file holds. -/
theorem readText_of_ok {text : Text} (h : around.readText tree path = .ok text) :
    tree.readText path = .ok text := by
  rw [readText, openPath] at h
  split at h
  · cases h
  · exact h

theorem Faultless.attempt_eq_ok (h : around.Faultless) (tree : FileTree)
    (undertaking : Undertaking) : around.attempt tree undertaking = .ok () := by
  rw [attempt, h.fault?_eq]

/-- Without faults a file that a path leads to is replaced. -/
theorem Faultless.replace_eq (h : around.Faultless) (hr : tree.resolve path = .ok location)
    (hf : tree.file? location = some old) (bytes : Bytes) :
    around.replace tree path bytes = (.ok (), tree.put location ⟨bytes, old.mode⟩) := by
  suffices hok : (around.replace tree path bytes).1 = .ok () from
    Prod.ext hok (replace_of_ok hr hf hok)
  obtain ⟨folder, hfolder, -⟩ := FileTree.exists_resolveFolder_stagingFolder hr
  have hplace : around.stagingPlace tree path = .ok folder :=
    bind_eq_ok_iff.mpr ⟨(), h.attempt_eq_ok _ _, mapError_eq_ok_iff.mpr hfolder⟩
  have hnew := around.file?_name tree folder
  have hne : location ≠ folder ++ [around.name tree folder] := by
    rintro rfl
    cases hnew.symm.trans hf
  have hthere := (tree.changesWithin_put (folder ++ [around.name tree folder])
    ⟨bytes, FileTree.stagedMode⟩).resolve hr
  unfold replace
  simp only [hplace, fillStaged, h.attempt_eq_ok, FileTree.put_put, hthere, Except.mapError,
    FileTree.file?_put, if_neg hne, hf, Bind.bind, Except.bind]

end Surroundings

end CommentSweep
