import CommentSweep.Proofs.FileTree.Editing
import CommentSweep.Proofs.Job.Running

/-!
# What lists come to, one after the other

No list makes a path readable or unreadable for a later one, and a path is read afterwards as its
old text with the lists that name its file swept out of it in order.
-/

namespace CommentSweep

namespace RemovalList

/-- The text that is left when the entries of a list are swept out of a text. -/
def sweep (list : RemovalList) (text : Text) : Text := (sweepText text list.entries).content

/-- What comes of a list, by what is read through its path. -/
def outcome (list : RemovalList) (read : Except Fault Text) : ListSweep :=
  { list
    result := match read with
      | .ok content =>
        .ok (.of list.path content list.entries.length (sweepText content list.entries))
      | .error fault => .error ⟨[.readingFile list.path], fault⟩ }

end RemovalList

namespace FileTree

/-- The tree after lists were applied to it. -/
def swept (tree : FileTree) (dryRun : Bool) (lists : List RemovalList) : FileTree :=
  if dryRun then tree else lists.foldl (fun tree list => tree.edit list.path list.sweep) tree

section Sequence

variable (tree : FileTree) (dryRun : Bool) (list : RemovalList) (lists rest : List RemovalList)

@[simp] theorem swept_true : tree.swept true lists = tree := rfl

@[simp] theorem swept_nil : tree.swept dryRun [] = tree := by
  cases dryRun <;> rfl

theorem swept_false_singleton : tree.swept false [list] = tree.edit list.path list.sweep := rfl

theorem swept_singleton_eq_self {tree : FileTree} {dryRun : Bool} {list : RemovalList}
    (h : ∀ text, tree.readText list.path = .ok text → list.sweep text = text) :
    tree.swept dryRun [list] = tree := by
  cases dryRun with
  | true => rfl
  | false => exact edit_eq_self h

theorem swept_singleton_of_error {tree : FileTree} {dryRun : Bool} {list : RemovalList}
    {fault : Fault} (h : tree.readText list.path = .error fault) :
    tree.swept dryRun [list] = tree := by
  refine swept_singleton_eq_self fun text ht => ?_
  rw [h] at ht
  cases ht

/-- A list that leaves its text as it is, or is only tried, leaves everything as it is. -/
theorem swept_singleton_of_kept {tree : FileTree} {dryRun : Bool} {list : RemovalList}
    {content : Text} (h : tree.readText list.path = .ok content)
    (hk : list.sweep content = content ∨ dryRun = true) : tree.swept dryRun [list] = tree := by
  rcases hk with hk | rfl
  · exact swept_singleton_eq_self fun text ht => Except.ok.inj (h.symm.trans ht) ▸ hk
  · rfl

/-- The lists behind the first one are applied to the tree that it leaves. -/
theorem swept_cons :
    tree.swept dryRun (list :: rest) = (tree.swept dryRun [list]).swept dryRun rest := by
  cases dryRun <;> rfl

theorem sameShape_swept : SameShape tree (tree.swept dryRun lists) := by
  induction lists generalizing tree with
  | nil => exact (tree.swept_nil dryRun).symm ▸ .refl tree
  | cons list rest ih =>
    rw [swept_cons]
    refine SameShape.trans ?_ (ih _)
    cases dryRun with
    | true => exact .refl tree
    | false => exact tree.sameShape_edit _ _

/-- What is read afterwards is the old text with the lists for its file swept out of it. -/
theorem readText_swept_false (path : Text) :
    (tree.swept false lists).readText path = (tree.readText path).map fun text =>
      (lists.filter fun list => tree.resolve list.path = tree.resolve path).foldl
        (fun text list => list.sweep text) text := by
  induction lists generalizing tree with
  | nil => cases h : tree.readText path <;> simp [h, Except.map]
  | cons list rest ih =>
    have hresolve := (tree.sameShape_edit list.path list.sweep).resolve_eq
    rw [swept_cons, swept_false_singleton, ih, readText_edit]
    simp only [hresolve]
    cases tree.readText path with
    | error fault => rfl
    | ok text =>
      simp only [Except.map, List.filter_cons]
      split <;> simp_all

/-- Lists change the texts that are read, and nothing about which paths can be read. -/
theorem exists_readText_swept (path : Text) : ∃ change : Text → Text,
    (tree.swept dryRun lists).readText path = (tree.readText path).map change := by
  cases dryRun with
  | false => exact ⟨_, tree.readText_swept_false lists path⟩
  | true =>
    refine ⟨id, ?_⟩
    cases h : tree.readText path <;> simp [h, Except.map]

end Sequence

/-- What comes of the list at a place in a sequence, after the lists before it. -/
def outcomeAt (tree : FileTree) (dryRun : Bool) (lists : List RemovalList)
    (place : Fin lists.length) : ListSweep :=
  (lists.get place).outcome ((tree.swept dryRun (lists.take place)).readText (lists.get place).path)

end FileTree

section Running

variable (dryRun : Bool) (list : RemovalList) (rest lists : List RemovalList) (tree : FileTree)

/-- The file of a list cannot be read, is kept as it is, or is to be replaced. -/
theorem sweepFile_cases (around : Surroundings) :
    (∃ fault, around.readText tree list.path = .error fault) ∨
      (∃ content, around.readText tree list.path = .ok content ∧
        (list.sweep content = content ∨ dryRun = true)) ∨
      ∃ content location old, dryRun = false ∧ around.readText tree list.path = .ok content ∧
        tree.resolve list.path = .ok location ∧ tree.file? location = some old ∧
          encode content = old.bytes ∧ list.sweep content ≠ content := by
  cases ht : around.readText tree list.path with
  | error fault => exact Or.inl ⟨fault, rfl⟩
  | ok content =>
    right
    by_cases hk : list.sweep content = content ∨ dryRun = true
    · exact Or.inl ⟨content, rfl, hk⟩
    · obtain ⟨hne, hwet⟩ := not_or.mp hk
      have hread := Surroundings.readText_of_ok ht
      obtain ⟨location, old, hr, hf, hb⟩ := FileTree.readText_eq_ok_iff.mp hread
      exact Or.inr ⟨content, location, old, Bool.eq_false_iff.mpr hwet, rfl, hr, hf, hb, hne⟩

/-- Sweeping a file gives what comes of the list and leaves the tree with its text rewritten. -/
theorem exists_run_sweepFile : ∃ notices, (sweepFile list.path list.entries dryRun).run tree =
    ⟨(list.outcome (tree.readText list.path)).result, tree.swept dryRun [list], notices⟩ := by
  rcases sweepFile_cases dryRun list tree .undisturbed with
    ⟨fault, ht⟩ | ⟨content, ht, hk⟩ | ⟨content, location, old, rfl, ht, hr, hf, hb, hne⟩
  · have hread : tree.readText list.path = .error fault := ht
    rw [FileTree.swept_singleton_of_error hread, hread]
    exact ⟨[], runIn_sweepFile_of_error ht dryRun⟩
  · have hread : tree.readText list.path = .ok content := ht
    rw [FileTree.swept_singleton_of_kept hread hk, hread]
    exact ⟨_, runIn_sweepFile_of_kept ht hk⟩
  · have hread : tree.readText list.path = .ok content := ht
    rw [FileTree.swept_false_singleton, FileTree.edit_eq_put hr hf hb hne, hread]
    exact ⟨_, runIn_sweepFile_of_ne ht hne
      (Surroundings.faultless_undisturbed.replace_eq hr hf _)⟩

/-- Applying a list gives what comes of it and leaves the tree with its text rewritten. -/
theorem exists_run_sweepList : ∃ notices, (sweepList dryRun list).run tree =
    ⟨list.outcome (tree.readText list.path), tree.swept dryRun [list], notices⟩ := by
  obtain ⟨notices, hrun⟩ := exists_run_sweepFile dryRun list tree
  simp [sweepList, Job.run_bind, hrun, RemovalList.outcome]

theorem value_sweepEach_cons : ((sweepEach dryRun (list :: rest)).run tree).value =
    list.outcome (tree.readText list.path) ::
      ((sweepEach dryRun rest).run (tree.swept dryRun [list])).value := by
  obtain ⟨notices, hrun⟩ := exists_run_sweepList dryRun list tree
  simp [sweepEach, Job.run_bind, hrun]

/-- Applying lists leaves the tree with their texts rewritten. -/
theorem tree_sweepEach : ((sweepEach dryRun lists).run tree).tree = tree.swept dryRun lists := by
  induction lists generalizing tree with
  | nil => exact (tree.swept_nil dryRun).symm
  | cons list rest ih =>
    obtain ⟨notices, hrun⟩ := exists_run_sweepList dryRun list tree
    rw [FileTree.swept_cons, ← ih]
    simp [sweepEach, Job.run_bind, hrun]

/-- Every list comes to what is read through its path after the lists before it. -/
theorem value_sweepEach : ((sweepEach dryRun lists).run tree).value =
    (List.finRange lists.length).map (tree.outcomeAt dryRun lists) := by
  induction lists generalizing tree with
  | nil => rfl
  | cons list rest ih =>
    have hplaces : List.finRange (list :: rest).length =
        0 :: (List.finRange rest.length).map Fin.succ := List.finRange_succ
    rw [value_sweepEach_cons, ih, hplaces, List.map_cons, List.map_map]
    refine congrArg₂ _ ?_ (List.map_congr_left fun place _ => ?_)
    · change _ = list.outcome ((tree.swept dryRun []).readText list.path)
      rw [FileTree.swept_nil]
    · change _ = (rest.get place).outcome
        ((tree.swept dryRun (list :: rest.take place)).readText (rest.get place).path)
      rw [FileTree.swept_cons tree dryRun list (rest.take place), FileTree.outcomeAt]

theorem value_sweepAll : ((sweepAll lists dryRun).run tree).value =
    .of dryRun ((sweepEach dryRun lists).run tree).value := (run_sweepAll lists dryRun tree).1

theorem tree_sweepAll : ((sweepAll lists dryRun).run tree).tree = tree.swept dryRun lists :=
  (run_sweepAll lists dryRun tree).2.trans (tree_sweepEach dryRun lists tree)

end Running

namespace FileTree

/-- The failure of a list that is applied to the tree, if its path cannot be read as a text. -/
def failed? (tree : FileTree) (list : RemovalList) : Option FailedFile :=
  match tree.readText list.path with
  | .ok _ => none
  | .error fault => some ⟨list.path, ⟨[.readingFile list.path], fault⟩⟩

/-- The leftovers of a list that is applied to the tree, if there are any. -/
def leftovers? (tree : FileTree) (list : RemovalList) : Option Leftovers :=
  match tree.readText list.path with
  | .ok content => (sweepText content list.entries).leftovers? list.path list.entries.length
  | .error _ => none

/-- The tree when the list at a place has its turn. -/
def atTurn (tree : FileTree) (lists : List RemovalList) (dryRun : Bool) (place : Nat) : FileTree :=
  ((sweepAll (lists.take place) dryRun).run tree).tree

end FileTree

section Accounts

/-- A list that fails has nothing to report but its failure. -/
theorem ListSweep.eq_of_failure? {one : ListSweep} (h : one.failure?.isNone = false) :
    one.changed = false ∧ one.leftovers? = none := by
  obtain ⟨list, result⟩ := one
  cases result with
  | ok done => exact absurd h nofun
  | error failure => exact ⟨rfl, rfl⟩

/-- The lists that fail count neither as rewritten nor as having leftovers. -/
theorem Account.of_filter_failed (dryRun : Bool) (applied : List ListSweep) :
    (Account.of dryRun (applied.filter (·.failure?.isNone))).rewritten =
        (Account.of dryRun applied).rewritten ∧
      (Account.of dryRun (applied.filter (·.failure?.isNone))).leftovers =
        (Account.of dryRun applied).leftovers := by
  constructor
  · have hcount : (applied.filter (·.failure?.isNone)).countP ListSweep.changed =
        applied.countP ListSweep.changed := by
      rw [List.countP_filter]
      refine List.countP_congr fun one _ => ?_
      cases hf : one.failure?.isNone with
      | true => rw [Bool.and_true]
      | false => rw [Bool.and_false, (ListSweep.eq_of_failure? hf).1]
    simp only [Account.of, hcount]
  · simp only [Account.of, List.filterMap_filter]
    refine List.filterMap_congr fun one _ => ?_
    cases hf : one.failure?.isNone with
    | true => rfl
    | false => exact (ListSweep.eq_of_failure? hf).2.symm

theorem filterMap_get_finRange {α β : Type} (items : List α) (give : α → Option β) :
    ((List.finRange items.length).filterMap fun place => give (items.get place)) =
      items.filterMap give := by
  conv_rhs => rw [← List.map_get_finRange items, List.filterMap_map]
  rfl

variable (tree : FileTree) (dryRun : Bool) (lists : List RemovalList)

/-- At its turn a list meets the tree that the lists before it have left. -/
theorem FileTree.atTurn_eq_swept (place : Nat) :
    tree.atTurn lists dryRun place = tree.swept dryRun (lists.take place) :=
  tree_sweepAll dryRun (lists.take place) tree

/-- Whether and why a list fails is settled before the lists in front of it. -/
theorem FileTree.failed?_swept (list : RemovalList) :
    (tree.swept dryRun lists).failed? list = tree.failed? list := by
  obtain ⟨change, hread⟩ := tree.exists_readText_swept dryRun lists list.path
  rw [failed?, hread, failed?]
  cases tree.readText list.path <;> rfl

/-- The failure of a list is that in the tree before all lists. -/
theorem FileTree.failure?_outcomeAt (place : Fin lists.length) :
    (tree.outcomeAt dryRun lists place).failure?.map (FailedFile.mk (lists.get place).path) =
      tree.failed? (lists.get place) := by
  rw [outcomeAt, ← tree.failed?_swept dryRun (lists.take place), failed?]
  cases (tree.swept dryRun (lists.take place)).readText (lists.get place).path <;> rfl

/-- The leftovers of a list are those in the tree at its turn. -/
theorem FileTree.leftovers?_outcomeAt (place : Fin lists.length) :
    (tree.outcomeAt dryRun lists place).leftovers? =
      (tree.atTurn lists dryRun place).leftovers? (lists.get place) := by
  rw [outcomeAt, FileTree.leftovers?, atTurn_eq_swept]
  cases (tree.swept dryRun (lists.take place)).readText (lists.get place).path <;> rfl

theorem Account.failed_of (places : List (Fin lists.length)) :
    (Account.of dryRun (places.map (tree.outcomeAt dryRun lists))).failed =
      places.filterMap fun place => tree.failed? (lists.get place) := by
  simp only [Account.of, List.filterMap_map]
  exact List.filterMap_congr fun place _ => tree.failure?_outcomeAt dryRun lists place

theorem Account.leftovers_of (places : List (Fin lists.length)) :
    (Account.of dryRun (places.map (tree.outcomeAt dryRun lists))).leftovers =
      places.filterMap fun place : Fin lists.length =>
        (tree.atTurn lists dryRun place).leftovers? (lists.get place) := by
  simp only [Account.of, List.filterMap_map]
  exact List.filterMap_congr fun place _ => tree.leftovers?_outcomeAt dryRun lists place

/-- The account of lists is drawn from what comes of each at its place. -/
theorem account_sweepAll : ((sweepAll lists dryRun).run tree).value =
    .of dryRun ((List.finRange lists.length).map (tree.outcomeAt dryRun lists)) := by
  rw [value_sweepAll, value_sweepEach]

theorem processed_sweepAll : ((sweepAll lists dryRun).run tree).value.processed = lists.length := by
  rw [account_sweepAll, Account.of, List.length_map, List.length_finRange]

/-- The lists that fail, in order, are those that fail in the tree before all lists. -/
theorem failed_sweepAll :
    ((sweepAll lists dryRun).run tree).value.failed = lists.filterMap tree.failed? := by
  rw [account_sweepAll, Account.failed_of, filterMap_get_finRange]

/-- The leftovers, in order, are those of each list in the tree at its turn. -/
theorem leftovers_sweepAll : ((sweepAll lists dryRun).run tree).value.leftovers =
    (List.finRange lists.length).filterMap fun place : Fin lists.length =>
      (tree.atTurn lists dryRun place).leftovers? (lists.get place) := by
  rw [account_sweepAll, Account.leftovers_of]

end Accounts

end CommentSweep
