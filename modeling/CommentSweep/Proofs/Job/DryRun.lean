import CommentSweep.Proofs.Job.Applying

/-!
# Dry runs

A dry run reports the leftovers in the texts as they are, while the sweep that it stands for applies
a list to the text that the lists before it have left.
-/

namespace CommentSweep

variable {tree : FileTree} {lists : List RemovalList}

/-- No list follows one that rewrites its file. -/
def FileTree.RewritesLast (tree : FileTree) (lists : List RemovalList) : Prop :=
  lists.Pairwise fun earlier later => tree.SameFile earlier.path later.path →
    (tree.readText earlier.path).map earlier.sweep = tree.readText earlier.path

instance : Decidable (tree.RewritesLast lists) := inferInstanceAs (Decidable (lists.Pairwise _))

/-- Every list leaves over at its turn what it leaves over in the tree before all lists. -/
def FileTree.LeavesAlike (tree : FileTree) (lists : List RemovalList) : Prop :=
  ∀ place : Fin lists.length, (tree.atTurn lists false place).leftovers? (lists.get place) =
    tree.leftovers? (lists.get place)

instance : Decidable (tree.LeavesAlike lists) := inferInstanceAs (Decidable (∀ _ : Fin _, _))

/-- A list that follows none that rewrites its file meets the text that was there before all. -/
theorem FileTree.RewritesLast.leavesAlike (h : tree.RewritesLast lists) :
    tree.LeavesAlike lists := by
  intro place
  rw [FileTree.leftovers?, atTurn_eq_swept, readText_swept_false, FileTree.leftovers?]
  cases hread : tree.readText (lists.get place).path with
  | error fault => rfl
  | ok content =>
    suffices hsame : ((lists.take place).filter fun list =>
        tree.resolve list.path = tree.resolve (lists.get place).path).foldl
          (fun text list => list.sweep text) content = content by
      simp only [Except.map, hsame]
    refine List.foldlRecOn (motive := (· = content)) _ _ rfl fun text htext list hl => ?_
    obtain ⟨hl, hpath⟩ := List.mem_filter.mp hl
    rw [decide_eq_true_eq] at hpath
    obtain ⟨earlier, hlt, rfl⟩ := List.mem_take_iff_getElem.mp hl
    have hearlier : tree.readText lists[earlier].path = .ok content :=
      (readText_congr hpath).trans hread
    have hkeeps := List.pairwise_iff_getElem.mp h earlier place (by omega) place.isLt (by omega)
    rw [hearlier] at hkeeps
    rw [htext]
    exact Except.ok.inj (hkeeps (sameFile_of_readText hearlier hpath))

/-- Both runs report the same of every list exactly if each leaves over the same at its turn. -/
theorem leavesAlike_iff (tree : FileTree) (lists : List RemovalList) :
    tree.LeavesAlike lists ↔
      ((sweepEach true lists).run tree).value.map ListSweep.leftovers? =
        ((sweepEach false lists).run tree).value.map ListSweep.leftovers? := by
  have hreports (dryRun : Bool) :
      ((sweepEach dryRun lists).run tree).value.map ListSweep.leftovers? =
        (List.finRange lists.length).map fun place : Fin lists.length =>
          (tree.atTurn lists dryRun place).leftovers? (lists.get place) := by
    rw [value_sweepEach, List.map_map]
    exact List.map_congr_left fun place _ => tree.leftovers?_outcomeAt dryRun lists place
  rw [hreports, hreports, List.map_inj_left, FileTree.LeavesAlike]
  simp only [FileTree.atTurn_eq_swept, FileTree.swept_true, List.mem_finRange, forall_const,
    eq_comm]

/-- A dry run changes nothing, and counts lists and reports failures like the sweep. It reports the
leftovers of the sweep if each list meets them at its turn. -/
theorem sweepAll_dryRun (tree : FileTree) (lists : List RemovalList) :
    let tried := (sweepAll lists true).run tree
    let swept := (sweepAll lists false).run tree
    tried.tree = tree ∧
      tried.value.processed = swept.value.processed ∧
      tried.value.failed = swept.value.failed ∧
      tried.value.leftovers = lists.filterMap tree.leftovers? ∧
      (tree.LeavesAlike lists → tried.value.leftovers = swept.value.leftovers) ∧
      (tree.RewritesLast lists → tried.value.leftovers = swept.value.leftovers) := by
  intro tried swept
  have htried : tried.value.leftovers = (List.finRange lists.length).filterMap fun place =>
      tree.leftovers? (lists.get place) := by
    simp only [tried, leftovers_sweepAll, FileTree.atTurn_eq_swept, FileTree.swept_true]
  have halike (h : tree.LeavesAlike lists) : tried.value.leftovers = swept.value.leftovers := by
    rw [htried, leftovers_sweepAll]
    exact List.filterMap_congr fun place _ => (h place).symm
  refine ⟨tree_sweepAll true lists tree, ?_, ?_, ?_, halike, fun h => halike h.leavesAlike⟩
  · simp only [tried, swept, processed_sweepAll]
  · simp only [tried, swept, failed_sweepAll]
  · rw [htried, filterMap_get_finRange]

/-- A list that leaves its file as it is before another one, and two that rewrite one file. -/
theorem sweepAll_dryRun_two_files :
    let tree : FileTree :=
      ⟨[(["a.c".toList], ⟨encode "// a\nint x;\n".toList, 0o644⟩),
        (["b.c".toList], ⟨encode "int y; // b\n".toList, 0o644⟩)], [], []⟩
    let lists : List RemovalList :=
      [⟨"a.c".toList, ["// gone".toList]⟩, ⟨"b.c".toList, ["int y; // b".toList]⟩,
        ⟨"./a.c".toList, ["// a".toList]⟩]
    let twice : FileTree := ⟨[(["a.c".toList], ⟨encode "// a\n// b\nint c;\n".toList, 0o644⟩)], [], []⟩
    let both : List RemovalList :=
      [⟨"a.c".toList, ["// a".toList]⟩, ⟨"a.c".toList, ["// b".toList]⟩]
    (tree.RewritesLast lists ∧
      ((sweepAll lists true).run tree).value.leftovers =
        ((sweepAll lists false).run tree).value.leftovers ∧
      ((sweepAll lists true).run tree).value.leftovers =
        [⟨"a.c".toList, 1, [⟨0, "// gone".toList⟩]⟩]) ∧
    (twice.LeavesAlike both ∧ ¬ twice.RewritesLast both ∧
      ((sweepAll both true).run twice).value.leftovers =
        ((sweepAll both false).run twice).value.leftovers ∧
      ((sweepAll both false).run twice).value.rewritten = 2) := by
  intro tree lists twice both
  have hlast : tree.RewritesLast lists := by decide +kernel
  obtain ⟨-, -, -, hleft, -, hsame⟩ := sweepAll_dryRun tree lists
  have halike : twice.LeavesAlike both := by decide +kernel
  obtain ⟨-, -, -, -, htwice, -⟩ := sweepAll_dryRun twice both
  refine ⟨⟨hlast, hsame hlast, hleft.trans ?_⟩, halike, ?_, htwice halike, ?_⟩ <;> decide +kernel

/-- Two lists for the only comment of a file. The sweep reports the second entry. -/
theorem sweepAll_dryRun_named_twice :
    let tree : FileTree := ⟨[(["a.c".toList], ⟨encode "// a\nint x;\n".toList, 0o644⟩)], [], []⟩
    let lists : List RemovalList :=
      [⟨"a.c".toList, ["// a".toList]⟩, ⟨"a.c".toList, ["// a".toList]⟩]
    ((sweepAll lists true).run tree).value.leftovers = [] ∧
      ((sweepAll lists false).run tree).value.leftovers =
        [⟨"a.c".toList, 1, [⟨0, "// a".toList⟩]⟩] := by
  decide +kernel

end CommentSweep
