import CommentSweep.Proofs.Job.Applying
import Mathlib.Order.Fin.Basic

/-!
# Lists for different files are independent

Neighbouring lists for different files can be exchanged, and every order that keeps the lists of one
file as they follow each other is reached by such exchanges.
-/

namespace CommentSweep

/-- A sequence comes from another one by exchanging neighbours that are apart. -/
inductive Reordered {α : Type} (apart : α → α → Prop) : List α → List α → Prop
  | nil : Reordered apart [] []
  | cons (item : α) {before after : List α} :
      Reordered apart before after → Reordered apart (item :: before) (item :: after)
  | swap {earlier later : α} (rest : List α) :
      apart later earlier → Reordered apart (earlier :: later :: rest) (later :: earlier :: rest)
  | trans {before middle after : List α} :
      Reordered apart before middle → Reordered apart middle after → Reordered apart before after

namespace Reordered

variable {α : Type} {apart : α → α → Prop}

theorem refl (items : List α) : Reordered apart items items := by
  induction items with
  | nil => exact .nil
  | cons item rest ih => exact .cons item ih

/-- An item goes to the front past items that it is apart from. -/
theorem front {item : α} {earlier : List α} (h : ∀ other ∈ earlier, apart item other)
    (rest : List α) : Reordered apart (earlier ++ item :: rest) (item :: (earlier ++ rest)) := by
  induction earlier with
  | nil => exact .refl _
  | cons first more ih =>
    obtain ⟨hfirst, hmore⟩ := List.forall_mem_cons.mp h
    exact .trans (.cons first (ih hmore)) (.swap (more ++ rest) hfirst)

/-- An ascending sequence can be brought into every order in which items not apart still ascend. -/
theorem of_perm [Preorder α] {before after : List α} (hperm : after.Perm before)
    (hascends : before.Pairwise (· < ·)) (hkeep : after.Pairwise fun i j => ¬ apart i j → i < j) :
    Reordered apart before after := by
  induction after generalizing before with
  | nil =>
    rw [List.nil_perm.mp hperm]
    exact .nil
  | cons item rest ih =>
    obtain ⟨earlier, later, rfl⟩ := List.append_of_mem (hperm.mem_iff.mp List.mem_cons_self)
    obtain ⟨hitem, hrest⟩ := List.pairwise_cons.mp hkeep
    have hfront : ∀ other ∈ earlier, apart item other := by
      intro other ho
      have hlt := (List.pairwise_append.mp hascends).2.2 other ho item List.mem_cons_self
      have hmem : other ∈ item :: rest := hperm.mem_iff.mpr (List.mem_append_left _ ho)
      obtain rfl | hmem := List.mem_cons.mp hmem
      · exact absurd hlt (lt_irrefl _)
      · by_contra hnot
        exact lt_asymm hlt (hitem other hmem hnot)
    have hperm' : rest.Perm (earlier ++ later) :=
      (hperm.trans List.perm_middle).cons_inv
    have hascends' : (earlier ++ later).Pairwise (· < ·) :=
      hascends.sublist (List.Sublist.append_left (List.sublist_cons_self _ _) _)
    exact .trans (front hfront later) (.cons item (ih hperm' hascends' hrest))

end Reordered

section Exchanging

variable {tree : FileTree} {dryRun : Bool} {first second : RemovalList}

/-- A list leaves other files to read as they are. -/
theorem FileTree.readText_swept_singleton {other : Text} (h : ¬ tree.SameFile first.path other) :
    (tree.swept dryRun [first]).readText other = tree.readText other := by
  cases dryRun with
  | true => rfl
  | false => exact readText_edit_of_not_sameFile h

/-- Two lists that name different files leave the same tree in either order. -/
theorem FileTree.swept_swap (h : ¬ tree.SameFile first.path second.path)
    (rest : List RemovalList) :
    tree.swept dryRun (second :: first :: rest) = tree.swept dryRun (first :: second :: rest) := by
  cases dryRun with
  | true => rfl
  | false =>
    exact congrArg (fun tree => FileTree.swept tree false rest) (edit_comm h _ _).symm

variable {ι : Type} {list : ι → RemovalList} {before after : List ι}

/-- Lists that are reordered by exchanging neighbours for different files come to the same. Which
lists are for different files is told by any tree of the same shape. -/
theorem sweepEach_of_reordered (dryRun : Bool) {start : FileTree}
    (h : Reordered (fun i j => ¬ start.SameFile (list i).path (list j).path) before after)
    (hs : FileTree.SameShape start tree) :
    tree.swept dryRun (after.map list) = tree.swept dryRun (before.map list) ∧
      (after.zip ((sweepEach dryRun (after.map list)).run tree).value).Perm
        (before.zip ((sweepEach dryRun (before.map list)).run tree).value) := by
  induction h generalizing tree with
  | nil => exact ⟨rfl, .refl _⟩
  | cons item _ ih =>
    obtain ⟨htree, hperm⟩ := ih (hs.trans (tree.sameShape_swept dryRun [list item]))
    constructor
    · rw [List.map_cons, List.map_cons, FileTree.swept_cons, htree, ← FileTree.swept_cons]
    · simp only [List.map_cons, value_sweepEach_cons, List.zip_cons_cons]
      exact hperm.cons _
  | @swap earlier later rest hne =>
    rw [← hs.sameFile_iff] at hne
    have hne' := mt FileTree.SameFile.symm hne
    have hrest : tree.swept dryRun [list earlier, list later] =
        tree.swept dryRun [list later, list earlier] := FileTree.swept_swap hne []
    refine ⟨FileTree.swept_swap hne' _, ?_⟩
    simp only [List.map_cons, value_sweepEach_cons, List.zip_cons_cons,
      FileTree.readText_swept_singleton hne, FileTree.readText_swept_singleton hne',
      ← FileTree.swept_cons, hrest]
    exact .swap _ _ _
  | trans _ _ ih ih' =>
    obtain ⟨htree, hperm⟩ := ih hs
    obtain ⟨htree', hperm'⟩ := ih' hs
    exact ⟨htree'.trans htree, hperm'.trans hperm⟩

end Exchanging

section Orders

variable {tree : FileTree} {lists : List RemovalList} {order : List (Fin lists.length)}

/-- Such an order leaves the same tree, and each list comes to the same at its own place. -/
theorem sweepEach_order (hperm : order.Perm (List.finRange lists.length))
    (hkeep : order.Pairwise fun earlier later =>
      tree.SameFile (lists.get earlier).path (lists.get later).path → earlier < later)
    (dryRun : Bool) :
    tree.swept dryRun (order.map lists.get) = tree.swept dryRun lists ∧
      ((sweepEach dryRun (order.map lists.get)).run tree).value =
        order.map (tree.outcomeAt dryRun lists) := by
  have hreordered : Reordered
      (fun i j => ¬ tree.SameFile (lists.get i).path (lists.get j).path)
      (List.finRange lists.length) order :=
    .of_perm hperm (List.pairwise_lt_finRange _) (hkeep.imp fun h hn => h (not_not.mp hn))
  obtain ⟨htree, hzip⟩ := sweepEach_of_reordered dryRun hreordered (.refl tree)
  rw [List.map_get_finRange] at htree hzip
  refine ⟨htree, ?_⟩
  have hlength : ((sweepEach dryRun (order.map lists.get)).run tree).value.length =
      order.length := by
    rw [value_sweepEach, List.length_map, List.length_finRange, List.length_map]
  generalize ((sweepEach dryRun (order.map lists.get)).run tree).value = values at *
  have hpairs : ∀ pair ∈ order.zip values, pair.2 = tree.outcomeAt dryRun lists pair.1 := by
    intro pair hp
    have hm := hzip.mem_iff.mp hp
    rw [value_sweepEach, ← List.map_prod_left_eq_zip] at hm
    obtain ⟨place, -, rfl⟩ := List.mem_map.mp hm
    rfl
  calc values = (order.zip values).map Prod.snd := (List.map_snd_zip hlength.le).symm
    _ = (order.zip values).map (tree.outcomeAt dryRun lists ∘ Prod.fst) :=
      List.map_congr_left hpairs
    _ = order.map (tree.outcomeAt dryRun lists) := by
      rw [← List.map_map, List.map_fst_zip hlength.ge]

/-- An order that keeps the lists of one file as they follow each other leaves the same tree and
gives the same counts, and each list comes to the same. A file that can be read holds in the end its
old text with its lists swept out of it. -/
theorem sweepAll_order (hperm : order.Perm (List.finRange lists.length))
    (hkeep : order.Pairwise fun earlier later =>
      tree.SameFile (lists.get earlier).path (lists.get later).path → earlier < later)
    (dryRun : Bool) :
    let given := (sweepAll lists dryRun).run tree
    let reordered := (sweepAll (order.map lists.get) dryRun).run tree
    let leftovers? (place : Fin lists.length) :=
      (tree.atTurn lists dryRun place).leftovers? (lists.get place)
    let failed? (place : Fin lists.length) := tree.failed? (lists.get place)
    reordered.tree = given.tree ∧
      reordered.value.processed = given.value.processed ∧
      reordered.value.rewritten = given.value.rewritten ∧
      (given.value.leftovers = (List.finRange lists.length).filterMap leftovers? ∧
        reordered.value.leftovers = order.filterMap leftovers?) ∧
      (given.value.failed = (List.finRange lists.length).filterMap failed? ∧
        reordered.value.failed = order.filterMap failed?) ∧
      (dryRun = false → ∀ path content, tree.readText path = .ok content →
        given.tree.readText path = .ok
          ((lists.filter fun list => tree.resolve list.path = tree.resolve path).foldl
            (fun text list => (sweepText text list.entries).content) content)) := by
  intro given reordered leftovers? failed?
  obtain ⟨htree, hvalue⟩ := sweepEach_order hperm hkeep dryRun
  have hgiven : given.value =
      .of dryRun ((List.finRange lists.length).map (tree.outcomeAt dryRun lists)) :=
    account_sweepAll tree dryRun lists
  have hreordered : reordered.value = .of dryRun (order.map (tree.outcomeAt dryRun lists)) := by
    rw [← hvalue, ← value_sweepAll]
  have houtcomes := hperm.map (tree.outcomeAt dryRun lists)
  rw [hgiven, hreordered]
  refine ⟨?_, houtcomes.length_eq, ?_, ⟨Account.leftovers_of .., Account.leftovers_of ..⟩,
    ⟨Account.failed_of .., Account.failed_of ..⟩, ?_⟩
  · simp only [given, reordered, tree_sweepAll, htree]
  · simp only [Account.of, houtcomes.countP_eq]
  · rintro rfl path content hread
    simp only [given, tree_sweepAll, tree.readText_swept_false, hread, Except.map]
    rfl

/-- Lists for two files, one of them named twice, and a missing one. -/
theorem sweepAll_order_two_files :
    let first : File := ⟨encode "// one\nint a; // two\n// one\n".toList, 0o644⟩
    let second : File := ⟨encode "int b; // three\n".toList, 0o600⟩
    let tree : FileTree := ⟨[(["a.c".toList], first), (["b.c".toList], second)], [], []⟩
    let lists : List RemovalList :=
      [⟨"a.c".toList, ["// one".toList]⟩, ⟨"b.c".toList, ["// gone".toList]⟩,
        ⟨"lost.c".toList, []⟩, ⟨"./a.c".toList, ["int a; // two".toList, "// one".toList]⟩]
    let order : List (Fin lists.length) := [(2 : Fin 4), 0, 3, 1]
    let given := (sweepAll lists false).run tree
    let reordered := (sweepAll (order.map lists.get) false).run tree
    order.Perm (List.finRange lists.length) ∧
      (order.Pairwise fun earlier later =>
        tree.SameFile (lists.get earlier).path (lists.get later).path → earlier < later) ∧
      reordered.tree = given.tree ∧
      given.tree.readText "a.c".toList = .ok "int a;\n".toList ∧
      reordered.value.rewritten = 2 ∧
      reordered.value.leftovers = [⟨"b.c".toList, 1, [⟨0, "// gone".toList⟩]⟩] ∧
      reordered.value.failed =
        [⟨"lost.c".toList, ⟨[.readingFile "lost.c".toList], .notFound⟩⟩] := by
  intro first second tree lists order given reordered
  have hperm : order.Perm (List.finRange lists.length) := by decide +kernel
  have hkeep : order.Pairwise fun earlier later =>
      tree.SameFile (lists.get earlier).path (lists.get later).path → earlier < later := by
    decide +kernel
  have hread : tree.readText "a.c".toList = .ok "// one\nint a; // two\n// one\n".toList := by
    decide +kernel
  obtain ⟨htree, -, hrewritten, ⟨-, hleft⟩, ⟨-, hfailed⟩, hcontent⟩ :=
    sweepAll_order hperm hkeep false
  refine ⟨hperm, hkeep, htree, ?_, ?_, ?_, ?_⟩
  · rw [hcontent rfl _ _ hread]
    decide +kernel
  · rw [hrewritten]
    decide +kernel
  · rw [hleft]
    decide +kernel
  · rw [hfailed]
    decide +kernel

end Orders

end CommentSweep
