import CommentSweep.Proofs.Job.Applying

/-!
# Sweeps that their surroundings disturb

A list that its surroundings keep from being applied has no effect, so a disturbed sweep is the
undisturbed one by the lists that did not fail.
-/

namespace CommentSweep

section Faultless

variable {around : Surroundings}

/-- Surroundings that only name the staged files show nowhere. -/
theorem runIn_sweepFile_eq_run (h : around.Faultless) (dryRun : Bool) (list : RemovalList)
    (tree : FileTree) : (sweepFile list.path list.entries dryRun).runIn around tree =
      (sweepFile list.path list.entries dryRun).run tree := by
  have hread : Surroundings.undisturbed.readText tree list.path =
      around.readText tree list.path := (h.readText_eq tree list.path).symm
  unfold Job.run
  rcases sweepFile_cases dryRun list tree around with
    ⟨fault, ht⟩ | ⟨content, ht, hk⟩ | ⟨content, location, old, rfl, ht, hr, hf, -, hne⟩
  · rw [runIn_sweepFile_of_error ht, runIn_sweepFile_of_error (hread.trans ht)]
  · rw [runIn_sweepFile_of_kept ht hk, runIn_sweepFile_of_kept (hread.trans ht) hk]
  · rw [runIn_sweepFile_of_ne ht hne (h.replace_eq hr hf _),
      runIn_sweepFile_of_ne (hread.trans ht) hne
        (Surroundings.faultless_undisturbed.replace_eq hr hf _)]

theorem runIn_sweepList_eq_run (h : around.Faultless) (dryRun : Bool) (list : RemovalList)
    (tree : FileTree) :
    (sweepList dryRun list).runIn around tree = (sweepList dryRun list).run tree := by
  simp [sweepList, Job.runIn_bind, Job.run_bind, runIn_sweepFile_eq_run h]

theorem runIn_sweepEach_eq_run (h : around.Faultless) (dryRun : Bool) (lists : List RemovalList)
    (tree : FileTree) :
    (sweepEach dryRun lists).runIn around tree = (sweepEach dryRun lists).run tree := by
  induction lists generalizing tree with
  | nil => rfl
  | cons list rest ih => simp [sweepEach, Job.runIn_bind, Job.run_bind, runIn_sweepList_eq_run h, ih]

/-- What the staged files are called makes no difference to a sweep. -/
theorem runIn_sweepAll_eq_run (h : around.Faultless) (dryRun : Bool) (lists : List RemovalList)
    (tree : FileTree) :
    (sweepAll lists dryRun).runIn around tree = (sweepAll lists dryRun).run tree := by
  cases lists <;>
    simp [sweepAll, Job.runIn_bind, Job.run_bind, runIn_sweepEach_eq_run h]

end Faultless

section Disturbed

variable (around : Surroundings) (dryRun : Bool) (list : RemovalList) (lists : List RemovalList)
  (tree : FileTree)

/-- The undertakings that can fail when the file at a path is swept. -/
def sweepingSteps (path : Text) : List Undertaking :=
  .readingFile path :: .stagingIn (stagingFolder path) :: Surroundings.fillingSteps path

/-- A file is swept as it is where nothing disturbs, or a step fails and nothing was done. -/
theorem runIn_sweepFile_cases :
    let swept := (sweepFile list.path list.entries dryRun).runIn around tree
    ((list.outcome (tree.readText list.path)).result = swept.value ∧
        tree.swept dryRun [list] = swept.tree ∧ ∃ done, swept.value = .ok done) ∨
      swept.tree = tree ∧ ∃ failure, swept.value = .error failure ∧
        ∃ step ∈ sweepingSteps list.path, failure.undertakings = [step] := by
  intro swept
  rcases sweepFile_cases dryRun list tree around with
    ⟨fault, ht⟩ | ⟨content, ht, hk⟩ | ⟨content, location, old, rfl, ht, hr, hf, hb, hne⟩
  · right
    have hrun : swept = ⟨.error ⟨[.readingFile list.path], fault⟩, tree, []⟩ :=
      runIn_sweepFile_of_error ht dryRun
    rw [hrun]
    exact ⟨rfl, _, rfl, _, List.mem_cons_self, rfl⟩
  · left
    have hread := Surroundings.readText_of_ok ht
    simp only [swept, runIn_sweepFile_of_kept ht hk, FileTree.swept_singleton_of_kept hread hk]
    exact ⟨by rw [hread]; rfl, trivial, _, rfl⟩
  · cases hreplace : around.replace tree list.path (encode (list.sweep content)) with
    | mk answer after =>
      cases answer with
      | ok done =>
        left
        have hafter := Surroundings.replace_of_ok hr hf (congrArg Prod.fst hreplace)
        rw [hreplace] at hafter
        simp only [swept, runIn_sweepFile_of_ne ht hne hreplace]
        rw [FileTree.swept_false_singleton, FileTree.edit_eq_put hr hf hb hne,
          Surroundings.readText_of_ok ht]
        exact ⟨rfl, hafter.symm, _, rfl⟩
      | error failure =>
        right
        obtain ⟨hsame, step, hstep, hu⟩ :=
          Surroundings.replace_of_error (congrArg Prod.fst hreplace)
        rw [hreplace] at hsame
        simp only [swept, runIn_sweepFile_of_refused ht hne hreplace]
        exact ⟨hsame, failure, rfl, step, List.mem_cons_of_mem _ hstep, hu⟩

/-- A list is applied as it is where nothing disturbs, or it fails at a step and has no effect. -/
theorem runIn_sweepList_cases :
    let done := (sweepList dryRun list).runIn around tree
    done.value.list = list ∧
      (done.value.failure? = none ∧ list.outcome (tree.readText list.path) = done.value ∧
          tree.swept dryRun [list] = done.tree ∨
        done.tree = tree ∧ ∃ failure, done.value.failure? = some failure ∧
          ∃ step ∈ sweepingSteps list.path, failure.undertakings = [step]) := by
  intro done
  have hvalue : done.value =
      ⟨list, ((sweepFile list.path list.entries dryRun).runIn around tree).value⟩ := by
    simp [done, sweepList, Job.runIn_bind]
  have htree : done.tree = ((sweepFile list.path list.entries dryRun).runIn around tree).tree := by
    simp [done, sweepList, Job.runIn_bind]
  rw [hvalue, htree]
  refine ⟨rfl, ?_⟩
  rcases runIn_sweepFile_cases around dryRun list tree with
    ⟨hresult, hswept, result, hr⟩ | ⟨hsame, failure, hr, hstep⟩
  · left
    rw [hr] at hresult ⊢
    refine ⟨rfl, ?_, hswept⟩
    rw [← hresult]
    rfl
  · right
    rw [hr]
    exact ⟨hsame, failure, rfl, hstep⟩

/-- A disturbed sweep is the undisturbed one by the lists that did not fail. -/
theorem runIn_sweepEach_filter :
    let swept := (sweepEach dryRun lists).runIn around tree
    let applied := swept.value.filter fun one => one.failure?.isNone
    let alone := (sweepEach dryRun (applied.map ListSweep.list)).run tree
    swept.value.map ListSweep.list = lists ∧ alone.value = applied ∧ alone.tree = swept.tree ∧
      ∀ one ∈ swept.value, ∀ failure, one.failure? = some failure →
        ∃ step ∈ sweepingSteps one.list.path, failure.undertakings = [step] := by
  induction lists generalizing tree with
  | nil => exact ⟨rfl, rfl, rfl, nofun⟩
  | cons list rest ih =>
    obtain ⟨hlist, hcase⟩ := runIn_sweepList_cases around dryRun list tree
    have hwhole : (sweepEach dryRun (list :: rest)).runIn around tree =
        let first := (sweepList dryRun list).runIn around tree
        let later := (sweepEach dryRun rest).runIn around first.tree
        ⟨first.value :: later.value, later.tree, first.notices ++ later.notices⟩ := by
      simp [sweepEach, Job.runIn_bind]
    rw [hwhole]
    generalize (sweepList dryRun list).runIn around tree = first at *
    obtain ⟨hlists, hvalue, htree, hsteps⟩ := ih first.tree
    intro swept applied alone
    refine ⟨congrArg₂ _ hlist hlists, ?_⟩
    rcases hcase with ⟨hdone, houtcome, hswept⟩ | ⟨rfl, failure, hf, hstep⟩
    · have happlied : applied = first.value :: _ :=
        List.filter_cons_of_pos (by rw [hdone]; rfl)
      simp only [alone, happlied, List.map_cons, hlist]
      refine ⟨?_, ?_, List.forall_mem_cons.mpr ⟨fun failure hf => ?_, hsteps⟩⟩
      · rw [value_sweepEach_cons, houtcome, hswept, hvalue]
      · rw [tree_sweepEach, FileTree.swept_cons, hswept, ← tree_sweepEach, htree]
      · cases hdone.symm.trans hf
    · have happlied : applied = _ := List.filter_cons_of_neg (by rw [hf]; exact Bool.false_ne_true)
      simp only [alone, happlied]
      refine ⟨hvalue, htree, List.forall_mem_cons.mpr ⟨fun other ho => ?_, hsteps⟩⟩
      obtain rfl := Option.some.inj (hf.symm.trans ho)
      rwa [hlist]

/-- Every list either is applied or has its failure reported. -/
theorem Account.length_filter_add_failed (results : List ListSweep) :
    (results.filter (·.failure?.isNone)).length + (Account.of dryRun results).failed.length =
      results.length := by
  have hfailed : (Account.of dryRun results).failed.length =
      results.countP fun one => !one.failure?.isNone := by
    simp only [Account.of, List.length_filterMap_eq_countP, Option.isSome_map,
      Option.not_isNone]
  have hparts := results.length_eq_countP_add_countP fun one => one.failure?.isNone
  simp only [Bool.not_eq_true, Bool.decide_eq_false] at hparts
  rw [hfailed, hparts, ← List.countP_eq_length_filter]

/-- A disturbed sweep comes to what the undisturbed one by the lists that did not fail comes to, and
for every other list it reports the step that failed. -/
theorem sweepAll_disturbed :
    let swept := (sweepAll lists dryRun).runIn around tree
    ∃ applied : List RemovalList, applied.Sublist lists ∧
      let alone := (sweepAll applied dryRun).run tree
      swept.tree = alone.tree ∧ swept.value.rewritten = alone.value.rewritten ∧
        swept.value.leftovers = alone.value.leftovers ∧
        applied.length + swept.value.failed.length = lists.length ∧
        ∀ one ∈ swept.value.failed,
          ∃ step ∈ sweepingSteps one.path, one.failure.undertakings = [step] := by
  obtain ⟨hlists, hvalue, htree, hsteps⟩ := runIn_sweepEach_filter around dryRun lists tree
  obtain ⟨haccount, hafter⟩ := runIn_sweepAll around lists dryRun tree
  intro swept
  generalize ((sweepEach dryRun lists).runIn around tree) = each at *
  obtain ⟨hrewritten, hleft⟩ := Account.of_filter_failed dryRun each.value
  have hcount := Account.length_filter_add_failed dryRun each.value
  generalize happlied : (each.value.filter fun one => one.failure?.isNone) = applied at *
  obtain ⟨halone, hleave⟩ := run_sweepAll (applied.map ListSweep.list) dryRun tree
  rw [hvalue] at halone
  refine ⟨applied.map ListSweep.list, ?_, ?_⟩
  · rw [← hlists, ← happlied]
    exact List.filter_sublist.map ListSweep.list
  · simp only [swept, haccount, hafter, halone, hleave, htree, List.length_map]
    refine ⟨trivial, hrewritten.symm, hleft.symm, ?_, ?_⟩
    · rw [hcount, ← hlists, List.length_map]
    · intro one ho
      obtain ⟨result, hr, hone⟩ := List.mem_filterMap.mp ho
      obtain ⟨failure, hf, rfl⟩ := Option.map_eq_some_iff.mp hone
      exact hsteps result hr failure hf

end Disturbed

end CommentSweep
