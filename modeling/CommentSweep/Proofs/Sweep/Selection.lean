import CommentSweep.Proofs.Sweep.Rewriting
import Mathlib.Data.List.Basic

/-!
# The lines that a sweep removes

A sweep removes one line for each of the leading entries, in file order, and passes over no line
that the next entry could take.
-/

namespace CommentSweep

/-- The places of the lines that are removed, in file order. -/
def removedPlaces (content : Text) (entries : List Text) : List Nat :=
  (verdicts entries .kept (surveyedLines content)).idxsOf .removed

private theorem getElem?_idxsOf_eq_some_iff (vs : List Verdict) (v : Verdict) (k i : Nat) :
    (vs.idxsOf v)[k]? = some i ↔ vs[i]? = some v ∧ (vs.take i).count v = k := by
  rw [List.idxsOf, List.count, ← List.countPBefore_eq_countP_take]
  grind

private theorem countP_lt_idxsOf (vs : List Verdict) (v : Verdict) (i : Nat) :
    (vs.idxsOf v).countP (· < i) = (vs.take i).count v := by
  have hcut : vs.idxsOf v = (vs.take i).idxsOf v ++ (vs.drop i).idxsOf v (vs.take i).length := by
    conv_lhs => rw [← List.take_append_drop i vs]
    rw [List.idxsOf, List.findIdxs_append, Nat.zero_add]
    rfl
  have hbefore : ((vs.take i).idxsOf v).countP (· < i) = ((vs.take i).idxsOf v).length := by
    refine List.countP_eq_length.mpr fun j hj => ?_
    have hlt := List.lt_add_of_mem_idxsOf j hj
    rw [List.length_take] at hlt
    exact decide_eq_true (by omega)
  have hafter : ((vs.drop i).idxsOf v (vs.take i).length).countP (· < i) = 0 := by
    refine List.countP_eq_zero.mpr fun j hj => ?_
    have hge := List.ge_of_mem_idxsOf j hj
    have hlt := List.lt_add_of_mem_idxsOf j hj
    simp only [List.length_take, List.length_drop, decide_eq_true_eq] at *
    omega
  rw [hcut, List.countP_append, hbefore, hafter, Nat.add_zero, List.length_idxsOf]

/-- The entry with index `k` removes the line that `k` removed lines stand before. -/
theorem getElem?_removedPlaces_iff {content : Text} {entries : List Text} {k i : Nat} :
    (removedPlaces content entries)[k]? = some i ↔
      (verdicts entries .kept (surveyedLines content))[i]? = some .removed ∧
        ((verdicts entries .kept (surveyedLines content)).take i).count .removed = k :=
  getElem?_idxsOf_eq_some_iff _ _ _ _

theorem mem_removedPlaces_iff {content : Text} {entries : List Text} {i : Nat} :
    i ∈ removedPlaces content entries ↔
      (verdicts entries .kept (surveyedLines content))[i]? = some .removed := by
  rw [List.mem_iff_getElem?]
  simp only [getElem?_removedPlaces_iff, exists_and_left, exists_eq', and_true]

/-- A removed line is taken by the entry at its turn, given what became of the line before. -/
theorem takes_of_getElem?_removedPlaces {content : Text} {entries : List Text} {k i : Nat}
    (h : (removedPlaces content entries)[k]? = some i) :
    ∃ line entry before, (surveyedLines content)[i]? = some line ∧ entries[k]? = some entry ∧
      (Verdict.kept :: verdicts entries .kept (surveyedLines content))[i]? = some before ∧
        takes entry before line = true := by
  obtain ⟨hv, rfl⟩ := getElem?_removedPlaces_iff.mp h
  exact (getElem?_verdicts_eq_removed_iff entries .kept (surveyedLines content) i).mp hv

/-- A kept line is not taken by the entry at its turn, given what became of the line before. -/
theorem not_takes_of_notMem_removedPlaces {content : Text} {entries : List Text} {i : Nat}
    {line : SurveyedLine} {entry : Text} {before : Verdict} (h : i ∉ removedPlaces content entries)
    (hl : (surveyedLines content)[i]? = some line)
    (he : entries[(removedPlaces content entries).countP (· < i)]? = some entry)
    (hb : (Verdict.kept :: verdicts entries .kept (surveyedLines content))[i]? = some before) :
    ¬ takes entry before line = true := by
  intro ht
  rw [removedPlaces, countP_lt_idxsOf] at he
  exact h (mem_removedPlaces_iff.mpr ((getElem?_verdicts_eq_removed_iff entries .kept _ i).mpr
    ⟨line, entry, before, hl, he, hb, ht⟩))

/-- If the line before a removed one is removed as well, then for the entry before. -/
theorem exists_removed_before {content : Text} {entries : List Text} {k i : Nat}
    (h : (removedPlaces content entries)[k]? = some i)
    (hb : (Verdict.kept :: verdicts entries .kept (surveyedLines content))[i]? = some .removed) :
    ∃ k' i', k = k' + 1 ∧ i = i' + 1 ∧ (removedPlaces content entries)[k']? = some i' := by
  cases i with
  | zero => exact absurd (Option.some.inj hb) nofun
  | succ i' =>
    rw [List.getElem?_cons_succ] at hb
    obtain ⟨-, hk⟩ := getElem?_removedPlaces_iff.mp h
    rw [List.take_add_one, hb, List.count_append] at hk
    exact ⟨_, i', hk.symm, rfl, getElem?_removedPlaces_iff.mpr ⟨hb, rfl⟩⟩

/-- The lines of a text as they are judged, told by the places of the removed ones. -/
theorem judgedLines_eq_map_zipIdx (content : Text) (entries : List Text) :
    judgedLines content entries = (surveyedLines content).zipIdx.map fun placed =>
      (placed.1, if placed.2 ∈ removedPlaces content entries then Verdict.removed else .kept) := by
  refine List.ext_getElem (by simp [judgedLines]) fun i hi _ => ?_
  have hv : i < (verdicts entries .kept (surveyedLines content)).length := by
    rw [judgedLines, List.length_zip] at hi
    exact lt_of_lt_of_le hi (min_le_right _ _)
  simp only [judgedLines, List.getElem_zip, List.getElem_map, List.getElem_zipIdx, Nat.zero_add,
    mem_removedPlaces_iff, List.getElem?_eq_getElem hv, Option.some.injEq]
  cases (verdicts entries .kept (surveyedLines content))[i] <;> rfl

/-- What sweeping entries out of a text comes to if the lines at the given places are removed. -/
structure RemovesAt (content : Text) (entries : List Text) (swept : Swept) (places : List Nat) :
    Prop where
  /-- The lines are removed in file order. -/
  ordered : places.Pairwise (· < ·)
  /-- Every found entry has its line. -/
  length_eq : places.length = swept.matched
  /-- The line has the text of its entry and carries a comment or is blank. -/
  taken : ∀ {k i : Nat}, places[k]? = some i →
    ∃ line entry, (surveyedLines content)[i]? = some line ∧ entries[k]? = some entry ∧
      trimEnd line.line.raw = trimEnd entry ∧
        (line.survey.commented = true ∨ trimEnd line.line.raw = [])
  /-- The line of a blank entry stands directly behind the line of the entry before. -/
  adjacent : ∀ {k i : Nat}, places[k]? = some i → ∀ entry ∈ entries[k]?, trimEnd entry = [] →
    ∃ k' i', k = k' + 1 ∧ i = i' + 1 ∧ places[k']? = some i'
  /-- A removed line behind none carries a comment and is not blank. -/
  leading : ∀ {i : Nat}, i ∈ places → (∀ j ∈ places, j + 1 ≠ i) →
    ∀ line ∈ (surveyedLines content)[i]?,
      line.survey.commented = true ∧ trimEnd line.line.raw ≠ []
  /-- The next entry could not have taken a kept line: their texts differ, the line has no comment,
  or it is blank and the line before it is kept. -/
  waiting : ∀ {i : Nat}, i ∉ places → ∀ line ∈ (surveyedLines content)[i]?,
    ∀ entry ∈ entries[places.countP (· < i)]?, trimEnd line.line.raw = trimEnd entry →
      (line.survey.commented = true ∨ trimEnd line.line.raw = []) →
        trimEnd line.line.raw = [] ∧ ∀ j ∈ places, j + 1 ≠ i
  /-- Kept lines stay as they are; of a removed line its trimmed code and its ending are left, or
  nothing if all code is blank. -/
  content_eq : swept.content = (surveyedLines content).zipIdx.flatMap fun placed =>
    if placed.2 ∈ places then
      if allBlank placed.1.survey.code then []
      else trimEnd placed.1.survey.code ++ placed.1.line.ending.text
    else placed.1.line.raw
  /-- The entries behind the found ones are reported unchanged, each with its index. -/
  unmatched_eq : ∀ j : Nat, swept.unmatched[j]? =
    entries[swept.matched + j]?.map fun entry => ⟨swept.matched + j, entry⟩
  /-- There is an account of them exactly when an entry was not found. -/
  account : ∀ path total, swept.leftovers? path total =
    if swept.matched = entries.length then none else some ⟨path, total, swept.unmatched⟩

/-- As many places are listed as entries are found. -/
theorem length_removedPlaces (content : Text) (entries : List Text) :
    (removedPlaces content entries).length = (sweepText content entries).matched :=
  List.length_idxsOf

theorem matched_sweepText_le (content : Text) (entries : List Text) :
    (sweepText content entries).matched ≤ entries.length := by
  rw [← length_removedPlaces]
  by_contra hlt
  obtain ⟨i, hi⟩ : ∃ i, (removedPlaces content entries)[entries.length]? = some i :=
    ⟨_, List.getElem?_eq_getElem (not_le.mp hlt)⟩
  obtain ⟨_, entry, _, _, he, _⟩ := takes_of_getElem?_removedPlaces hi
  rw [List.getElem?_eq_none le_rfl] at he
  exact absurd he nofun

/-- The entries behind the found ones are left over, each with its place in the list. -/
theorem getElem?_unmatched_sweepText (content : Text) (entries : List Text) (j : Nat) :
    (sweepText content entries).unmatched[j]? =
      entries[(sweepText content entries).matched + j]?.map
        fun entry => ⟨(sweepText content entries).matched + j, entry⟩ := by
  change (leftoversFrom _ entries)[j]? = _
  simp [leftoversFrom, Function.comp_def, sweepText]

/-- No entry is left over exactly if as many are found as there are. -/
theorem unmatched_sweepText_eq_nil_iff {content : Text} {entries : List Text} :
    (sweepText content entries).unmatched = [] ↔
      (sweepText content entries).matched = entries.length := by
  constructor
  · intro h
    have hnext := getElem?_unmatched_sweepText content entries 0
    rw [h, List.getElem?_nil, eq_comm, Option.map_eq_none_iff, List.getElem?_eq_none_iff] at hnext
    exact le_antisymm (matched_sweepText_le content entries) hnext
  · intro h
    refine List.ext_getElem? fun j => ?_
    rw [getElem?_unmatched_sweepText, h, List.getElem?_eq_none (Nat.le_add_right _ _)]
    rfl

/-- A line is removed behind a kept one only for a comment, and it is not blank. -/
theorem commented_of_first_removed {content : Text} {entries : List Text} {i : Nat}
    (hi : i ∈ removedPlaces content entries)
    (hfirst : ∀ j ∈ removedPlaces content entries, j + 1 ≠ i) :
    ∀ line ∈ (surveyedLines content)[i]?, line.survey.commented = true ∧ line.text ≠ [] := by
  intro line hl
  obtain ⟨k, hk⟩ := List.mem_iff_getElem?.mp hi
  obtain ⟨line', _, before, hl', -, hb, ht⟩ := takes_of_getElem?_removedPlaces hk
  obtain rfl : line = line' := Option.some.inj (hl.symm.trans hl')
  obtain ⟨-, hc, hp⟩ := takes_iff.mp ht
  have hne : line.text ≠ [] := by
    intro hblank
    obtain ⟨_, i', -, rfl, hi'⟩ := exists_removed_before hk (hp hblank ▸ hb)
    exact hfirst i' (List.mem_of_getElem? hi') rfl
  exact ⟨hc.resolve_right hne, hne⟩

/-- If the next entry has the text of a kept line, and the line has a comment or is blank, then it is
blank and no removed line stands directly before it. -/
theorem blank_of_not_removed {content : Text} {entries : List Text} {i : Nat}
    (hi : i ∉ removedPlaces content entries) {line : SurveyedLine} {entry : Text}
    (hl : (surveyedLines content)[i]? = some line)
    (he : entries[(removedPlaces content entries).countP (· < i)]? = some entry)
    (htext : line.text = trimEnd entry) (hc : line.survey.commented = true ∨ line.text = []) :
    line.text = [] ∧ ∀ j ∈ removedPlaces content entries, j + 1 ≠ i := by
  have hlen : i < (Verdict.kept :: verdicts entries .kept (surveyedLines content)).length := by
    have hlt := (List.getElem?_eq_some_iff.mp hl).1
    rw [List.length_cons, length_verdicts]
    omega
  have hb := List.getElem?_eq_getElem hlen
  have hno := not_takes_of_notMem_removedPlaces hi hl he hb
  rw [takes_iff] at hno
  constructor
  · by_contra hne
    exact hno ⟨htext, hc, fun hblank => absurd hblank hne⟩
  · rintro j hj rfl
    have hr := mem_removedPlaces_iff.mp hj
    rw [List.getElem?_cons_succ, hr] at hb
    exact hno ⟨htext, hc, fun _ => (Option.some.inj hb).symm⟩

/-- Whatever the entries are, a sweep removes lines for the leading ones, keeps every other line and
reports every other entry. -/
theorem exists_removesAt_sweepText (content : Text) (entries : List Text) :
    ∃ places, RemovesAt content entries (sweepText content entries) places := by
  refine ⟨removedPlaces content entries, ?_⟩
  constructor
  case ordered => exact List.pairwise_idxsOf
  case length_eq => exact length_removedPlaces content entries
  case taken =>
    intro k i hk
    obtain ⟨line, entry, before, hl, he, -, ht⟩ := takes_of_getElem?_removedPlaces hk
    obtain ⟨htext, hc, -⟩ := takes_iff.mp ht
    exact ⟨line, entry, hl, he, trimEnd_raw line.line ▸ htext, trimEnd_raw line.line ▸ hc⟩
  case adjacent =>
    intro k i hk entry he hblank
    obtain ⟨line, _, before, -, he', hb, ht⟩ := takes_of_getElem?_removedPlaces hk
    obtain rfl := Option.some.inj (he'.symm.trans he)
    obtain ⟨htext, -, hp⟩ := takes_iff.mp ht
    exact exists_removed_before hk (hp (htext.trans hblank) ▸ hb)
  case leading =>
    intro i hi hfirst line hl
    obtain ⟨hc, hne⟩ := commented_of_first_removed hi hfirst line hl
    exact ⟨hc, trimEnd_raw line.line ▸ hne⟩
  case waiting =>
    intro i hi line hl entry he htext hc
    rw [trimEnd_raw] at htext hc ⊢
    exact blank_of_not_removed hi hl he htext hc
  case content_eq =>
    rw [content_sweepText, judgedLines_eq_map_zipIdx, List.flatMap_map]
    refine congrArg (fun write => (surveyedLines content).zipIdx.flatMap write)
      (funext fun placed => ?_)
    by_cases hp : placed.2 ∈ removedPlaces content entries
    · simp only [if_pos hp, SurveyedLine.written, SurveyedLine.stripped]
    · simp only [if_neg hp, SurveyedLine.written]
  case unmatched_eq => exact getElem?_unmatched_sweepText content entries
  case account =>
    intro path total
    simp only [Swept.leftovers?, List.isEmpty_iff, unmatched_sweepText_eq_nil_iff]

end CommentSweep
