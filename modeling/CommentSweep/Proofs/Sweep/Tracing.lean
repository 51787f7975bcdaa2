import CommentSweep.Proofs.Sweep.Selection
import Mathlib.Data.List.Sort

/-!
# Sweeping out chosen lines

A sweep by a choice of lines has only their texts to go by. It removes the chosen lines if the first
line with a comment and the text of each, behind the one before, is the chosen one.
-/

namespace CommentSweep

/-- The texts of the lines at the given places; a place behind the last line has none. -/
def textsAt (content : Text) (places : List Nat) : List Text :=
  places.filterMap fun i => (surveyedLines content)[i]?.map SurveyedLine.text

/-- A choice of lines, by their places, that can be traced by the texts of the lines. -/
structure Traceable (content : Text) (places : List Nat) : Prop where
  /-- The lines are listed in file order. -/
  ordered : places.Pairwise (· < ·)
  /-- Every chosen line carries a comment. -/
  commented : ∀ i ∈ places, ∃ line ∈ (surveyedLines content)[i]?, line.survey.commented = true
  /-- Between a chosen line that is not blank and the chosen line before it, or the start of the text
  if there is none, no line with a comment has its text. -/
  nearest : ∀ i ∈ places, ∀ line ∈ (surveyedLines content)[i]?, line.text ≠ [] →
    ∀ j < i, (∀ s ∈ places, s < i → s < j) → ∀ other ∈ (surveyedLines content)[j]?,
      other.survey.commented = true → other.text ≠ line.text
  /-- A chosen line that is blank stands directly behind another one. -/
  adjacent : ∀ i ∈ places, ∀ line ∈ (surveyedLines content)[i]?, line.text = [] →
    ∃ s ∈ places, i = s + 1

section Places

/-- In an increasing list the items below a bound are followed by the first that is not below it. -/
theorem getElem?_countP_lt_iff {places : List Nat} (h : places.Pairwise (· < ·)) (i s : Nat) :
    places[places.countP (· < i)]? = some s ↔
      s ∈ places ∧ i ≤ s ∧ ∀ t ∈ places, t < s → t < i := by
  induction places with
  | nil => simp
  | cons first rest ih =>
    obtain ⟨hfirst, hrest⟩ := List.pairwise_cons.mp h
    by_cases hlt : first < i
    · rw [List.countP_cons_of_pos (by simpa using hlt), List.getElem?_cons_succ, ih hrest]
      grind
    · -- Nothing is below the bound, as the first item is the least.
      have hnone : rest.countP (· < i) = 0 := by
        rw [List.countP_eq_zero]
        grind
      rw [List.countP_cons_of_neg (by simpa using hlt), hnone, List.getElem?_cons_zero]
      grind

theorem countP_lt_congr {places others : List Nat} (h : places.Pairwise (· < ·))
    (ho : others.Pairwise (· < ·)) {i : Nat} (hi : ∀ j < i, j ∈ places ↔ j ∈ others) :
    places.countP (· < i) = others.countP (· < i) := by
  rw [List.countP_eq_length_filter, List.countP_eq_length_filter]
  refine congrArg List.length ((h.filter _).eq_of_mem_iff (ho.filter _) fun j => ?_)
  simp only [List.mem_filter, decide_eq_true_eq]
  exact and_congr_left (hi j)

theorem getElem?_filterMap_of_isSome {α β : Type} {f : α → Option β} {items : List α}
    (h : ∀ item ∈ items, (f item).isSome = true) (k : Nat) :
    (items.filterMap f)[k]? = items[k]?.bind f := by
  induction items generalizing k with
  | nil => rfl
  | cons item rest ih =>
    obtain ⟨hitem, hrest⟩ := List.forall_mem_cons.mp h
    obtain ⟨value, hvalue⟩ := Option.isSome_iff_exists.mp hitem
    rw [List.filterMap_cons_some hvalue]
    cases k with
    | zero => exact hvalue.symm
    | succ k => exact ih hrest k

end Places

section Turns

variable {content : Text} {places : List Nat}

theorem Traceable.isSome_text (h : Traceable content places) :
    ∀ i ∈ places, ((surveyedLines content)[i]?.map SurveyedLine.text).isSome = true := by
  intro i hi
  obtain ⟨line, hl, -⟩ := h.commented i hi
  rw [hl]
  rfl

theorem Traceable.length_textsAt (h : Traceable content places) :
    (textsAt content places).length = places.length :=
  List.filterMap_length_eq_length.mpr h.isSome_text

/-- The entry at the turn of a place is the text of the next chosen line. -/
theorem Traceable.getElem?_textsAt (h : Traceable content places) {i : Nat} {entry : Text} :
    (textsAt content places)[places.countP (· < i)]? = some entry ↔
      ∃ s ∈ places, (i ≤ s ∧ ∀ t ∈ places, t < s → t < i) ∧
        ∃ line ∈ (surveyedLines content)[s]?, line.text = entry := by
  rw [textsAt, getElem?_filterMap_of_isSome h.isSome_text, Option.bind_eq_some_iff]
  simp only [getElem?_countP_lt_iff h.ordered, Option.map_eq_some_iff, and_assoc, Option.mem_def]

/-- Before the next chosen line stands none that its text could be mistaken for. -/
theorem Traceable.not_takes (h : Traceable content places) {i s : Nat} (hs : s ∈ places)
    (hlt : i < s) (hbefore : ∀ t ∈ places, t < s → t < i) {line next : SurveyedLine}
    (hl : (surveyedLines content)[i]? = some line) (hn : (surveyedLines content)[s]? = some next)
    (before : Verdict) : ¬ takes next.text before line = true := by
  have htrimmed : trimEnd next.text = next.text := trimEnd_trimEnd _
  rw [takes_iff, htrimmed]
  rintro ⟨htext, hc, -⟩
  by_cases hblank : next.text = []
  · obtain ⟨t, ht, rfl⟩ := h.adjacent s hs next hn hblank
    have hti := hbefore t ht (Nat.lt_succ_self t)
    omega
  · have hcommented := hc.resolve_right fun hnil => hblank (htext.symm.trans hnil)
    exact h.nearest s hs next hn hblank i hlt hbefore line hl hcommented htext

/-- A sweep with the texts of a traceable choice removes the chosen lines and no others. -/
theorem Traceable.mem_removedPlaces_iff (h : Traceable content places) (i : Nat) :
    i ∈ removedPlaces content (textsAt content places) ↔ i ∈ places := by
  induction i using Nat.strong_induction_on with
  | _ i ih =>
    have hremoved : (removedPlaces content (textsAt content places)).Pairwise (· < ·) :=
      List.pairwise_idxsOf
    have hturn := countP_lt_congr hremoved h.ordered ih
    constructor
    · intro hi
      have hk := (getElem?_countP_lt_iff hremoved i i).mpr ⟨hi, le_rfl, fun _ _ ht => ht⟩
      obtain ⟨line, entry, before, hl, he, -, ht⟩ := takes_of_getElem?_removedPlaces hk
      rw [hturn, h.getElem?_textsAt] at he
      obtain ⟨s, hs, ⟨hle, hbefore⟩, next, hn, rfl⟩ := he
      rcases hle.eq_or_lt with rfl | hlt
      · exact hs
      · exact absurd ht (h.not_takes hs hlt hbefore hl hn before)
    · intro hi
      obtain ⟨line, hl, hc⟩ := h.commented i hi
      have he : (textsAt content places)[places.countP (· < i)]? = some line.text :=
        h.getElem?_textsAt.mpr ⟨i, hi, ⟨le_rfl, fun _ _ ht => ht⟩, line, hl, rfl⟩
      rw [← hturn] at he
      by_contra hkept
      obtain ⟨hblank, hfirst⟩ :=
        blank_of_not_removed hkept hl he (trimEnd_trimEnd _).symm (Or.inl hc)
      obtain ⟨t, ht, rfl⟩ := h.adjacent i hi line hl hblank
      exact hfirst t ((ih t (Nat.lt_succ_self t)).mpr ht) rfl

/-- The lines that are removed are the chosen ones. -/
theorem Traceable.removedPlaces_eq (h : Traceable content places) :
    removedPlaces content (textsAt content places) = places :=
  List.Pairwise.eq_of_mem_iff List.pairwise_idxsOf h.ordered h.mem_removedPlaces_iff

end Turns

/-- A sweep with the texts of a traceable choice removes exactly the chosen lines. -/
theorem sweepText_textsAt {content : Text} {places : List Nat} (h : Traceable content places) :
    let entries := textsAt content places
    let swept := sweepText content entries
    entries.length = places.length ∧ swept.matched = places.length ∧ swept.unmatched = [] ∧
      swept.content = (surveyedLines content).zipIdx.flatMap fun placed =>
        if placed.2 ∈ places then
          if allBlank placed.1.survey.code then []
          else trimEnd placed.1.survey.code ++ placed.1.line.ending.text
        else placed.1.line.raw := by
  intro entries swept
  have hplaces : removedPlaces content entries = places := h.removedPlaces_eq
  have hmatched : swept.matched = places.length := by
    rw [← hplaces, length_removedPlaces]
  refine ⟨h.length_textsAt, hmatched, ?_, ?_⟩
  · rw [unmatched_sweepText_eq_nil_iff, h.length_textsAt]
    exact hmatched
  · rw [content_sweepText, judgedLines_eq_map_zipIdx, hplaces, List.flatMap_map]
    refine List.flatMap_congr fun placed _ => ?_
    by_cases hp : placed.2 ∈ places
    · simp only [if_pos hp, SurveyedLine.written, SurveyedLine.stripped]
    · simp only [if_neg hp, SurveyedLine.written]

/-- Two of seven lines are left out, one with the text of a later chosen line. -/
theorem sweepText_textsAt_repeated :
    let content : Text :=
      "// x\n/* one\n\n two */ int a;\n// y\n// x\r\nint b; // z".toList
    let places : List Nat := [1, 2, 3, 5, 6]
    let swept := sweepText content (textsAt content places)
    Traceable content places ∧ swept.matched = 5 ∧ swept.unmatched = [] ∧
      swept.content = "// x\n int a;\n// y\nint b;".toList := by
  intro content places swept
  have htraceable : Traceable content places := by
    constructor
    all_goals decide +kernel
  obtain ⟨-, hmatched, hunmatched, hcontent⟩ := sweepText_textsAt htraceable
  refine ⟨htraceable, hmatched, hunmatched, hcontent.trans ?_⟩
  decide +kernel

end CommentSweep
