import CommentSweep.Text.Affix
import CommentSweep.Text.Blank

/-!
# First occurrence of a marker

A text is cut at the first place where a marker stands.
-/

namespace CommentSweep

/-- The search for a marker, with the characters already passed in reverse order. -/
def cutFrom? (marker passed : Text) : Text → Option (Text × Text)
  | [] => none
  | c :: rest =>
    match marker.isPrefixOf? (c :: rest) with
    | some after => some (passed.reverse, after)
    | none => cutFrom? marker (c :: passed) rest

/-- What stands before and after the first occurrence of a marker. -/
def cut? (marker text : Text) : Option (Text × Text) := cutFrom? marker [] text

theorem cutFrom?_eq (marker passed text : Text) :
    cutFrom? marker passed text =
      (cut? marker text).map fun found => (passed.reverse ++ found.1, found.2) := by
  induction text generalizing passed with
  | nil => rfl
  | cons c rest ih =>
    simp only [cut?, cutFrom?]
    split
    · simp
    · rw [ih (c :: passed), ih [c]]
      cases cut? marker rest <;> simp

@[simp] theorem cut?_nil (marker : Text) : cut? marker [] = none := rfl

/-- The marker stands at the head of the text, or the search goes on behind its first character. -/
theorem cut?_cons (marker : Text) (c : Char) (rest : Text) :
    cut? marker (c :: rest) =
      match marker.isPrefixOf? (c :: rest) with
      | some after => some ([], after)
      | none => (cut? marker rest).map fun found => (c :: found.1, found.2) := by
  simp only [cut?, cutFrom?, List.reverse_nil]
  split
  · rfl
  · rw [cutFrom?_eq]; simp [cut?]

/-- The two parts and the marker between them make up the text. -/
theorem eq_append_of_cut? {marker text before after : Text}
    (h : cut? marker text = some (before, after)) : text = before ++ marker ++ after := by
  induction text generalizing before with
  | nil => simp at h
  | cons c rest ih =>
    rw [cut?_cons] at h
    split at h
    case h_1 found hp =>
      obtain ⟨rfl, rfl⟩ := Prod.mk.inj (Option.some.inj h)
      simpa using eq_append_of_isPrefixOf? hp
    case h_2 =>
      obtain ⟨found, hf, he⟩ := Option.map_eq_some_iff.mp h
      obtain ⟨rfl, rfl⟩ := Prod.mk.inj he
      simpa using ih hf

/-- What follows a marker is shorter than the text by at least the marker. -/
theorem length_le_of_cut? {marker text before after : Text}
    (h : cut? marker text = some (before, after)) :
    after.length + marker.length ≤ text.length := by
  rw [eq_append_of_cut? h]
  simp only [List.length_append]
  omega

end CommentSweep
