/-!
# Text at the start and at the end

Removing a given start or end from a list gives what is left of it.
-/

namespace CommentSweep

variable {α : Type} [DecidableEq α]

/-- A list is the start that was removed from it and what was left. -/
theorem eq_append_of_isPrefixOf? {first items rest : List α}
    (h : first.isPrefixOf? items = some rest) : items = first ++ rest := by
  induction first generalizing items with
  | nil => exact Option.some.inj h
  | cons x first ih =>
    cases items with
    | nil => cases h
    | cons y items =>
      change (if x == y then first.isPrefixOf? items else none) = some rest at h
      rw [Option.ite_none_right_eq_some, beq_iff_eq] at h
      rw [h.1, List.cons_append, ← ih h.2]

/-- A list is what was left of it and the end that was removed. -/
theorem eq_append_of_isSuffixOf? {last items rest : List α}
    (h : last.isSuffixOf? items = some rest) : items = rest ++ last := by
  obtain ⟨reversed, hr, rfl⟩ := Option.map_eq_some_iff.mp h
  simpa using congrArg List.reverse (eq_append_of_isPrefixOf? hr)

end CommentSweep
