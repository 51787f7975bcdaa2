import CommentSweep.Proofs.Comment.Character

/-!
# Lines read character by character

A line can also be read character by character with the region as the only memory. This comes to the
same, however its markers overlap.
-/

namespace CommentSweep

/-- What a line comes to when it is read character by character. -/
structure Reading where
  /-- The characters read outside comments, in order. -/
  code : Text
  /-- The region at the end of the line. -/
  after : Region
  deriving DecidableEq, Repr

/-- Read a line from a region on: code up to a line marker, without block comments. -/
def Region.read : Region → Text → Reading
  | start, [] => ⟨[], start⟩
  | .code, '/' :: '/' :: _ => ⟨[], .code⟩
  | .code, '/' :: '*' :: rest => Region.block.read rest
  | .code, c :: rest => { Region.code.read rest with code := c :: (Region.code.read rest).code }
  | .block, '*' :: '/' :: rest => Region.code.read rest
  | .block, _ :: rest => Region.block.read rest

theorem read_code_cons {c : Char} {rest : Text} (hl : ¬ lineOpener <+: c :: rest)
    (hb : ¬ blockOpener <+: c :: rest) : Region.code.read (c :: rest) =
      { Region.code.read rest with code := c :: (Region.code.read rest).code } := by
  rw [Region.read]
  · rintro later rfl rfl
    exact hl (List.prefix_append ['/', '/'] later)
  · rintro later rfl rfl
    exact hb (List.prefix_append ['/', '*'] later)

theorem read_block_cons {c : Char} {rest : Text} (hc : ¬ blockCloser <+: c :: rest) :
    Region.block.read (c :: rest) = Region.block.read rest := by
  rw [Region.read]
  rintro later rfl rfl
  exact hc (List.prefix_append ['*', '/'] later)

/-- A survey finds the code and the region at the end that the reading comes to. -/
theorem read_eq (start : Region) (line : Text) :
    start.read line = ⟨(survey start line).code, (survey start line).after⟩ := by
  induction start, line using Region.text_induction with
  | nil start =>
    cases start with
    | code => rw [survey_code_nil, Region.read]
    | block => rw [survey_block_nil, Region.read]
  | line rest => rw [survey_lineOpener, Region.read]
  | opened rest ih => rw [survey_blockOpener, Region.read, ih]
  | closed rest ih => rw [survey_blockCloser, Region.read, ih]
  | code c rest hl hb ih => rw [survey_code_cons hl hb, read_code_cons hl hb, ih]
  | comment c rest hc ih => rw [survey_block_cons hc, read_block_cons hc, ih]

/-- A line carries a comment exactly if it begins in one or an opener stands in it. -/
theorem commented_iff {start : Region} {line : Text} : (survey start line).commented = true ↔
    start = .block ∨ lineOpener <:+: line ∨ blockOpener <:+: line := by
  rw [← not_iff_not, Bool.not_eq_true, commented_eq_false_iff, OpenerFree]
  cases start <;> simp

/-- A survey comes to the same as the reading, and finds a comment exactly if the line begins in one
or an opener stands in it. -/
theorem survey_eq_read (start : Region) (line : Text) :
    (survey start line).code = (start.read line).code ∧
      (survey start line).after = (start.read line).after ∧
        ((survey start line).commented = true ↔
          start = .block ∨ lineOpener <:+: line ∨ blockOpener <:+: line) ∧
          ((survey start line).commented = false → (survey start line).code = line) := by
  rw [read_eq]
  refine ⟨rfl, rfl, commented_iff, fun h => ?_⟩
  rw [survey_of_commented_eq_false h]

/-- Markers may share characters, and the one that begins first is read as a whole. -/
example : Region.code.read "/*/ a **/* b */* c //* d".toList = ⟨"* b *".toList, .block⟩ := by
  decide

end CommentSweep
