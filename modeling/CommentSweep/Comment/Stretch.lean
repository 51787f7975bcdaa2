import CommentSweep.Text.Occurrence

/-!
# Stretches of a line

A line is taken apart into stretches by leaping from marker to marker. Literals are not recognised,
so a marker inside a string counts.
-/

namespace CommentSweep

/-- Opens a comment that runs to the end of the line. -/
def lineOpener : Text := ['/', '/']

/-- Opens a block comment. -/
def blockOpener : Text := ['/', '*']

/-- Closes a block comment. -/
def blockCloser : Text := ['*', '/']

/-- Where a place of a file lies: in code, or inside a block comment. -/
inductive Region where
  | code
  | block
  deriving DecidableEq, Repr

/-- The nearest comment opener of a text, with the code before it and the text behind it. -/
inductive Opening where
  | line (code rest : Text)
  | block (code rest : Text)
  deriving DecidableEq, Repr

/-- Both openers are searched for; the one with less code before it is the nearest. -/
def opening? (text : Text) : Option Opening :=
  match cut? lineOpener text, cut? blockOpener text with
  | none, none => none
  | some (code, rest), none => some (.line code rest)
  | none, some (code, rest) => some (.block code rest)
  | some (code, rest), some (nearer, inside) =>
    if nearer.length < code.length then some (.block nearer inside) else some (.line code rest)

/-- What one leap of the scan passes over. -/
inductive Stretch where
  /-- Code up to the end of the line. -/
  | plain (code : Text)
  /-- Code up to a line marker, and the comment that fills the rest of the line. -/
  | lineComment (code comment : Text)
  /-- Code up to a block opener. -/
  | opened (code : Text)
  /-- The inside of a block comment up to its closer. -/
  | closed (comment : Text)
  /-- The inside of a block comment that goes on past the end of the line. -/
  | unclosed (comment : Text)
  deriving DecidableEq, Repr

namespace Stretch

/-- The characters of the line that the stretch covers, its marker included. -/
def text : Stretch → Text
  | .plain code => code
  | .lineComment code comment => code ++ lineOpener ++ comment
  | .opened code => code ++ blockOpener
  | .closed comment => comment ++ blockCloser
  | .unclosed comment => comment

/-- The part of the stretch that lies outside comments. -/
def codeText : Stretch → Text
  | .plain code => code
  | .lineComment code _ => code
  | .opened code => code
  | .closed _ => []
  | .unclosed _ => []

/-- Whether a comment starts in the stretch. -/
def opensComment : Stretch → Bool
  | .lineComment _ _ => true
  | .opened _ => true
  | _ => false

/-- The region directly after the stretch. A line comment ends with its line. -/
def after : Stretch → Region
  | .opened _ => .block
  | .unclosed _ => .block
  | _ => .code

end Stretch

theorem eq_of_opening?_line {text code rest : Text}
    (h : opening? text = some (.line code rest)) :
    text = (Stretch.lineComment code rest).text := by
  unfold opening? at h
  split at h
  case h_2 hl _ =>
    obtain ⟨rfl, rfl⟩ := Opening.line.inj (Option.some.inj h)
    exact eq_append_of_cut? hl
  case h_4 hl hb =>
    split at h
    · simp at h
    · obtain ⟨rfl, rfl⟩ := Opening.line.inj (Option.some.inj h)
      exact eq_append_of_cut? hl
  all_goals simp at h

theorem eq_of_opening?_block {text code rest : Text}
    (h : opening? text = some (.block code rest)) :
    text = (Stretch.opened code).text ++ rest := by
  unfold opening? at h
  split at h
  case h_3 hb =>
    obtain ⟨rfl, rfl⟩ := Opening.block.inj (Option.some.inj h)
    exact eq_append_of_cut? hb
  case h_4 hl hb =>
    split at h
    · obtain ⟨rfl, rfl⟩ := Opening.block.inj (Option.some.inj h)
      exact eq_append_of_cut? hb
    · simp at h
  all_goals simp at h

theorem length_lt_of_opening? {text code rest : Text}
    (h : opening? text = some (.block code rest)) : rest.length < text.length := by
  rw [eq_of_opening?_block h]
  simp only [Stretch.text, blockOpener, List.length_append, List.length_cons]
  omega

/-- The stretches of a line that begins in the given region. -/
def stretches : Region → Text → List Stretch
  | .code, line =>
    match h : opening? line with
    | none => [.plain line]
    | some (.line code comment) => [.lineComment code comment]
    | some (.block code rest) =>
      have := length_lt_of_opening? h
      .opened code :: stretches .block rest
  | .block, line =>
    match h : cut? blockCloser line with
    | none => [.unclosed line]
    | some (comment, rest) =>
      have := length_le_of_cut? h
      .closed comment :: stretches .code rest
termination_by _ line => line.length
decreasing_by
  · omega
  · simp only [blockCloser, List.length_cons] at this
    omega

/-- The stretches read in order are the line. -/
theorem flatMap_text_stretches (start : Region) (line : Text) :
    (stretches start line).flatMap Stretch.text = line := by
  fun_induction stretches start line with
  | case1 line h => simp [Stretch.text]
  | case2 line code comment h => simp [eq_of_opening?_line h]
  | case3 line code rest h hlt ih =>
    rw [List.flatMap_cons, ih]
    exact (eq_of_opening?_block h).symm
  | case4 line h => simp [Stretch.text]
  | case5 line comment rest h hle ih =>
    rw [List.flatMap_cons, ih]
    exact (eq_append_of_cut? h).symm

end CommentSweep
