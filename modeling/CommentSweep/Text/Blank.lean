/-!
# Blank characters and trimming

Blank means the Unicode property `White_Space`, given here as a table of code point ranges.
-/

namespace CommentSweep

/-- A text is the list of its characters, so that cutting and joining are list operations. -/
abbrev Text := List Char

/-- The runs of code points that have `White_Space`, first and last of each, in ascending order. -/
def blankRanges : List (Nat × Nat) :=
  [(0x9, 0xD), (0x20, 0x20), (0x85, 0x85), (0xA0, 0xA0), (0x1680, 0x1680), (0x2000, 0x200A),
    (0x2028, 0x2029), (0x202F, 0x202F), (0x205F, 0x205F), (0x3000, 0x3000)]

/-- A character is blank when one of the ranges holds its code point. -/
def isBlank (c : Char) : Bool :=
  blankRanges.any fun range => range.1 ≤ c.toNat && c.toNat ≤ range.2

/-- Every character that ASCII counts as white space is blank. -/
theorem isBlank_of_isWhitespace {c : Char} (h : c.isWhitespace = true) : isBlank c = true := by
  simp only [Char.isWhitespace, Bool.or_eq_true, decide_eq_true_eq] at h
  rcases h with ((rfl | rfl) | rfl) | rfl <;> decide

/-- The text without the blank characters at its end. -/
def trimEnd (text : Text) : Text := (text.reverse.dropWhile isBlank).reverse

def trimStart (text : Text) : Text := text.dropWhile isBlank

def trim (text : Text) : Text := trimEnd (trimStart text)

/-- A text that is empty after trimming holds blank characters only. -/
def allBlank (text : Text) : Bool := text.all isBlank

end CommentSweep
