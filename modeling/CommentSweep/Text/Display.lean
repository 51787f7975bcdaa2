import CommentSweep.Text.Blank

/-!
# Numbers and control characters in print

A line for a terminal spells out the control characters that would act on it, and no others.
-/

namespace CommentSweep

/-- The decimal digits of a number, without sign or leading zeros. -/
def digits (n : Nat) : Text := Nat.toDigits 10 n

/-- The ASCII characters that are spelled out: bell, backspace, form feed, escape and delete. -/
def asciiControls : List Char := ['\x07', '\x08', '\x0c', '\x1b', '\x7f']

/-- The second block of control characters, U+0080 to U+009F, which is spelled out as a whole. -/
def isHighControl (c : Char) : Bool := 0x80 ≤ c.toNat && c.toNat ≤ 0x9F

/-- A character that a terminal is not given as it is. -/
def isTerminalControl (c : Char) : Bool := asciiControls.contains c || isHighControl c

/-- The two lower-case hexadecimal digits of a number below 256. -/
def hexPair (n : Nat) : Text := [Nat.digitChar (n / 16), Nat.digitChar (n % 16)]

/-- A character as a terminal is given it. -/
def spelledChar (c : Char) : Text :=
  if asciiControls.contains c then ['\\', 'x'] ++ hexPair c.toNat
  else if isHighControl c then ['\\', 'u', '\x7b'] ++ hexPair c.toNat ++ ['\x7d']
  else [c]

def spelledOut (text : Text) : Text := text.flatMap spelledChar

theorem spelledChar_eq_singleton {c : Char} (h : isTerminalControl c = false) :
    spelledChar c = [c] := by
  simp only [isTerminalControl, Bool.or_eq_false_iff] at h
  simp only [spelledChar, h.1, h.2, Bool.false_eq_true, if_false]

theorem spelledOut_eq_self {text : Text} (h : ∀ c ∈ text, isTerminalControl c = false) :
    spelledOut text = text := by
  induction text with
  | nil => rfl
  | cons c rest ih =>
    rw [spelledOut, List.flatMap_cons, spelledChar_eq_singleton (h c List.mem_cons_self)]
    exact congrArg (c :: ·) (ih fun d hd => h d (List.mem_cons_of_mem c hd))

theorem isTerminalControl_digitChar {n : Nat} (h : n < 16) :
    isTerminalControl n.digitChar = false := by
  have all : ∀ n < 16, isTerminalControl (Nat.digitChar n) = false := by decide
  exact all n h

/-- The digits of a number below 256 are no control characters. -/
theorem isTerminalControl_of_mem_hexPair {n : Nat} (h : n < 256) {c : Char}
    (hc : c ∈ hexPair n) : isTerminalControl c = false := by
  simp only [hexPair, List.mem_cons, List.not_mem_nil, or_false] at hc
  rcases hc with rfl | rfl
  · exact isTerminalControl_digitChar (by omega)
  · exact isTerminalControl_digitChar (by omega)

/-- A text that is spelled out holds none of the characters that a terminal may not be given. -/
theorem isTerminalControl_of_mem_spelledOut {text : Text} {c : Char} (hc : c ∈ spelledOut text) :
    isTerminalControl c = false := by
  obtain ⟨d, -, hc⟩ := List.mem_flatMap.mp hc
  unfold spelledChar at hc
  split at hc
  · next hd =>
    have all : (asciiControls.all fun d =>
        (['\\', 'x'] ++ hexPair d.toNat).all fun c => !isTerminalControl c) = true := by decide
    have hspelled := List.all_eq_true.mp all d (List.contains_iff_mem.mp hd)
    simpa only [Bool.not_eq_true'] using List.all_eq_true.mp hspelled c hc
  · split at hc
    · next hd =>
      simp only [isHighControl, Bool.and_eq_true, decide_eq_true_eq] at hd
      simp only [List.mem_append, List.mem_cons, List.not_mem_nil, or_false] at hc
      rcases hc with ((rfl | rfl | rfl) | hc) | rfl
      · decide
      · decide
      · decide
      · exact isTerminalControl_of_mem_hexPair (by omega) hc
      · decide
    · next ha hb =>
      obtain rfl := List.mem_singleton.mp hc
      exact Bool.or_eq_false_iff.mpr ⟨Bool.eq_false_iff.mpr ha, Bool.eq_false_iff.mpr hb⟩

end CommentSweep
