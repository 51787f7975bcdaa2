import CommentSweep.Text.Line
import Mathlib.Data.List.DropRight

/-!
# What trimming leaves

Trimming leaves a text without blanks at its end, or on both sides at neither, and changes no other.
-/

namespace CommentSweep

/-- Trimming at the end is dropping from the right. -/
theorem trimEnd_eq_rdropWhile (text : Text) : trimEnd text = text.rdropWhile isBlank := rfl

theorem trimEnd_isPrefix (text : Text) : trimEnd text <+: text := List.rdropWhile_prefix isBlank text

theorem isBlank_of_mem_getLast?_trimEnd {text : Text} {c : Char}
    (h : c ∈ (trimEnd text).getLast?) : isBlank c = false := by
  rw [trimEnd, List.getLast?_reverse, Option.mem_def] at h
  have hn := List.head?_dropWhile_not isBlank text.reverse
  rw [h] at hn
  exact hn

/-- What trimming at the end removes is blank. -/
theorem exists_blank_append (text : Text) :
    ∃ tail, text = trimEnd text ++ tail ∧ ∀ c ∈ tail, isBlank c = true :=
  ⟨text.rtakeWhile isBlank, List.rdropWhile_append_rtakeWhile.symm,
    fun _ hc => List.mem_rtakeWhile_imp hc⟩

theorem trimEnd_eq_self {text : Text} (h : ∀ c ∈ text.getLast?, isBlank c = false) :
    trimEnd text = text := by
  rw [trimEnd_eq_rdropWhile, List.rdropWhile_eq_self_iff]
  intro hl
  have hc := h _ (List.getLast_mem_getLast? hl)
  simp only [hc, Bool.false_eq_true, not_false_eq_true]

@[simp] theorem trimEnd_trimEnd (text : Text) : trimEnd (trimEnd text) = trimEnd text :=
  List.rdropWhile_idempotent isBlank text

theorem trimEnd_append_of_blank (text : Text) {tail : Text} (h : ∀ c ∈ tail, isBlank c = true) :
    trimEnd (text ++ tail) = trimEnd text := by
  rw [trimEnd, List.reverse_append,
    List.dropWhile_append_of_pos fun c hc => h c (List.mem_reverse.mp hc)]
  rfl

/-- Exactly the texts of blanks are trimmed to nothing. -/
theorem trimEnd_eq_nil_iff {text : Text} : trimEnd text = [] ↔ allBlank text = true := by
  rw [trimEnd_eq_rdropWhile, List.rdropWhile_eq_nil_iff, allBlank, List.all_eq_true]

@[simp] theorem allBlank_trimEnd (text : Text) : allBlank (trimEnd text) = allBlank text := by
  rw [Bool.eq_iff_iff, ← trimEnd_eq_nil_iff, ← trimEnd_eq_nil_iff, trimEnd_trimEnd]

/-- A line ends with blanks only, so its trimmed text is that of its body. -/
theorem trimEnd_raw (line : Line) : trimEnd line.raw = trimEnd line.body := by
  have hblank : allBlank line.ending.text = true := by cases line.ending <;> decide
  exact trimEnd_append_of_blank line.body (List.all_eq_true.mp hblank)

theorem isBlank_of_mem_head?_trim {text : Text} {c : Char} (h : c ∈ (trim text).head?) :
    isBlank c = false := by
  obtain ⟨tail, ht⟩ := trimEnd_isPrefix (trimStart text)
  have hs : (trimStart text).head? = some c := by
    rw [← ht, List.head?_append, show (trimEnd (trimStart text)).head? = some c from h]
    rfl
  have hn := List.head?_dropWhile_not isBlank text
  rw [show (text.dropWhile isBlank).head? = some c from hs] at hn
  exact hn

/-- Trimming on both sides fixes exactly the texts without blanks at their ends. -/
theorem trim_eq_self_iff {text : Text} :
    trim text = text ↔
      (∀ c ∈ text.head?, isBlank c = false) ∧ ∀ c ∈ text.getLast?, isBlank c = false := by
  constructor
  · intro h
    rw [← h]
    exact ⟨fun _ hc => isBlank_of_mem_head?_trim hc, fun _ hc => isBlank_of_mem_getLast?_trimEnd hc⟩
  · rintro ⟨hh, hl⟩
    have hs : trimStart text = text := by
      cases text with
      | nil => rfl
      | cons c rest => exact List.dropWhile_cons_of_neg (by simp [hh c rfl])
    rw [trim, hs, trimEnd_eq_self hl]

@[simp] theorem trim_trim (text : Text) : trim (trim text) = trim text :=
  trim_eq_self_iff.mpr
    ⟨fun _ hc => isBlank_of_mem_head?_trim hc, fun _ hc => isBlank_of_mem_getLast?_trimEnd hc⟩

/-- Exactly the texts of blanks are trimmed to nothing on both sides. -/
theorem trim_eq_nil_iff {text : Text} : trim text = [] ↔ allBlank text = true := by
  rw [trim, trimEnd_eq_nil_iff, allBlank, allBlank, List.all_eq_true, List.all_eq_true]
  constructor
  · intro h c hc
    have hn := List.head?_dropWhile_not isBlank text
    cases hd : text.dropWhile isBlank with
    | nil => exact List.dropWhile_eq_nil_iff.mp hd c hc
    | cons first rest =>
      rw [trimStart, hd] at h
      rw [hd, List.head?_cons] at hn
      exact absurd (h first List.mem_cons_self) (Bool.eq_false_iff.mp hn)
  · exact fun h c hc => h c ((List.dropWhile_sublist _).subset hc)

theorem mem_of_mem_trim {text : Text} {c : Char} (h : c ∈ trim text) : c ∈ text :=
  (List.dropWhile_sublist _).subset ((trimEnd_isPrefix _).subset h)

theorem trim_cons_of_blank {c : Char} (h : isBlank c = true) (text : Text) :
    trim (c :: text) = trim text := by
  rw [trim, trimStart, List.dropWhile_cons_of_pos h]
  rfl

end CommentSweep
