import CommentSweep.Comment.Stretch
import CommentSweep.Proofs.Text.Cutting
import Mathlib.Data.List.Chain
import Mathlib.Data.List.Infix

/-!
# Texts in which no comment can begin

The search for the nearest opener passes over code in which none stands, even with a slash behind
it. So no opener arises where pieces of code are joined.
-/

namespace CommentSweep

/-- The search for a marker fails exactly where the marker does not stand. -/
theorem cut?_eq_none_iff {marker text : Text} (hm : marker ≠ []) :
    cut? marker text = none ↔ ¬ marker <:+: text := by
  induction text with
  | nil => simp [hm]
  | cons c rest ih =>
    rw [cut?_cons, List.infix_cons_iff, not_or, ← ih]
    cases hp : marker.isPrefixOf? (c :: rest) with
    | some after =>
      have hx : marker <+: c :: rest := ⟨after, (eq_append_of_isPrefixOf? hp).symm⟩
      simp [hx]
    | none =>
      have hx := isPrefixOf?_eq_none_iff.mp hp
      simp [hx]

/-- No earlier place than the one found carries the marker. -/
theorem not_infix_of_cut? {marker text before after : Text} (hm : marker ≠ [])
    (h : cut? marker text = some (before, after)) : ¬ marker <:+: before ++ marker.dropLast := by
  induction text generalizing before with
  | nil => simp at h
  | cons c rest ih =>
    have hwhole := eq_append_of_cut? h
    rw [cut?_cons] at h
    cases hp : marker.isPrefixOf? (c :: rest) with
    | some found =>
      simp only [hp, Option.some.injEq, Prod.mk.injEq] at h
      intro hx
      have hle := hx.length_le
      have hpos := List.length_pos_iff.mpr hm
      simp only [← h.1, List.nil_append, List.length_dropLast] at hle
      omega
    | none =>
      simp only [hp] at h
      obtain ⟨found, hf, he⟩ := Option.map_eq_some_iff.mp h
      obtain ⟨rfl, rfl⟩ := Prod.mk.inj he
      rw [List.cons_append, List.infix_cons_iff, not_or]
      refine ⟨fun hx => isPrefixOf?_eq_none_iff.mp hp ?_, ih hf⟩
      refine hx.trans ?_
      rw [hwhole, ← List.cons_append, List.append_assoc, List.prefix_append_right_inj]
      exact (List.dropLast_prefix marker).trans (List.prefix_append _ _)

/-- Neither marker that begins a comment stands in the text. -/
def OpenerFree (text : Text) : Prop := ¬ lineOpener <:+: text ∧ ¬ blockOpener <:+: text

theorem openerFree_nil : OpenerFree [] := ⟨by decide, by decide⟩

theorem OpenerFree.mono {text part : Text} (h : OpenerFree text) (hp : part <:+: text) :
    OpenerFree part :=
  ⟨fun hx => h.1 (hx.trans hp), fun hx => h.2 (hx.trans hp)⟩

/-- Freedom of openers is a condition on neighbours: a slash has no slash or star behind it. -/
theorem openerFree_iff_isChain {text : Text} :
    OpenerFree text ↔ text.IsChain fun x y => ¬ (x = '/' ∧ (y = '/' ∨ y = '*')) := by
  rw [List.isChain_iff_forall_rel_of_append_cons_cons]
  constructor
  · rintro ⟨hl, hb⟩ _ _ before after rfl ⟨rfl, rfl | rfl⟩
    · exact hl ⟨before, after, by simp [lineOpener]⟩
    · exact hb ⟨before, after, by simp [blockOpener]⟩
  · intro h
    constructor
    · rintro ⟨before, after, rfl⟩
      exact @h '/' '/' before after (by simp [lineOpener]) ⟨rfl, Or.inl rfl⟩
    · rintro ⟨before, after, rfl⟩
      exact @h '/' '*' before after (by simp [blockOpener]) ⟨rfl, Or.inr rfl⟩

/-- Behind a text that stays free of openers when a slash follows, any such text may follow. -/
theorem OpenerFree.append {before after : Text} (hb : OpenerFree (before ++ ['/']))
    (ha : OpenerFree after) : OpenerFree (before ++ after) := by
  rw [openerFree_iff_isChain, List.isChain_append] at hb ⊢
  refine ⟨hb.1, openerFree_iff_isChain.mp ha, ?_⟩
  rintro x hx y - ⟨rfl, -⟩
  exact hb.2.2 '/' hx '/' rfl ⟨rfl, Or.inl rfl⟩

private theorem lineOpener_ne_nil : lineOpener ≠ [] := by decide

private theorem blockOpener_ne_nil : blockOpener ≠ [] := by decide

/-- No opener is found exactly where none stands. -/
theorem opening?_eq_none_iff {text : Text} : opening? text = none ↔ OpenerFree text := by
  rw [OpenerFree, ← cut?_eq_none_iff lineOpener_ne_nil, ← cut?_eq_none_iff blockOpener_ne_nil]
  unfold opening?
  cases cut? lineOpener text with
  | none => cases cut? blockOpener text <;> simp
  | some line =>
    cases cut? blockOpener text with
    | none => simp
    | some block => simp only [reduceCtorEq, false_and, iff_false]; split <;> simp

/-- A marker does not stand in a start of the text that ends before the marker's first place does. -/
theorem not_infix_of_isPrefix {marker text part : Text} (hm : marker ≠ []) (hp : part <+: text)
    (h : ∀ found, cut? marker text = some found →
      part.length < found.1.length + marker.length) : ¬ marker <:+: part := by
  cases hc : cut? marker text with
  | none => exact fun hx => (cut?_eq_none_iff hm).mp hc (hx.trans hp.isInfix)
  | some found =>
    have hlt := h found hc
    have hpos := List.length_pos_iff.mpr hm
    have hshort : found.1 ++ marker.dropLast <+: text := by
      rw [eq_append_of_cut? hc, List.append_assoc, List.prefix_append_right_inj]
      exact (List.dropLast_prefix marker).trans (List.prefix_append _ _)
    have hpart : part <+: found.1 ++ marker.dropLast := by
      refine List.prefix_of_prefix_length_le hp hshort ?_
      rw [List.length_append, List.length_dropLast]
      omega
    exact fun hx => not_infix_of_cut? hm hc (hx.trans hpart.isInfix)

/-- A line marker is the nearest opener when no block opener has less code before it. -/
theorem opening?_eq_line_iff {text code rest : Text} :
    opening? text = some (.line code rest) ↔ cut? lineOpener text = some (code, rest) ∧
      ∀ found, cut? blockOpener text = some found → code.length ≤ found.1.length := by
  unfold opening?
  cases cut? lineOpener text with
  | none => cases cut? blockOpener text <;> simp
  | some line =>
    cases cut? blockOpener text with
    | none => simp [Prod.ext_iff]
    | some block =>
      by_cases hlt : block.1.length < line.1.length
      · simp only [hlt, ite_true, Option.some.injEq, reduceCtorEq, false_iff, not_and]
        rintro rfl hle
        exact absurd (hle block rfl) (Nat.not_le.mpr hlt)
      · simp only [hlt, ite_false, Option.some.injEq, Opening.line.injEq, Prod.ext_iff]
        refine ⟨fun h => ⟨h, ?_⟩, And.left⟩
        rintro found ⟨hf, -⟩
        rw [← h.1, ← hf]
        exact Nat.not_lt.mp hlt

/-- A block opener is the nearest opener when every line marker has more code before it. -/
theorem opening?_eq_block_iff {text code rest : Text} :
    opening? text = some (.block code rest) ↔ cut? blockOpener text = some (code, rest) ∧
      ∀ found, cut? lineOpener text = some found → code.length < found.1.length := by
  unfold opening?
  cases cut? lineOpener text with
  | none => cases cut? blockOpener text <;> simp [Prod.ext_iff]
  | some line =>
    cases cut? blockOpener text with
    | none => simp
    | some block =>
      by_cases hlt : block.1.length < line.1.length
      · simp only [hlt, ite_true, Option.some.injEq, Opening.block.injEq, Prod.ext_iff]
        refine ⟨fun h => ⟨h, ?_⟩, And.left⟩
        rintro found ⟨hf, -⟩
        rw [← h.1, ← hf]
        exact hlt
      · simp only [hlt, ite_false, Option.some.injEq, reduceCtorEq, false_iff, not_and]
        rintro rfl hle
        exact absurd (hle line rfl) hlt

theorem openerFree_of_opening?_line {text code rest : Text}
    (h : opening? text = some (.line code rest)) : OpenerFree code := by
  obtain ⟨hl, hb⟩ := opening?_eq_line_iff.mp h
  have hp : code <+: text := by
    rw [eq_append_of_cut? hl, List.append_assoc]
    exact List.prefix_append _ _
  constructor
  · refine not_infix_of_isPrefix lineOpener_ne_nil hp fun found hf => ?_
    obtain rfl := Option.some.inj (hl.symm.trans hf)
    exact Nat.lt_add_of_pos_right Nat.two_pos
  · refine not_infix_of_isPrefix blockOpener_ne_nil hp fun found hf => ?_
    exact Nat.lt_of_le_of_lt (hb found hf) (Nat.lt_add_of_pos_right Nat.two_pos)

/-- No comment begins in the code before the nearest opener if that is a block opener, not even
when a slash follows. -/
theorem openerFree_of_opening?_block {text code rest : Text}
    (h : opening? text = some (.block code rest)) : OpenerFree (code ++ ['/']) := by
  obtain ⟨hb, hl⟩ := opening?_eq_block_iff.mp h
  have hp : code ++ ['/'] <+: text := by
    rw [eq_append_of_cut? hb, List.append_assoc, List.prefix_append_right_inj]
    exact List.prefix_append ['/'] ('*' :: rest)
  constructor
  · refine not_infix_of_isPrefix lineOpener_ne_nil hp fun found hf => ?_
    have hlt := hl found hf
    rw [List.length_append]
    exact Nat.add_lt_add_of_lt_of_le hlt (by decide)
  · refine not_infix_of_isPrefix blockOpener_ne_nil hp fun found hf => ?_
    obtain rfl := Option.some.inj (hb.symm.trans hf)
    rw [List.length_append]
    exact Nat.add_lt_add_left (by decide) _

end CommentSweep
