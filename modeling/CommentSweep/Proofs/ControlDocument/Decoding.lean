import CommentSweep.ControlDocument.Bytes
import CommentSweep.Proofs.Text.Encoding

/-!
# Reading control documents as bytes and as texts

Decoding a document line by line fails exactly where its bytes as a whole are no text.
-/

namespace CommentSweep

theorem append_encode_ending (piece : Bytes) :
    (cutEnding 13 10 piece).1 ++ encode (cutEnding 13 10 piece).2.text = piece := by
  unfold cutEnding
  split
  case h_1 h => exact (eq_append_of_isSuffixOf? h).symm
  case h_2 h => exact (eq_append_of_isSuffixOf? h).symm
  case h_3 => exact List.append_nil piece

/-- The ending of a piece makes no difference to its validity. -/
theorem decode?_cutEnding_eq_none_iff {piece : Bytes} :
    decode? (cutEnding 13 10 piece).1 = none ↔ decode? piece = none := by
  rw [← not_iff_not, ← ne_eq, ← ne_eq, Option.ne_none_iff_exists', Option.ne_none_iff_exists']
  simp only [decode?_eq_some_iff]
  constructor
  · rintro ⟨text, ht⟩
    refine ⟨text ++ (cutEnding 13 10 piece).2.text, ?_⟩
    rw [encode_append, ht, append_encode_ending]
  · rintro ⟨text, rfl⟩
    exact ⟨_, (congrArg Prod.fst (cutEnding_encode text)).symm⟩

/-- Pieces of which the lines encode texts are valid. -/
theorem decode?_ne_none_of_map_cutEnding {pieces : List Bytes} {texts : List Text}
    (h : pieces.map (fun piece => (cutEnding 13 10 piece).1) = texts.map encode) :
    ∀ piece ∈ pieces, decode? piece ≠ none := by
  intro piece hp
  have hm : (cutEnding 13 10 piece).1 ∈ texts.map encode := h ▸ List.mem_map_of_mem hp
  obtain ⟨text, -, he⟩ := List.mem_map.mp hm
  rw [ne_eq, ← decode?_cutEnding_eq_none_iff, ← he, decode?_encode]
  exact nofun

/-- Either all lines are decoded, or those before the first one that is not valid. -/
theorem decodeLines_cases (ls : List Bytes) :
    (∃ texts, ls = texts.map encode ∧ decodeLines ls = (texts, none)) ∨
      ∃ texts line rest, ls = texts.map encode ++ line :: rest ∧ decode? line = none ∧
        decodeLines ls = (texts, some texts.length) := by
  induction ls with
  | nil => exact Or.inl ⟨[], rfl, rfl⟩
  | cons first more ih =>
    cases hd : decode? first with
    | none => exact Or.inr ⟨[], first, more, rfl, hd, by simp only [decodeLines, hd]; rfl⟩
    | some text =>
      have he := encode_of_decode? hd
      rcases ih with ⟨texts, hl, hr⟩ | ⟨texts, line, rest, hl, hn, hr⟩
      · refine Or.inl ⟨text :: texts, ?_, ?_⟩
        · rw [List.map_cons, he, ← hl]
        · simp only [decodeLines, hd, hr, Option.map_none]
      · refine Or.inr ⟨text :: texts, line, rest, ?_, hn, ?_⟩
        · rw [List.map_cons, he, hl, List.cons_append]
        · simp only [decodeLines, hd, hr, Option.map_some, List.length_cons]

theorem decodeLines_map_encode (texts : List Text) :
    decodeLines (texts.map encode) = (texts, none) := by
  induction texts with
  | nil => rfl
  | cons text rest ih => simp only [List.map_cons, decodeLines, decode?_encode, ih, Option.map_none]

/-- Bytes that encode a text are read as that text. -/
theorem parseDocumentBytes_encode (text : Text) :
    parseDocumentBytes (encode text) = ⟨documentEvents text, .ok (parseDocument text)⟩ := by
  simp only [parseDocumentBytes, byteLines_encode, decodeLines_map_encode]
  rfl

theorem exists_encode_of_pieces {bytes : Bytes}
    (h : ∀ piece ∈ splitAfter 10 bytes, decode? piece ≠ none) : ∃ text, bytes = encode text := by
  rcases decodeLines_cases (splitAfter 10 bytes) with ⟨texts, ht, -⟩ | ⟨_, line, _, hl, hn, -⟩
  · refine ⟨texts.flatten, ?_⟩
    rw [encode_flatten, ← ht, flatten_splitAfter]
  · have hm : line ∈ splitAfter 10 bytes := by
      rw [hl]
      exact List.mem_append_right _ List.mem_cons_self
    exact absurd hn (h line hm)

/-- A piece that another one follows has one line feed. -/
theorem count_flatten_of_splitAfter {bytes line : Bytes} {earlier later : List Bytes}
    (h : splitAfter 10 bytes = earlier ++ line :: later) :
    earlier.flatten.count 10 = earlier.length := by
  have hone : ∀ piece ∈ earlier, piece.count 10 = 1 := by
    intro piece hp
    have hpairs : (splitAfter 10 bytes).Pairwise fun earlier _ => earlier.getLast? = some 10 :=
      pairwise_splitAfter bytes
    rw [h] at hpairs
    obtain ⟨body, rfl⟩ := List.getLast?_eq_some_iff.mp
      ((List.pairwise_append.mp hpairs).2.2 piece hp line List.mem_cons_self)
    have hm : body ++ [10] ∈ splitAfter 10 bytes := h ▸ List.mem_append_left _ hp
    have hbody := notMem_dropLast_of_mem_splitAfter hm
    rw [List.dropLast_concat] at hbody
    rw [List.count_append, List.count_eq_zero.mpr hbody, List.count_singleton_self]
  rw [List.count_flatten, List.map_congr_left hone, List.map_const',
    List.sum_replicate_nat, Nat.mul_one]

/-- Bytes are read as the text that they encode, or the reading fails at the first line that is not
valid, whose number is one more than that of the line feeds before it. -/
theorem parseDocumentBytes_cases (bytes : Bytes) :
    (∃ text, decode? bytes = some text ∧
      parseDocumentBytes bytes = ⟨documentEvents text, .ok (parseDocument text)⟩) ∨
    (decode? bytes = none ∧ ∃ earlier line later,
      splitAfter 10 bytes = earlier ++ line :: later ∧
        (∀ piece ∈ earlier, decode? piece ≠ none) ∧ decode? line = none ∧
          (parseDocumentBytes bytes).result =
            .error ⟨[.readingControlLine (earlier.flatten.count 10 + 1)], .notUtf8⟩) := by
  rcases decodeLines_cases (byteLines bytes) with ⟨texts, ht, -⟩ | ⟨texts, line, rest, hl, hn, hr⟩
  · left
    obtain ⟨text, rfl⟩ := exists_encode_of_pieces (decode?_ne_none_of_map_cutEnding ht)
    exact ⟨text, decode?_encode text, parseDocumentBytes_encode text⟩
  · right
    obtain ⟨earlier, other, hpieces, hearlier, hother⟩ := List.map_eq_append_iff.mp hl
    obtain ⟨piece, later, rfl, rfl, -⟩ := List.map_eq_cons_iff.mp hother
    have hvalid := decode?_ne_none_of_map_cutEnding hearlier
    have hnumber : earlier.flatten.count 10 = texts.length := by
      rw [count_flatten_of_splitAfter hpieces, ← List.length_map (f := encode), ← hearlier,
        List.length_map]
    have hbad : decode? bytes = none := by
      cases hd : decode? bytes with
      | none => rfl
      | some text =>
        rw [← encode_of_decode? hd, byteLines_encode, decodeLines_map_encode] at hr
        exact absurd (congrArg Prod.snd hr) nofun
    refine ⟨hbad, earlier, piece, later, hpieces, hvalid, decode?_cutEnding_eq_none_iff.mp hn, ?_⟩
    simp only [parseDocumentBytes, hr, hnumber]

end CommentSweep
