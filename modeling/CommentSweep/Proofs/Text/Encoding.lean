import CommentSweep.Proofs.Text.Cutting
import CommentSweep.Text.Utf8

/-!
# Lines of encoded texts

An ASCII byte of an encoded text stands for its character and is part of no other one, so a text can
be cut into lines before or after it is encoded.
-/

namespace CommentSweep

@[simp] theorem encode_append (before after : Text) :
    encode (before ++ after) = encode before ++ encode after := List.flatMap_append

theorem encode_flatten (pieces : List Text) : encode pieces.flatten = (pieces.map encode).flatten := by
  induction pieces with
  | nil => rfl
  | cons piece rest ih =>
    rw [List.flatten_cons, encode_append, ih, List.map_cons, List.flatten_cons]

theorem encode_injective : Function.Injective encode := fun before after h =>
  Option.some.inj ((decode?_encode before).symm.trans (h ▸ decode?_encode after))

theorem encode_singleton (c : Char) : encode [c] = String.utf8EncodeChar c :=
  List.flatMap_singleton _ _

theorem encode_ne_nil {text : Text} (h : text ≠ []) : encode text ≠ [] := fun he =>
  h (encode_injective he)

theorem encode_feed : encode ['\n'] = [10] := rfl

theorem encode_return : encode ['\r'] = [13] := rfl

section Ascii

variable {c : Char} {byte : UInt8}

theorem not_lt_of_mem_utf8EncodeChar (hc : ¬ c.val.toNat ≤ 127)
    (h : byte ∈ String.utf8EncodeChar c) : ¬ byte < 128 := by
  have hlarge {n : Nat} (hl : 128 ≤ n) (hu : n < 256) : ¬ UInt8.ofNat n < 128 := by
    rw [UInt8.lt_iff_toNat_lt, UInt8.toNat_ofNat_of_lt' hu]
    exact Nat.not_lt.mpr hl
  rw [String.utf8EncodeChar, if_neg hc] at h
  split at h
  · simp only [List.mem_cons, List.not_mem_nil, or_false] at h
    rcases h with rfl | rfl <;> exact hlarge (by omega) (by omega)
  · split at h
    · simp only [List.mem_cons, List.not_mem_nil, or_false] at h
      rcases h with rfl | rfl | rfl <;> exact hlarge (by omega) (by omega)
    · simp only [List.mem_cons, List.not_mem_nil, or_false] at h
      rcases h with rfl | rfl | rfl | rfl <;> exact hlarge (by omega) (by omega)

/-- An ASCII byte is a byte of no other character. -/
theorem eq_of_mem_encode_singleton {d : Char} (hc : encode [c] = [byte]) (hb : byte < 128)
    (h : byte ∈ encode [d]) : d = c := by
  rw [encode_singleton] at h
  have hd : encode [d] = [byte] := by
    rw [encode_singleton]
    by_cases hv : d.val.toNat ≤ 127
    · rw [String.utf8EncodeChar, if_pos hv] at h ⊢
      rw [List.mem_singleton.mp h]
    · exact absurd hb (not_lt_of_mem_utf8EncodeChar hv h)
  exact List.singleton_inj.mp (encode_injective (hd.trans hc.symm))

/-- An ASCII byte stands in an encoded text only where its character does. -/
theorem mem_of_mem_encode (hc : encode [c] = [byte]) (hb : byte < 128) {text : Text}
    (h : byte ∈ encode text) : c ∈ text := by
  obtain ⟨d, hd, hm⟩ := List.mem_flatMap.mp h
  rw [← encode_singleton] at hm
  rwa [← eq_of_mem_encode_singleton hc hb hm]

/-- An encoded text ends with an ASCII byte only if the text ends with its character. -/
theorem getLast?_of_getLast?_encode (hc : encode [c] = [byte]) (hb : byte < 128) {text : Text}
    (h : (encode text).getLast? = some byte) : text.getLast? = some c := by
  cases text using List.reverseRecOn with
  | nil => exact absurd h nofun
  | append_singleton before d =>
    rw [encode_append, List.getLast?_append_of_ne_nil _ (encode_ne_nil (List.cons_ne_nil d []))] at h
    rw [List.getLast?_concat, eq_of_mem_encode_singleton hc hb (List.mem_of_getLast? h)]

end Ascii

/-- A text that is cut at line feeds only at its end is encoded as bytes that are. -/
theorem feed_notMem_dropLast_encode {piece : Text} (h : '\n' ∉ piece.dropLast) :
    10 ∉ (encode piece).dropLast := by
  cases piece using List.reverseRecOn with
  | nil => exact List.not_mem_nil
  | append_singleton before c =>
    rw [List.dropLast_concat] at h
    rw [encode_append, List.dropLast_append_of_ne_nil (encode_ne_nil (List.cons_ne_nil c [])),
      List.mem_append, not_or]
    refine ⟨fun hm => h (mem_of_mem_encode encode_feed (by decide) hm), fun hm => ?_⟩
    obtain rfl := eq_of_mem_encode_singleton encode_feed (by decide) (List.dropLast_subset _ hm)
    exact absurd hm (by decide)

/-- Encoding and cutting after line feeds may change places. -/
theorem splitAfter_encode (text : Text) :
    splitAfter 10 (encode text) = (splitAfter '\n' text).map encode := by
  have hflat : encode text = ((splitAfter '\n' text).map encode).flatten := by
    rw [← encode_flatten, flatten_splitAfter]
  rw [hflat]
  refine splitAfter_flatten ?_ ?_
  · intro bytes hb
    obtain ⟨piece, hp, rfl⟩ := List.mem_map.mp hb
    exact ⟨feed_notMem_dropLast_encode (notMem_dropLast_of_mem_splitAfter hp),
      encode_ne_nil (List.ne_nil_of_mem_splitBy hp)⟩
  · refine List.pairwise_map.mpr ((pairwise_splitAfter text).imp fun {earlier} _ he => ?_)
    obtain ⟨before, rfl⟩ := List.getLast?_eq_some_iff.mp he
    rw [encode_append, encode_feed, List.getLast?_concat]

/-- Encoding and cutting off the ending may change places. -/
theorem cutEnding_encode (piece : Text) :
    cutEnding 13 10 (encode piece) =
      (encode (cutEnding '\r' '\n' piece).1, (cutEnding '\r' '\n' piece).2) := by
  by_cases hf : piece.getLast? = some '\n'
  · obtain ⟨body, rfl⟩ := List.getLast?_eq_some_iff.mp hf
    by_cases hr : body.getLast? = some '\r'
    · obtain ⟨body, rfl⟩ := List.getLast?_eq_some_iff.mp hr
      rw [List.append_assoc, encode_append, List.singleton_append, cutEnding_crlf]
      exact cutEnding_crlf 13 10 (encode body)
    · have hn := mt (getLast?_of_getLast?_encode encode_return (by decide)) hr
      rw [encode_append, encode_feed, cutEnding_lf 10 hn, cutEnding_lf '\n' hr]
  · have hn := mt (getLast?_of_getLast?_encode encode_feed (by decide)) hf
    rw [cutEnding_none 13 hn, cutEnding_none '\r' hf]

/-- The lines of an encoded text are its encoded lines. -/
theorem byteLines_encode (text : Text) :
    byteLines (encode text) = ((lines text).map (·.body)).map encode := by
  rw [byteLines, splitAfter_encode, lines, List.map_map, List.map_map, List.map_map]
  refine List.map_congr_left fun piece _ => ?_
  exact congrArg Prod.fst (cutEnding_encode piece)

end CommentSweep
