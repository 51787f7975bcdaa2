import CommentSweep.Proofs.Text.Encoding
import CommentSweep.Text.Occurrence
import Mathlib.Data.List.Infix

/-!
# Byte offsets in encoded texts

A text may be cut at an offset where one of its characters begins. A marker of ASCII characters is
found in its bytes exactly where it is found in the text.
-/

namespace CommentSweep

theorem encode_cons (c : Char) (rest : Text) : encode (c :: rest) = encode [c] ++ encode rest :=
  encode_append [c] rest

section Boundaries

/-- The bytes that a character beyond ASCII goes on with behind its first byte. -/
def isContinuation (byte : UInt8) : Bool := 128 ≤ byte && byte < 192

/-- A character begins at the offset, or the bytes end there. -/
def isBoundary (bytes : Bytes) (offset : Nat) : Bool :=
  match bytes[offset]? with
  | some byte => !isContinuation byte
  | none => offset == bytes.length

/-- The bytes from an offset on, if one may cut there. -/
def bytesFrom? (bytes : Bytes) (offset : Nat) : Option Bytes :=
  if isBoundary bytes offset then some (bytes.drop offset) else none

/-- The bytes before an offset, if one may cut there. -/
def bytesUpTo? (bytes : Bytes) (offset : Nat) : Option Bytes :=
  if isBoundary bytes offset then some (bytes.take offset) else none

/-- No character begins with a continuation byte. -/
theorem isContinuation_head_encode {c : Char} {byte : UInt8} (h : (encode [c]).head? = some byte) :
    isContinuation byte = false := by
  have hsmall {n : Nat} (hn : n < 128) : isContinuation (UInt8.ofNat n) = false := by
    have hle : ¬ 128 ≤ UInt8.ofNat n := by
      rw [UInt8.le_iff_toNat_le, UInt8.toNat_ofNat_of_lt' (hn.trans (by decide))]
      exact Nat.not_le.mpr hn
    rw [isContinuation, decide_eq_false hle, Bool.false_and]
  have hlarge {n : Nat} (hl : 192 ≤ n) (hu : n < 256) : isContinuation (UInt8.ofNat n) = false := by
    have hlt : ¬ UInt8.ofNat n < 192 := by
      rw [UInt8.lt_iff_toNat_lt, UInt8.toNat_ofNat_of_lt' hu]
      exact Nat.not_lt.mpr hl
    rw [isContinuation, decide_eq_false hlt, Bool.and_false]
  rw [encode_singleton, String.utf8EncodeChar] at h
  split at h
  · obtain rfl := Option.some.inj h
    exact hsmall (by omega)
  · split at h
    · obtain rfl := Option.some.inj h
      exact hlarge (by omega) (by omega)
    · split at h
      · obtain rfl := Option.some.inj h
        exact hlarge (by omega) (by omega)
      · obtain rfl := Option.some.inj h
        exact hlarge (by omega) (by omega)

/-- Between characters one may cut. -/
theorem isBoundary_encode (before after : Text) :
    isBoundary (encode (before ++ after)) (encode before).length = true := by
  rw [encode_append, isBoundary, List.getElem?_append_right le_rfl, Nat.sub_self]
  cases after with
  | nil => simp [encode]
  | cons c rest =>
    obtain ⟨byte, more, hc⟩ := List.exists_cons_of_ne_nil (encode_ne_nil (List.cons_ne_nil c []))
    have hfirst : (encode (c :: rest))[0]? = some byte := by
      rw [encode_cons c rest, hc]
      rfl
    simp only [hfirst, isContinuation_head_encode (congrArg List.head? hc), Bool.not_false]

theorem bytesFrom?_encode (before after : Text) :
    bytesFrom? (encode (before ++ after)) (encode before).length = some (encode after) := by
  rw [bytesFrom?, if_pos (isBoundary_encode before after), encode_append, List.drop_left]

theorem bytesUpTo?_encode (before after : Text) :
    bytesUpTo? (encode (before ++ after)) (encode before).length = some (encode before) := by
  rw [bytesUpTo?, if_pos (isBoundary_encode before after), encode_append, List.take_left]

/-- Inside a character no cut is made. -/
example : bytesFrom? (encode ['é', '/']) 1 = none ∧
    bytesFrom? (encode ['é', '/']) 2 = some (encode ['/']) := by
  decide

end Boundaries

section Searching

/-- The offset at which a marker first stands. -/
def offset? (marker bytes : Bytes) : Option Nat := bytes.tails.findIdx? marker.isPrefixOf

/-- The marker stands at the head of the bytes, or the search goes on behind the first of them. -/
theorem offset?_cons (marker : Bytes) (byte : UInt8) (rest : Bytes) :
    offset? marker (byte :: rest) =
      if marker.isPrefixOf (byte :: rest) then some 0 else (offset? marker rest).map (· + 1) := by
  rw [offset?, List.tails_cons, List.findIdx?_cons]
  rfl

/-- A marker is searched for behind bytes with which it does not begin. -/
theorem offset?_append_of_notMem {first : UInt8} {bytes : Bytes} (h : first ∉ bytes)
    (more rest : Bytes) : offset? (first :: more) (bytes ++ rest) =
      (offset? (first :: more) rest).map (· + bytes.length) := by
  induction bytes with
  | nil => simp
  | cons byte bytes ih =>
    obtain ⟨hbyte, hbytes⟩ := List.ne_and_not_mem_of_not_mem_cons h
    have hstarts : ¬ (first :: more).isPrefixOf (byte :: (bytes ++ rest)) = true := by
      rw [List.isPrefixOf_iff_prefix, List.cons_prefix_cons]
      exact fun hp => hbyte hp.1
    rw [List.cons_append, offset?_cons, if_neg hstarts, ih hbytes, Option.map_map]
    rfl

theorem exists_encode_of_ascii {c : Char} (h : c.val.toNat ≤ 127) :
    ∃ byte, encode [c] = [byte] ∧ byte < 128 := by
  refine ⟨UInt8.ofNat c.val.toNat, ?_, ?_⟩
  · rw [encode_singleton, String.utf8EncodeChar, if_pos h]
  · have hlt := Nat.lt_succ_of_le h
    rwa [UInt8.lt_iff_toNat_lt, UInt8.toNat_ofNat_of_lt' (hlt.trans (by decide))]

/-- A text of ASCII characters is a start of another one exactly if its bytes are. -/
theorem encode_isPrefix_iff {marker text : Text} (h : ∀ c ∈ marker, c.val.toNat ≤ 127) :
    encode marker <+: encode text ↔ marker <+: text := by
  induction marker generalizing text with
  | nil => exact iff_of_true List.nil_prefix List.nil_prefix
  | cons m marker ih =>
    obtain ⟨hm, hmarker⟩ := List.forall_mem_cons.mp h
    obtain ⟨byte, hbyte, hlt⟩ := exists_encode_of_ascii hm
    cases text with
    | nil =>
      refine iff_of_false (fun hp => ?_) (fun hp => absurd (List.prefix_nil.mp hp) nofun)
      exact encode_ne_nil (List.cons_ne_nil m marker) (List.prefix_nil.mp hp)
    | cons c rest =>
      constructor
      · intro hp
        have hc : c = m := by
          obtain ⟨first, more, hfirst⟩ :=
            List.exists_cons_of_ne_nil (encode_ne_nil (List.cons_ne_nil c []))
          rw [encode_cons m marker, encode_cons c rest, hbyte, hfirst, List.singleton_append,
            List.cons_append, List.cons_prefix_cons] at hp
          refine eq_of_mem_encode_singleton hbyte hlt ?_
          rw [hfirst, hp.1]
          exact List.mem_cons_self
        rw [hc, encode_cons m marker, encode_cons m rest, List.prefix_append_right_inj,
          ih hmarker] at hp
        rw [hc, List.cons_prefix_cons]
        exact ⟨rfl, hp⟩
      · rintro ⟨after, ha⟩
        rw [← ha, encode_append]
        exact List.prefix_append _ _

/-- A marker of ASCII characters is found in the bytes of a text where it is found in the text. -/
theorem offset?_encode {marker : Text} (hn : marker ≠ [])
    (h : ∀ c ∈ marker, c.val.toNat ≤ 127) (text : Text) :
    offset? (encode marker) (encode text) =
      (cut? marker text).map fun found => (encode found.1).length := by
  obtain ⟨m, more, rfl⟩ := List.exists_cons_of_ne_nil hn
  obtain ⟨byte, hbyte, hlt⟩ := exists_encode_of_ascii (h m List.mem_cons_self)
  have hmarker : encode (m :: more) = byte :: encode more := by
    rw [encode_cons m more, hbyte, List.singleton_append]
  induction text with
  | nil =>
    rw [hmarker]
    rfl
  | cons c rest ih =>
    have hstarts : encode (m :: more) <+: encode (c :: rest) ↔ m :: more <+: c :: rest :=
      encode_isPrefix_iff h
    rw [cut?_cons]
    cases hp : (m :: more).isPrefixOf? (c :: rest) with
    | some after =>
      have hx : m :: more <+: c :: rest := ⟨after, (eq_append_of_isPrefixOf? hp).symm⟩
      obtain ⟨first, others, hfirst⟩ :=
        List.exists_cons_of_ne_nil (encode_ne_nil (List.cons_ne_nil c rest))
      rw [hfirst] at hstarts ⊢
      rw [offset?_cons, if_pos (List.isPrefixOf_iff_prefix.mpr (hstarts.mpr hx))]
      rfl
    | none =>
      have hx := isPrefixOf?_eq_none_iff.mp hp
      have hnext : offset? (encode (m :: more)) (encode (c :: rest)) =
          (offset? (encode (m :: more)) (encode rest)).map (· + (encode [c]).length) := by
        by_cases hm : byte ∈ encode [c]
        · obtain rfl := eq_of_mem_encode_singleton hbyte hlt hm
          rw [encode_cons c rest, hbyte, List.singleton_append] at hstarts ⊢
          rw [offset?_cons, if_neg (mt (List.isPrefixOf_iff_prefix.mp) (mt hstarts.mp hx))]
          rfl
        · rw [encode_cons c rest, hmarker, offset?_append_of_notMem hm]
      rw [hnext, ih, Option.map_map, Option.map_map]
      congr 1
      funext found
      rw [Function.comp_apply, Function.comp_apply, encode_cons c found.1, List.length_append,
        Nat.add_comm]

end Searching

/-- Of two starts of a text the one with fewer bytes is the one with fewer characters. -/
theorem length_encode_lt_iff {first second text : Text} (hf : first <+: text)
    (hs : second <+: text) :
    (encode first).length < (encode second).length ↔ first.length < second.length := by
  have hle {shorter longer : Text} (hx : shorter <+: text) (hy : longer <+: text)
      (h : shorter.length ≤ longer.length) :
      (encode shorter).length ≤ (encode longer).length := by
    obtain ⟨more, rfl⟩ := List.prefix_of_prefix_length_le hx hy h
    rw [encode_append, List.length_append]
    exact Nat.le_add_right _ _
  constructor
  · exact fun h => Nat.lt_of_not_le fun hlen => absurd h (Nat.not_lt.mpr (hle hs hf hlen))
  · intro h
    obtain ⟨more, rfl⟩ := List.prefix_of_prefix_length_le hf hs h.le
    have hmore : more ≠ [] := by
      rintro rfl
      simp at h
    rw [encode_append, List.length_append]
    exact Nat.lt_add_of_pos_right (List.length_pos_iff.mpr (encode_ne_nil hmore))

end CommentSweep
