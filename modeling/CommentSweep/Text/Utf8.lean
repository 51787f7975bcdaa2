import CommentSweep.Text.Line

/-!
# Bytes of a text

Decoding succeeds on exactly the encodings of texts.
-/

namespace CommentSweep

/-- The contents of a file. -/
abbrev Bytes := List UInt8

/-- The UTF-8 encoding of a text. -/
def encode (text : Text) : Bytes := text.flatMap String.utf8EncodeChar

/-- The text that the bytes encode, if they are valid UTF-8. -/
def decode? (bytes : Bytes) : Option Text := bytes.toByteArray.utf8Decode?.map Array.toList

theorem decode?_encode (text : Text) : decode? (encode text) = some text := by
  simpa [decode?, encode, List.utf8Encode] using
    congrArg (Option.map Array.toList) (List.utf8Decode?_utf8Encode (l := text))

theorem encode_of_decode? {bytes : Bytes} {text : Text} (h : decode? bytes = some text) :
    encode text = bytes := by
  obtain ⟨chars, hc, rfl⟩ := Option.map_eq_some_iff.mp h
  have hs : bytes.toByteArray.utf8Decode?.isSome := by simp [hc]
  have he := ByteArray.utf8Encode_get_utf8Decode? (b := bytes.toByteArray) (h := hs)
  have hg : bytes.toByteArray.utf8Decode?.get hs = chars := by simp [hc]
  rw [hg] at he
  simpa [encode, List.utf8Encode] using congrArg (fun array => array.data.toList) he

/-- Valid UTF-8 is exactly what encoding produces. -/
theorem decode?_eq_some_iff {bytes : Bytes} {text : Text} :
    decode? bytes = some text ↔ encode text = bytes :=
  ⟨encode_of_decode?, fun h => h ▸ decode?_encode text⟩

/-- The bodies of the lines of a byte sequence, cut at line feeds before anything is decoded. -/
def byteLines (bytes : Bytes) : List Bytes :=
  (splitAfter 10 bytes).map fun piece => (cutEnding 13 10 piece).1

/-- The texts of the lines before the first one that is not UTF-8, and the index of that line. -/
def decodeLines : List Bytes → List Text × Option Nat
  | [] => ([], none)
  | line :: rest =>
    match decode? line with
    | none => ([], some 0)
    | some text =>
      let more := decodeLines rest
      (text :: more.1, more.2.map (· + 1))

end CommentSweep
