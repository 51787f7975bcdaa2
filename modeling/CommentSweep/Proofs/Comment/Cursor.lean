import CommentSweep.Proofs.Comment.Character
import CommentSweep.Proofs.Text.Offset

/-!
# Surveying a line in place

A loop over the bytes of a line keeps an offset and cuts off what stands behind it. Every turn
passes over one stretch of the line, so the loop comes to the survey.
-/

namespace CommentSweep

/-- A survey whose code is held in bytes. -/
@[ext]
structure ByteSurvey where
  commented : Bool
  after : Region
  code : Bytes
  deriving DecidableEq, Repr

def Survey.encoded (survey : Survey) : ByteSurvey :=
  ⟨survey.commented, survey.after, encode survey.code⟩

/-- Where the loop stands in a line. -/
structure Cursor where
  /-- The number of bytes before the cursor. -/
  offset : Nat
  /-- The survey of what stands before the cursor. -/
  found : ByteSurvey
  deriving DecidableEq, Repr

/-- The cursor at the start of a line that begins in the given region. -/
def Cursor.start (region : Region) : Cursor := ⟨0, region == .block, region, []⟩

/-- The offset of the nearest comment opener. -/
inductive OpenerOffset where
  | line (offset : Nat)
  | block (offset : Nat)
  deriving DecidableEq, Repr

/-- Both openers are searched for; the one with fewer bytes before it is the nearest. -/
def openerOffset? (bytes : Bytes) : Option OpenerOffset :=
  match offset? (encode lineOpener) bytes, offset? (encode blockOpener) bytes with
  | none, none => none
  | some line, none => some (.line line)
  | none, some block => some (.block block)
  | some line, some block => if block < line then some (.block block) else some (.line line)

/-- What a turn of the loop comes to. -/
inductive Turn where
  | goesOn (next : Cursor)
  | leaves (result : ByteSurvey)
  deriving DecidableEq, Repr

/-- One turn of the loop. There is none where a cut would be made inside a character. -/
def Cursor.turn? (bytes : Bytes) (cursor : Cursor) : Option Turn := do
  let rest ← bytesFrom? bytes cursor.offset
  match cursor.found.after with
  | .block =>
    match offset? (encode blockCloser) rest with
    | none => return .leaves cursor.found
    | some closer =>
      return .goesOn ⟨cursor.offset + (closer + (encode blockCloser).length),
        { cursor.found with after := .code }⟩
  | .code =>
    match openerOffset? rest with
    | none => return .leaves { cursor.found with code := cursor.found.code ++ rest }
    | some (.line opener) =>
      let code ← bytesUpTo? rest opener
      return .leaves ⟨true, .code, cursor.found.code ++ code⟩
    | some (.block opener) =>
      let code ← bytesUpTo? rest opener
      return .goesOn ⟨cursor.offset + (opener + (encode blockOpener).length),
        ⟨true, .block, cursor.found.code ++ code⟩⟩

/-- The cursors with which the turns of the loop begin, and the result that the last one gives. -/
inductive Turns (bytes : Bytes) : Cursor → List Cursor → ByteSurvey → Prop where
  | last {cursor : Cursor} {result : ByteSurvey}
      (h : cursor.turn? bytes = some (.leaves result)) : Turns bytes cursor [cursor] result
  | cons {cursor next : Cursor} {more : List Cursor} {result : ByteSurvey}
      (h : cursor.turn? bytes = some (.goesOn next)) (hmore : Turns bytes next more result) :
      Turns bytes cursor (cursor :: more) result

/-- The loop takes one course. -/
theorem Turns.unique {bytes : Bytes} {cursor : Cursor} {cursors others : List Cursor}
    {result other : ByteSurvey} (h : Turns bytes cursor cursors result)
    (h' : Turns bytes cursor others other) : others = cursors ∧ other = result := by
  induction h generalizing others other with
  | last hturn =>
    cases h' with
    | last hturn' => exact ⟨rfl, Turn.leaves.inj (Option.some.inj (hturn'.symm.trans hturn))⟩
    | cons hturn' _ => cases hturn'.symm.trans hturn
  | cons hturn _ ih =>
    cases h' with
    | last hturn' => cases hturn'.symm.trans hturn
    | cons hturn' hmore' =>
      obtain rfl := Turn.goesOn.inj (Option.some.inj (hturn'.symm.trans hturn))
      obtain ⟨rfl, rfl⟩ := ih hmore'
      exact ⟨rfl, rfl⟩

section Stretches

/-- The survey of what was surveyed and of a stretch behind it. -/
def ByteSurvey.past (found : ByteSurvey) (stretch : Stretch) : ByteSurvey :=
  ⟨found.commented || stretch.opensComment, stretch.after, found.code ++ encode stretch.codeText⟩

/-- The cursor behind a further stretch. -/
def Cursor.past (cursor : Cursor) (stretch : Stretch) : Cursor :=
  ⟨cursor.offset + (encode stretch.text).length, cursor.found.past stretch⟩

theorem foldl_past (found : ByteSurvey) (passed : List Stretch) :
    passed.foldl ByteSurvey.past found =
      ⟨found.commented || passed.any Stretch.opensComment,
        (passed.getLast?.map Stretch.after).getD found.after,
        found.code ++ encode (passed.flatMap Stretch.codeText)⟩ := by
  induction passed generalizing found with
  | nil => simp [encode]
  | cons stretch rest ih =>
    rw [List.foldl_cons, ih, ByteSurvey.past, List.any_cons, Bool.or_assoc, List.getLast?_cons,
      List.flatMap_cons, encode_append, List.append_assoc]
    cases rest.getLast? <;> rfl

theorem foldl_past_stretches (start : Region) (line : Text) :
    (stretches start line).foldl ByteSurvey.past (Cursor.start start).found =
      (survey start line).encoded := foldl_past _ _

/-- The nearest opener of an encoded text is the nearest of the text. -/
theorem openerOffset?_encode (text : Text) : openerOffset? (encode text) =
    (opening? text).map fun
      | .line code _ => .line (encode code).length
      | .block code _ => .block (encode code).length := by
  have hl : offset? (encode lineOpener) (encode text) = _ :=
    offset?_encode (by decide) (by simp [lineOpener]) text
  have hb : offset? (encode blockOpener) (encode text) = _ :=
    offset?_encode (by decide) (by simp [blockOpener]) text
  rw [openerOffset?, opening?, hl, hb]
  cases hline : cut? lineOpener text with
  | none => cases cut? blockOpener text <;> rfl
  | some line =>
    cases hblock : cut? blockOpener text with
    | none => rfl
    | some block =>
      have hbefore {marker before after : Text} (h : cut? marker text = some (before, after)) :
          before <+: text := by
        rw [eq_append_of_cut? h, List.append_assoc]
        exact List.prefix_append _ _
      have hlt := length_encode_lt_iff (hbefore hblock) (hbefore hline)
      simp only [Option.map_some, hlt]
      split <;> rfl

end Stretches

section Turning

/-- The cursor stands in a line in front of the given rest. -/
def Cursor.StandsBefore (cursor : Cursor) (line rest : Text) : Prop :=
  ∃ passed, line = passed ++ rest ∧ cursor.offset = (encode passed).length

variable {line rest : Text} {cursor : Cursor}

theorem Cursor.StandsBefore.isBoundary (h : cursor.StandsBefore line rest) :
    cursor.offset ≤ (encode line).length ∧ isBoundary (encode line) cursor.offset = true := by
  obtain ⟨passed, rfl, ho⟩ := h
  rw [ho]
  refine ⟨?_, isBoundary_encode passed rest⟩
  rw [encode_append, List.length_append]
  exact Nat.le_add_right _ _

theorem Cursor.StandsBefore.bytesFrom? (h : cursor.StandsBefore line rest) :
    bytesFrom? (encode line) cursor.offset = some (encode rest) := by
  obtain ⟨passed, rfl, ho⟩ := h
  rw [ho, bytesFrom?_encode]

theorem Cursor.StandsBefore.past {stretch : Stretch} {after : Text}
    (h : cursor.StandsBefore line (stretch.text ++ after)) :
    (cursor.past stretch).StandsBefore line after := by
  obtain ⟨passed, rfl, ho⟩ := h
  refine ⟨passed ++ stretch.text, (List.append_assoc _ _ _).symm, ?_⟩
  rw [Cursor.past, encode_append, List.length_append, ho]

/-- A turn in code, for each place where the nearest opener can be. -/
theorem Cursor.StandsBefore.turn?_code (h : cursor.StandsBefore line rest)
    (hc : cursor.found.after = .code) : cursor.turn? (encode line) = some
      (match opening? rest with
      | none => .leaves (cursor.found.past (.plain rest))
      | some (.line code comment) => .leaves (cursor.found.past (.lineComment code comment))
      | some (.block code _) => .goesOn (cursor.past (.opened code))) := by
  have hup (code after : Text) (hr : rest = code ++ after) :
      bytesUpTo? (encode rest) (encode code).length = some (encode code) := by
    rw [hr, bytesUpTo?_encode]
  simp only [Cursor.turn?, h.bytesFrom?, Option.bind_eq_bind, Option.bind_some, hc,
    openerOffset?_encode]
  cases ho : opening? rest with
  | none =>
    simp [ByteSurvey.past, Stretch.opensComment, Stretch.after, Stretch.codeText]
  | some found =>
    cases found with
    | line code comment =>
      have hcode := hup code _ ((eq_of_opening?_line ho).trans (List.append_assoc _ _ _))
      simp [hcode, ByteSurvey.past, Stretch.opensComment, Stretch.after, Stretch.codeText]
    | block code inside =>
      have hcode := hup code _ ((eq_of_opening?_block ho).trans (List.append_assoc _ _ _))
      simp [hcode, Cursor.past, ByteSurvey.past, Stretch.opensComment, Stretch.after,
        Stretch.codeText, Stretch.text]

/-- A turn in a block comment, with and without a closer. -/
theorem Cursor.StandsBefore.turn?_block (h : cursor.StandsBefore line rest)
    (hb : cursor.found.after = .block) : cursor.turn? (encode line) = some
      (match cut? blockCloser rest with
      | none => .leaves (cursor.found.past (.unclosed rest))
      | some (comment, _) => .goesOn (cursor.past (.closed comment))) := by
  have hcloser : offset? (encode blockCloser) (encode rest) = _ :=
    offset?_encode (by decide) (by simp [blockCloser]) rest
  simp only [Cursor.turn?, h.bytesFrom?, Option.bind_eq_bind, Option.bind_some, hb, hcloser]
  cases cut? blockCloser rest with
  | none =>
    simp [ByteSurvey.past, Stretch.opensComment, Stretch.after, Stretch.codeText, encode, ← hb]
  | some found =>
    simp [Cursor.past, ByteSurvey.past, Stretch.opensComment, Stretch.after, Stretch.codeText,
      Stretch.text, encode]

/-- A turn passes over the last stretch, or the cursor goes on two bytes or more behind it. -/
theorem Cursor.StandsBefore.turn?_cases (h : cursor.StandsBefore line rest) :
    (∃ stretch, stretches cursor.found.after rest = [stretch] ∧
      cursor.turn? (encode line) = some (.leaves (cursor.found.past stretch))) ∨
    ∃ stretch after,
      stretches cursor.found.after rest = stretch :: stretches stretch.after after ∧
        cursor.turn? (encode line) = some (.goesOn (cursor.past stretch)) ∧
          (cursor.past stretch).StandsBefore line after ∧
            cursor.offset + 2 ≤ (cursor.past stretch).offset := by
  cases hr : cursor.found.after with
  | code =>
    have hturn := h.turn?_code hr
    cases ho : opening? rest with
    | none =>
      rw [ho] at hturn
      exact Or.inl ⟨_, stretches_of_openerFree (opening?_eq_none_iff.mp ho), hturn⟩
    | some found =>
      rw [ho] at hturn
      cases found with
      | line code comment => exact Or.inl ⟨_, stretches_of_opening?_line ho, hturn⟩
      | block code inside =>
        refine Or.inr ⟨_, inside, stretches_of_opening?_block ho, hturn, ?_, ?_⟩
        · rw [eq_of_opening?_block ho] at h
          exact h.past
        · rw [Cursor.past, Stretch.text, encode_append, List.length_append]
          exact Nat.add_le_add_left (Nat.le_add_left 2 _) _
  | block =>
    have hturn := h.turn?_block hr
    cases hc : cut? blockCloser rest with
    | none =>
      rw [hc] at hturn
      exact Or.inl ⟨_, stretches_of_cut?_eq_none hc, hturn⟩
    | some found =>
      rw [hc] at hturn
      refine Or.inr ⟨_, found.2, stretches_of_cut?_eq_some hc, hturn, ?_, ?_⟩
      · rw [eq_append_of_cut? hc] at h
        exact h.past
      · rw [Cursor.past, Stretch.text, encode_append, List.length_append]
        exact Nat.add_le_add_left (Nat.le_add_left 2 _) _

end Turning

section Looping

variable {line rest : Text} {cursor : Cursor}

/-- Cursors that stand in a line, each two bytes or more behind the one before it. -/
structure Advancing (line : Text) (cursors : List Cursor) : Prop where
  standing : ∀ cursor ∈ cursors, ∃ rest, cursor.StandsBefore line rest
  apart : cursors.IsChain fun earlier later => earlier.offset + 2 ≤ later.offset

/-- From a cursor in a line the loop comes to its end, with one turn for each stretch. -/
theorem Cursor.StandsBefore.exists_turns (h : cursor.StandsBefore line rest) :
    ∃ more, Turns (encode line) cursor (cursor :: more)
        ((stretches cursor.found.after rest).foldl ByteSurvey.past cursor.found) ∧
      (cursor :: more).length = (stretches cursor.found.after rest).length ∧
        Advancing line (cursor :: more) := by
  induction hp : stretches cursor.found.after rest generalizing cursor rest with
  | nil => exact absurd hp (stretches_ne_nil _ _)
  | cons stretch more ih =>
    obtain ⟨last, hlast, hturn⟩ | ⟨first, after, hfirst, hturn, hstands, hadvance⟩ := h.turn?_cases
    · obtain ⟨rfl, rfl⟩ := List.cons.inj (hlast.symm.trans hp)
      exact ⟨[], .last hturn, rfl, List.forall_mem_singleton.mpr ⟨rest, h⟩,
        List.isChain_singleton _⟩
    · obtain ⟨rfl, rfl⟩ := List.cons.inj (hfirst.symm.trans hp)
      obtain ⟨cursors, hturns, hlength, hstanding, hapart⟩ := ih hstands rfl
      exact ⟨cursor.past first :: cursors, .cons hturn hturns, congrArg (· + 1) hlength,
        List.forall_mem_cons.mpr ⟨⟨rest, h⟩, hstanding⟩,
        List.isChain_cons_cons.mpr ⟨hadvance, hapart⟩⟩

/-- Cursors in a line are one more than half of its bytes at most. -/
theorem Advancing.length_le {cursors : List Cursor} (h : Advancing line cursors) :
    cursors.length ≤ (encode line).length / 2 + 1 := by
  have hbound (cursor : Cursor) (more : List Cursor) (h : Advancing line (cursor :: more)) :
      cursor.offset + 2 * more.length ≤ (encode line).length := by
    induction more generalizing cursor with
    | nil =>
      obtain ⟨rest, hstands⟩ := h.standing cursor List.mem_cons_self
      exact hstands.isBoundary.1
    | cons next more ih =>
      obtain ⟨-, hstanding⟩ := List.forall_mem_cons.mp h.standing
      obtain ⟨hnext, hapart⟩ := List.isChain_cons_cons.mp h.apart
      have hmore := ih next ⟨hstanding, hapart⟩
      rw [List.length_cons]
      omega
  cases cursors with
  | nil => exact Nat.zero_le _
  | cons cursor more =>
    have hmore := hbound cursor more h
    rw [List.length_cons]
    omega

/-- The loop over the bytes of a line takes one course, with a turn for each stretch, to the survey
of the line. No cut is refused, and every turn but the last moves two bytes or more. -/
theorem exists_turns_survey (start : Region) (line : Text) :
    ∃ cursors, Turns (encode line) (.start start) cursors (survey start line).encoded ∧
      (∀ others result, Turns (encode line) (.start start) others result → others = cursors) ∧
      (∀ cursor ∈ cursors, cursor.offset ≤ (encode line).length ∧
        isBoundary (encode line) cursor.offset = true ∧
          (cursor.turn? (encode line)).isSome = true) ∧
      cursors.IsChain (fun earlier later => earlier.offset + 2 ≤ later.offset) ∧
      cursors.length = (stretches start line).length ∧
      cursors.length ≤ (encode line).length / 2 + 1 := by
  have hstart : (Cursor.start start).StandsBefore line line := ⟨[], rfl, rfl⟩
  obtain ⟨more, hturns, hlength, hadvancing⟩ := hstart.exists_turns
  rw [show (Cursor.start start).found.after = start from rfl, foldl_past_stretches] at hturns
  refine ⟨_, hturns, fun _ _ h => (hturns.unique h).1, fun cursor hc => ?_, hadvancing.apart,
    hlength, hadvancing.length_le⟩
  obtain ⟨rest, hstands⟩ := hadvancing.standing cursor hc
  refine ⟨hstands.isBoundary.1, hstands.isBoundary.2, ?_⟩
  obtain ⟨_, _, hturn⟩ | ⟨_, _, _, hturn, _⟩ := hstands.turn?_cases
  · rw [hturn]
    rfl
  · rw [hturn]
    rfl

end Looping

end CommentSweep
