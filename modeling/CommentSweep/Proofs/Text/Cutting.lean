import CommentSweep.Text.Line
import Mathlib.Data.List.SplitBy

/-!
# Cutting texts into lines and joining lines

A text determines its lines and `AreLines` says which lines a text can have, so a change of the
lines one by one can be read off the text that is written.
-/

namespace CommentSweep

section Affixes

variable {α : Type} [DecidableEq α]

@[simp] theorem isPrefixOf?_append (first rest : List α) :
    first.isPrefixOf? (first ++ rest) = some rest := by
  induction first with
  | nil => rfl
  | cons x first ih =>
    change (if x == x then first.isPrefixOf? (first ++ rest) else none) = some rest
    rw [beq_self_eq_true, if_pos rfl, ih]

@[simp] theorem isSuffixOf?_append (last rest : List α) :
    last.isSuffixOf? (rest ++ last) = some rest := by
  simp [List.isSuffixOf?]

theorem isPrefixOf?_eq_none_iff {first items : List α} :
    first.isPrefixOf? items = none ↔ ¬ first <+: items := by
  constructor
  · rintro h ⟨rest, rfl⟩
    simp at h
  · intro h
    cases hp : first.isPrefixOf? items with
    | none => rfl
    | some rest => exact absurd ⟨rest, (eq_append_of_isPrefixOf? hp).symm⟩ h

theorem isSuffixOf?_eq_none_iff {last items : List α} :
    last.isSuffixOf? items = none ↔ ¬ last <:+ items := by
  rw [List.isSuffixOf?, Option.map_eq_none_iff, isPrefixOf?_eq_none_iff, List.reverse_prefix]

end Affixes

section Pieces

variable {α : Type} [DecidableEq α] {separator : α}

@[simp] theorem flatten_splitAfter (items : List α) :
    (splitAfter separator items).flatten = items := List.flatten_splitBy _ items

/-- Behind a separator the cut starts anew. -/
theorem splitAfter_append {before : List α} (h : ∀ x ∈ before.getLast?, x = separator)
    (after : List α) : splitAfter separator (before ++ after) =
      splitAfter separator before ++ splitAfter separator after := by
  apply List.splitBy_append
  intro x hx _ _
  rw [h x hx, bne_self_eq_false]

/-- Neighbours that no separator parts are those of a list that has none but at its end. -/
theorem isChain_bne_iff {items : List α} :
    (items.IsChain fun x _ => (x != separator) = true) ↔ separator ∉ items.dropLast := by
  induction items with
  | nil => simp
  | cons x rest ih =>
    cases rest with
    | nil => simp
    | cons y rest =>
      rw [List.isChain_cons_cons, ih, bne_iff_ne, List.dropLast_cons_cons, List.mem_cons, not_or]
      exact and_congr_left' ne_comm

/-- A separator stands nowhere but at the end of a piece. -/
theorem notMem_dropLast_of_mem_splitAfter {items piece : List α}
    (h : piece ∈ splitAfter separator items) : separator ∉ piece.dropLast :=
  isChain_bne_iff.mp (List.isChain_of_mem_splitBy h)

theorem splitAfter_eq_singleton {piece : List α} (h : separator ∉ piece.dropLast)
    (hn : piece ≠ []) : splitAfter separator piece = [piece] :=
  List.splitBy_of_isChain hn (isChain_bne_iff.mpr h)

/-- Every piece but the last ends with a separator. -/
theorem pairwise_splitAfter (items : List α) :
    (splitAfter separator items).Pairwise fun earlier _ => earlier.getLast? = some separator := by
  let Ends : List α → List α → Prop := fun earlier _ => earlier.getLast? = some separator
  have : Trans Ends Ends Ends := ⟨fun h _ => h⟩
  have hc : (splitAfter separator items).IsChain Ends := by
    refine (List.isChain_getLast_head_splitBy _ items).imp ?_
    rintro earlier _ ⟨hn, _, he⟩
    rw [bne_eq_false_iff_eq] at he
    exact (List.getLast?_eq_some_getLast hn).trans (congrArg some he)
  exact List.isChain_iff_pairwise.mp hc

/-- Pieces of which every one but the last ends with a separator are cut there again. -/
theorem splitAfter_flatten {pieces : List (List α)}
    (hp : ∀ piece ∈ pieces, separator ∉ piece.dropLast ∧ piece ≠ [])
    (he : pieces.Pairwise fun earlier _ => earlier.getLast? = some separator) :
    splitAfter separator pieces.flatten = pieces := by
  induction pieces with
  | nil => rfl
  | cons piece rest ih =>
    obtain ⟨⟨hs, hn⟩, hrest⟩ := List.forall_mem_cons.mp hp
    obtain ⟨hends, hpairs⟩ := List.pairwise_cons.mp he
    cases rest with
    | nil => rw [List.flatten_singleton, splitAfter_eq_singleton hs hn]
    | cons next rest =>
      have hlast : ∀ x ∈ piece.getLast?, x = separator := by
        intro x hx
        rw [hends next List.mem_cons_self] at hx
        exact (Option.some.inj hx).symm
      rw [List.flatten_cons, splitAfter_append hlast, splitAfter_eq_singleton hs hn,
        ih hrest hpairs, List.singleton_append]

theorem cutEnding_crlf (cr lf : α) (body : List α) :
    cutEnding cr lf (body ++ [cr, lf]) = (body, .crlf) := by
  simp only [cutEnding, isSuffixOf?_append]

theorem cutEnding_lf {cr : α} (lf : α) {body : List α} (h : body.getLast? ≠ some cr) :
    cutEnding cr lf (body ++ [lf]) = (body, .lf) := by
  have hn : [cr, lf].isSuffixOf? (body ++ [lf]) = none := by
    rw [isSuffixOf?_eq_none_iff]
    rintro ⟨rest, hr⟩
    have hb : rest ++ [cr] = body := List.append_inj_left' (by simpa using hr) rfl
    exact h (by rw [← hb, List.getLast?_concat])
  simp only [cutEnding, hn, isSuffixOf?_append]

theorem cutEnding_none (cr : α) {lf : α} {piece : List α} (h : piece.getLast? ≠ some lf) :
    cutEnding cr lf piece = (piece, .none) := by
  have hn (first : List α) : (first ++ [lf]).isSuffixOf? piece = none := by
    rw [isSuffixOf?_eq_none_iff]
    rintro ⟨rest, rfl⟩
    exact h (by rw [← List.append_assoc, List.getLast?_concat])
  have hcr : [cr, lf].isSuffixOf? piece = none := hn [cr]
  have hlf : [lf].isSuffixOf? piece = none := hn []
  simp only [cutEnding, hcr, hlf]

end Pieces

/-- What every line has that was cut out of a text. -/
structure Line.Cut (line : Line) : Prop where
  /-- A line feed ends a line, so there is none inside. -/
  feed_notMem : '\n' ∉ line.body
  /-- A carriage return before the line feed would belong to the ending. -/
  no_return : line.ending = .lf → line.body.getLast? ≠ some '\r'
  /-- No empty line follows a final line feed. -/
  raw_ne_nil : line.raw ≠ []

/-- The lists of lines that texts have. -/
structure AreLines (ls : List Line) : Prop where
  cut : ∀ line ∈ ls, line.Cut
  /-- Only the last line may lack an ending. -/
  ended : ls.Pairwise fun earlier _ => earlier.ending ≠ .none

/-- A line that was cut out of a text is cut the same way again. -/
theorem Line.Cut.ofPiece_raw {line : Line} (h : line.Cut) : Line.ofPiece line.raw = line := by
  obtain ⟨body, ending⟩ := line
  cases ending with
  | none =>
    have hb : body.getLast? ≠ some '\n' := fun he => h.feed_notMem (List.mem_of_getLast? he)
    simp only [Line.ofPiece, Line.raw, Ending.text, List.append_nil, cutEnding_none '\r' hb]
  | lf => simp only [Line.ofPiece, Line.raw, Ending.text, cutEnding_lf '\n' (h.no_return rfl)]
  | crlf => simp only [Line.ofPiece, Line.raw, Ending.text, cutEnding_crlf]

theorem Line.Cut.feed_notMem_dropLast {line : Line} (h : line.Cut) :
    '\n' ∉ line.raw.dropLast := by
  have hb := h.feed_notMem
  obtain ⟨body, ending⟩ := line
  cases ending with
  | none => exact fun hm => hb (by simpa [Line.raw, Ending.text] using List.dropLast_subset _ hm)
  | lf => simpa [Line.raw, Ending.text] using hb
  | crlf => simpa [Line.raw, Ending.text] using hb

theorem Line.getLast?_raw {line : Line} (h : line.ending ≠ .none) :
    line.raw.getLast? = some '\n' := by
  obtain ⟨body, ending⟩ := line
  cases ending with
  | none => exact absurd rfl h
  | lf => simp [Line.raw, Ending.text]
  | crlf => simp [Line.raw, Ending.text]

/-- A text that ends with a line feed is cut into lines apart from what follows it. -/
theorem lines_append {before : Text} (h : ∀ c ∈ before.getLast?, c = '\n') (after : Text) :
    lines (before ++ after) = lines before ++ lines after := by
  rw [lines, splitAfter_append h, List.map_append]
  rfl

/-- A line that was cut out of a text is the only line of what it writes. -/
theorem Line.Cut.lines_raw {line : Line} (h : line.Cut) : lines line.raw = [line] := by
  rw [lines, splitAfter_eq_singleton h.feed_notMem_dropLast h.raw_ne_nil, List.map_singleton,
    h.ofPiece_raw]

/-- Cutting the text of lines gives the lines back. -/
theorem AreLines.lines_flatMap_raw {ls : List Line} (h : AreLines ls) :
    lines (ls.flatMap Line.raw) = ls := by
  have hpieces : ∀ piece ∈ ls.map Line.raw, '\n' ∉ piece.dropLast ∧ piece ≠ [] := by
    intro piece hp
    obtain ⟨line, hl, rfl⟩ := List.mem_map.mp hp
    exact ⟨(h.cut line hl).feed_notMem_dropLast, (h.cut line hl).raw_ne_nil⟩
  have hends : (ls.map Line.raw).Pairwise fun earlier _ => earlier.getLast? = some '\n' :=
    List.pairwise_map.mpr (h.ended.imp Line.getLast?_raw)
  rw [lines, List.flatMap_def, splitAfter_flatten hpieces hends, List.map_map]
  exact (List.map_congr_left fun line hl => (h.cut line hl).ofPiece_raw).trans (List.map_id ls)

@[simp] theorem flatMap_raw_lines (text : Text) : (lines text).flatMap Line.raw = text := by
  simp only [lines, List.flatMap_map, Line.raw_ofPiece, List.flatMap_id', flatten_splitAfter]

theorem Line.cut_ofPiece {piece : Text} (h : '\n' ∉ piece.dropLast) (hn : piece ≠ []) :
    (Line.ofPiece piece).Cut := by
  have hraw : (Line.ofPiece piece).raw ≠ [] := by rwa [Line.raw_ofPiece]
  by_cases hlast : piece.getLast? = some '\n'
  · obtain ⟨body, rfl⟩ := List.getLast?_eq_some_iff.mp hlast
    rw [List.dropLast_concat] at h
    by_cases hr : body.getLast? = some '\r'
    · obtain ⟨body, rfl⟩ := List.getLast?_eq_some_iff.mp hr
      have he : Line.ofPiece (body ++ ['\r'] ++ ['\n']) = ⟨body, .crlf⟩ := by
        rw [Line.ofPiece, List.append_assoc, List.singleton_append, cutEnding_crlf]
      rw [he] at hraw ⊢
      exact ⟨fun hm => h (List.mem_append_left _ hm), nofun, hraw⟩
    · have he : Line.ofPiece (body ++ ['\n']) = ⟨body, .lf⟩ := by
        rw [Line.ofPiece, cutEnding_lf '\n' hr]
      rw [he] at hraw ⊢
      exact ⟨h, fun _ => hr, hraw⟩
  · have he : Line.ofPiece piece = ⟨piece, .none⟩ := by
      rw [Line.ofPiece, cutEnding_none '\r' hlast]
    rw [he] at hraw ⊢
    refine ⟨fun hm => ?_, nofun, hraw⟩
    rw [← List.dropLast_concat_getLast hn, List.mem_append, List.mem_singleton] at hm
    rcases hm with hm | hm
    · exact h hm
    · exact hlast ((List.getLast?_eq_some_getLast hn).trans (congrArg some hm.symm))

theorem Line.ending_ofPiece_ne_none {piece : Text} (h : piece.getLast? = some '\n') :
    (Line.ofPiece piece).ending ≠ .none := by
  obtain ⟨body, rfl⟩ := List.getLast?_eq_some_iff.mp h
  by_cases hr : body.getLast? = some '\r'
  · obtain ⟨body, rfl⟩ := List.getLast?_eq_some_iff.mp hr
    rw [Line.ofPiece, List.append_assoc, List.singleton_append, cutEnding_crlf]
    exact nofun
  · rw [Line.ofPiece, cutEnding_lf '\n' hr]
    exact nofun

/-- The lines of a text are lines that a text can have. -/
theorem areLines_lines (text : Text) : AreLines (lines text) := by
  constructor
  · intro line hm
    obtain ⟨piece, hp, rfl⟩ := List.mem_map.mp hm
    exact Line.cut_ofPiece (notMem_dropLast_of_mem_splitAfter hp) (List.ne_nil_of_mem_splitBy hp)
  · refine List.pairwise_map.mpr ((pairwise_splitAfter text).imp ?_)
    intro earlier _ he
    exact Line.ending_ofPiece_ne_none he

section Returns

/-- A text without a carriage return at its end, of which one is removed. -/
def withoutReturn (text : Text) : Text := (['\r'].isSuffixOf? text).getD text

@[simp] theorem withoutReturn_concat (text : Text) : withoutReturn (text ++ ['\r']) = text := by
  rw [withoutReturn, isSuffixOf?_append, Option.getD_some]

theorem withoutReturn_eq_self_iff {text : Text} :
    withoutReturn text = text ↔ text.getLast? ≠ some '\r' := by
  constructor
  · intro h hr
    obtain ⟨body, rfl⟩ := List.getLast?_eq_some_iff.mp hr
    rw [withoutReturn_concat] at h
    exact absurd (congrArg List.length h) (by simp)
  · intro h
    have hn : ['\r'].isSuffixOf? text = none := by
      rw [isSuffixOf?_eq_none_iff]
      rintro ⟨body, rfl⟩
      exact h List.getLast?_concat
    rw [withoutReturn, hn, Option.getD_none]

theorem withoutReturn_isPrefix (text : Text) : withoutReturn text <+: text := by
  by_cases h : text.getLast? = some '\r'
  · obtain ⟨body, rfl⟩ := List.getLast?_eq_some_iff.mp h
    rw [withoutReturn_concat]
    exact List.prefix_append body ['\r']
  · simp only [withoutReturn_eq_self_iff.mpr h, List.prefix_rfl]

/-- Removing two carriage returns leaves exactly the texts that end with none. -/
theorem withoutReturn_withoutReturn_eq_self_iff {text : Text} :
    withoutReturn (withoutReturn text) = text ↔ text.getLast? ≠ some '\r' := by
  constructor
  · intro h
    have hp := (withoutReturn_isPrefix text).length_le
    have hq := (withoutReturn_isPrefix (withoutReturn text)).length_le
    rw [h] at hq
    exact withoutReturn_eq_self_iff.mp ((withoutReturn_isPrefix text).eq_of_length_le hq)
  · intro h
    have hs := withoutReturn_eq_self_iff.mpr h
    rw [hs, hs]

/-- Only the last character of a text can be removed, so any other one in front may be set apart. -/
theorem withoutReturn_cons {c : Char} (h : c ≠ '\r') (text : Text) :
    withoutReturn (c :: text) = c :: withoutReturn text := by
  cases text using List.reverseRecOn with
  | nil => exact withoutReturn_eq_self_iff.mpr fun hr => h (Option.some.inj hr)
  | append_singleton body last =>
    by_cases hl : last = '\r'
    · rw [hl, withoutReturn_concat, ← List.cons_append, withoutReturn_concat]
    · have hlast {front : Text} : (front ++ [last]).getLast? ≠ some '\r' := by
        rw [List.getLast?_concat]
        exact fun hr => hl (Option.some.inj hr)
      rw [withoutReturn_eq_self_iff.mpr hlast, ← List.cons_append, withoutReturn_eq_self_iff.mpr hlast]

/-- A text in front of a line feed is a line without the carriage return at its end. -/
theorem Line.body_ofPiece_concat (text : Text) :
    (Line.ofPiece (text ++ ['\n'])).body = withoutReturn text := by
  by_cases h : text.getLast? = some '\r'
  · obtain ⟨body, rfl⟩ := List.getLast?_eq_some_iff.mp h
    rw [withoutReturn_concat, Line.ofPiece, List.append_assoc, List.singleton_append,
      cutEnding_crlf]
  · rw [withoutReturn_eq_self_iff.mpr h, Line.ofPiece, cutEnding_lf '\n' h]

/-- A text without line feeds is the first line of itself, a line feed and what follows. -/
theorem map_body_lines_append {text : Text} (h : '\n' ∉ text) (after : Text) :
    (lines (text ++ '\n' :: after)).map (·.body) =
      withoutReturn text :: (lines after).map (·.body) := by
  have hlast : ∀ c ∈ (text ++ ['\n']).getLast?, c = '\n' := by
    intro c hc
    rw [List.getLast?_concat] at hc
    exact (Option.some.inj hc).symm
  have hcut : (Line.ofPiece (text ++ ['\n'])).Cut := by
    refine Line.cut_ofPiece ?_ (by simp)
    rwa [List.dropLast_concat]
  have hone := hcut.lines_raw
  rw [Line.raw_ofPiece] at hone
  rw [List.append_cons, lines_append hlast, hone, List.map_append, List.map_singleton,
    Line.body_ofPiece_concat, List.singleton_append]

end Returns

end CommentSweep
