import CommentSweep.Proofs.ControlDocument.RoundTrip

/-!
# The grammar of control documents

The lines of a control document are a preamble and sections, each a header and the lines below it.
Any lines are taken apart in exactly one way.
-/

namespace CommentSweep

/-- The lines of a control document, each without a further carriage return at its end. -/
def documentLines (document : Text) : List Text :=
  (lines document).map fun line => withoutReturn line.body

/-- A header, of which the text behind the mark is given, and the lines below it. -/
@[ext]
structure Section where
  header : Text
  body : List Text
  deriving DecidableEq, Repr

namespace Section

/-- The lines that a section consists of. -/
def lines (part : Section) : List Text := ('#' :: part.header) :: part.body

/-- The entries of a section, less an empty line in front of a further header. -/
def entries (part : Section) (followed : Bool) : List Text :=
  if followed ∧ part.body.getLast? = some [] then part.body.dropLast else part.body

/-- The list of a section, unless its header names no file. -/
def list? (part : Section) (followed : Bool) : Option RemovalList :=
  if allBlank part.header then none else some ⟨trim part.header, part.entries followed⟩

end Section

/-- The lists of sections, in order. Each section but the last is followed by a header. -/
def sectionLists : List Section → List RemovalList
  | [] => []
  | part :: rest => (part.list? !rest.isEmpty).toList ++ sectionLists rest

/-- Lines taken apart into a preamble and sections. -/
structure IsSectioned (ls preamble : List Text) (parts : List Section) : Prop where
  lines_eq : ls = preamble ++ parts.flatMap Section.lines
  /-- The first line with a mark is a header. -/
  preamble_unmarked : ∀ line ∈ preamble, ¬ ['#'] <+: line
  /-- Every later line with a mark and a blank is a header. -/
  body_unmarked : ∀ part ∈ parts, ∀ line ∈ part.body, ¬ ['#', ' '] <+: line
  /-- No other line is a header. -/
  later_marked : ∀ part ∈ parts.tail, ['#', ' '] <+: '#' :: part.header

/-- The sections behind the first one stand alone. -/
theorem IsSectioned.tail {ls preamble : List Text} {part : Section} {rest : List Section}
    (h : IsSectioned ls preamble (part :: rest)) :
    IsSectioned (rest.flatMap Section.lines) [] rest where
  lines_eq := rfl
  preamble_unmarked := nofun
  body_unmarked := fun other ho => h.body_unmarked other (List.mem_cons_of_mem _ ho)
  later_marked := fun other ho => h.later_marked other (List.mem_of_mem_tail ho)

section Sectioning

/-- Behind a header any lines can be taken apart. -/
theorem exists_isSectioned_cons (header : Text) (ls : List Text) :
    ∃ body parts, IsSectioned (('#' :: header) :: ls) [] (⟨header, body⟩ :: parts) := by
  induction ls generalizing header with
  | nil => exact ⟨[], [], rfl, nofun, List.forall_mem_singleton.mpr nofun, nofun⟩
  | cons line rest ih =>
    by_cases hm : ['#', ' '] <+: line
    · obtain ⟨path, rfl⟩ := hm
      obtain ⟨body, parts, h⟩ := ih (' ' :: path)
      refine ⟨[], ⟨' ' :: path, body⟩ :: parts, congrArg _ h.lines_eq, nofun, ?_, ?_⟩
      · exact List.forall_mem_cons.mpr ⟨nofun, h.body_unmarked⟩
      · exact List.forall_mem_cons.mpr ⟨⟨path, rfl⟩, h.later_marked⟩
    · obtain ⟨body, parts, h⟩ := ih header
      obtain ⟨hbody, hparts⟩ := List.forall_mem_cons.mp h.body_unmarked
      refine ⟨line :: body, parts, ?_, nofun, ?_, h.later_marked⟩
      · exact congrArg (fun ls => ('#' :: header) :: line :: ls) (List.cons.inj h.lines_eq).2
      · exact List.forall_mem_cons.mpr ⟨List.forall_mem_cons.mpr ⟨hm, hbody⟩, hparts⟩

/-- Any lines can be taken apart into a preamble and sections. -/
theorem exists_isSectioned (ls : List Text) : ∃ preamble parts, IsSectioned ls preamble parts := by
  induction ls with
  | nil => exact ⟨[], [], rfl, nofun, nofun, nofun⟩
  | cons line rest ih =>
    by_cases hm : ['#'] <+: line
    · obtain ⟨header, rfl⟩ := hm
      obtain ⟨body, parts, h⟩ := exists_isSectioned_cons header rest
      exact ⟨[], ⟨header, body⟩ :: parts, h⟩
    · obtain ⟨preamble, parts, h⟩ := ih
      exact ⟨line :: preamble, parts, congrArg _ h.lines_eq,
        List.forall_mem_cons.mpr ⟨hm, h.preamble_unmarked⟩, h.body_unmarked, h.later_marked⟩

private theorem append_inj_of_marked {α : Type} {Marked : α → Prop} {before after before' after' :
    List α} (hb : ∀ x ∈ before, ¬ Marked x) (hb' : ∀ x ∈ before', ¬ Marked x)
    (ha : ∀ x ∈ after.head?, Marked x) (ha' : ∀ x ∈ after'.head?, Marked x)
    (h : before ++ after = before' ++ after') : before = before' ∧ after = after' := by
  induction before generalizing before' with
  | nil =>
    cases before' with
    | nil => exact ⟨rfl, h⟩
    | cons y ys =>
      obtain rfl : after = y :: (ys ++ after') := h
      exact absurd (ha y rfl) (hb' y List.mem_cons_self)
  | cons x xs ih =>
    cases before' with
    | nil =>
      obtain rfl : x :: (xs ++ after) = after' := h
      exact absurd (ha' x rfl) (hb x List.mem_cons_self)
    | cons y ys =>
      obtain ⟨rfl, hrest⟩ := List.cons.inj h
      obtain ⟨rfl, rfl⟩ := ih (fun z hz => hb z (List.mem_cons_of_mem _ hz))
        (fun z hz => hb' z (List.mem_cons_of_mem _ hz)) hrest
      exact ⟨rfl, rfl⟩

private theorem marked_of_mem_head?_lines {parts : List Section} {Marked : Text → Prop}
    (h : ∀ part ∈ parts, Marked ('#' :: part.header)) :
    ∀ line ∈ (parts.flatMap Section.lines).head?, Marked line := by
  cases parts with
  | nil => exact nofun
  | cons part rest =>
    intro line hl
    obtain rfl : '#' :: part.header = line := Option.some.inj hl
    exact h part List.mem_cons_self

/-- Lines without a preamble are taken apart into sections in one way only. -/
theorem IsSectioned.parts_unique {ls : List Text} {parts parts' : List Section}
    (h : IsSectioned ls [] parts) (h' : IsSectioned ls [] parts') : parts = parts' := by
  induction parts generalizing ls parts' with
  | nil =>
    cases parts' with
    | nil => rfl
    | cons part' rest' => exact absurd (h.lines_eq.symm.trans h'.lines_eq) nofun
  | cons part rest ih =>
    cases parts' with
    | nil => exact absurd (h.lines_eq.symm.trans h'.lines_eq) nofun
    | cons part' rest' =>
      obtain ⟨hheader, hbelow⟩ := List.cons.inj (h.lines_eq.symm.trans h'.lines_eq)
      have hpart := append_inj_of_marked (h.body_unmarked part List.mem_cons_self)
        (h'.body_unmarked part' List.mem_cons_self) (marked_of_mem_head?_lines h.later_marked)
        (marked_of_mem_head?_lines h'.later_marked) hbelow
      have hlines : rest.flatMap Section.lines = rest'.flatMap Section.lines := hpart.2
      have hrest : rest = rest' := ih (hlines ▸ h.tail) h'.tail
      rw [Section.ext (List.cons.inj hheader).2 hpart.1, hrest]

/-- Lines are taken apart into a preamble and sections in one way only. -/
theorem IsSectioned.unique {ls preamble preamble' : List Text} {parts parts' : List Section}
    (h : IsSectioned ls preamble parts) (h' : IsSectioned ls preamble' parts') :
    preamble = preamble' ∧ parts = parts' := by
  have hmark {parts : List Section} :
      ∀ line ∈ (parts.flatMap Section.lines).head?, ['#'] <+: line :=
    marked_of_mem_head?_lines fun part _ => ⟨part.header, rfl⟩
  obtain ⟨hpreamble, hparts⟩ := append_inj_of_marked h.preamble_unmarked h'.preamble_unmarked
    hmark hmark (h.lines_eq.symm.trans h'.lines_eq)
  have halone : IsSectioned (parts'.flatMap Section.lines) [] parts :=
    ⟨hparts.symm, nofun, h.body_unmarked, h.later_marked⟩
  exact ⟨hpreamble, halone.parts_unique ⟨rfl, nofun, h'.body_unmarked, h'.later_marked⟩⟩

end Sectioning

namespace OpenBlock

theorem foldl_extend_empty (path : Text) (ls : List Text) :
    ls.foldl extend (empty path) = ⟨path, ls.dropLast.toArray, ls.getLast?⟩ := by
  induction ls using List.reverseRecOn with
  | nil => rfl
  | append_singleton before line ih =>
    rw [List.foldl_append, ih, List.foldl_cons, List.foldl_nil, List.dropLast_concat,
      List.getLast?_concat, extend]
    cases hb : before.getLast? with
    | none =>
      obtain rfl := List.getLast?_eq_none_iff.mp hb
      rfl
    | some previous =>
      obtain ⟨earlier, rfl⟩ := List.getLast?_eq_some_iff.mp hb
      simp only [List.dropLast_concat, List.push_toArray]

/-- Before a header the lines of a block are entries, except for an empty last one. -/
theorem atHeader_foldl_extend_empty (path : Text) (ls : List Text) :
    (ls.foldl extend (empty path)).atHeader =
      ⟨path, if ls.getLast? = some [] then ls.dropLast else ls⟩ := by
  rw [foldl_extend_empty, atHeader]
  induction ls using List.reverseRecOn with
  | nil => rfl
  | append_singleton before line =>
    rw [List.getLast?_concat, List.dropLast_concat]
    cases line with
    | nil => simp
    | cons c rest => simp

end OpenBlock

namespace Phase

/-- Lines that are no headers belong to nothing below a header without a path. -/
theorem foldl_beyond_skipping (ls : List Text) : ls.foldl beyond .skipping = .skipping := by
  induction ls with
  | nil => rfl
  | cons line rest ih => exact ih

end Phase

namespace Section

/-- The phase behind the lines of a section. -/
def phase (part : Section) : Phase := part.body.foldl Phase.beyond (.below part.header)

theorem phase_of_blank {part : Section} (h : allBlank part.header = true) :
    part.phase = .skipping := by
  rw [phase, Phase.below, if_pos (List.isEmpty_iff.mpr (trim_eq_nil_iff.mpr h)),
    Phase.foldl_beyond_skipping]

theorem phase_of_not_blank {part : Section} (h : allBlank part.header = false) : part.phase =
    .inBlock (part.body.foldl OpenBlock.extend (.empty (trim part.header))) := by
  have hn : ¬ (trim part.header).isEmpty = true := by
    rw [List.isEmpty_iff, trim_eq_nil_iff, h]
    exact Bool.false_ne_true
  rw [phase, Phase.below, if_neg hn, Phase.foldl_beyond_inBlock]

/-- A section that ends with the document gives all its lines. -/
theorem filterMap_conclude_phase (part : Section) :
    part.phase.conclude.filterMap BlockEvent.list? = (part.list? false).toList := by
  cases h : allBlank part.header with
  | true =>
    rw [phase_of_blank h, list?, if_pos h]
    rfl
  | false =>
    rw [phase_of_not_blank h, list?, h, entries, Phase.conclude, OpenBlock.atEnd_foldl_extend]
    rfl

/-- A section that ends before a header gives all its lines, except for an empty last one. -/
theorem filterMap_headerEvents_phase (part : Section) (header : Text) :
    (part.phase.headerEvents header).filterMap BlockEvent.list? = (part.list? true).toList := by
  rw [Phase.filterMap_headerEvents]
  cases h : allBlank part.header with
  | true =>
    rw [phase_of_blank h, list?, if_pos h]
    rfl
  | false =>
    rw [phase_of_not_blank h, list?, h, entries]
    simp only [OpenBlock.atHeader_foldl_extend_empty, true_and, Bool.false_eq_true, ite_false,
      Option.toList_some]

/-- Only a mark and a blank make a header behind the first one. -/
theorem headerText?_phase (part : Section) : part.phase.headerText? = ['#', ' '].isPrefixOf? := by
  cases h : allBlank part.header with
  | true =>
    rw [phase_of_blank h]
    rfl
  | false =>
    rw [phase_of_not_blank h]
    rfl

/-- A header with a mark and a blank ends a section. The blank makes no difference to the path. -/
theorem step_phase (part : Section) {header raw : Text} (h : withoutReturn raw = '#' :: header)
    (hm : ['#', ' '] <+: '#' :: header) :
    part.phase.step raw = (.below header, part.phase.headerEvents header) := by
  obtain ⟨path, hp⟩ := hm
  obtain rfl : ' ' :: path = header := (List.cons.inj hp).2
  have ht : trim (' ' :: path) = trim path := trim_cons_of_blank (by decide) path
  have hh : part.phase.headerText? (withoutReturn raw) = some path := by
    rw [h, headerText?_phase]
    rfl
  simp only [Phase.step_of_header hh, Phase.below, Phase.headerEvents, ht]

/-- The lines of a section lead from its header to the phase behind it. -/
theorem advance_below {part : Section} {raws : List Text} (h : raws.map withoutReturn = part.body)
    (hbody : ∀ line ∈ part.body, ¬ ['#', ' '] <+: line) :
    (Phase.below part.header).advance raws = (part.phase, []) := by
  have hbelow : (Phase.below part.header).headerText? = ['#', ' '].isPrefixOf? :=
    headerText?_phase ⟨part.header, []⟩
  rw [Phase.advance_of_no_header, h, phase]
  rw [h, hbelow]
  exact fun line hl => isPrefixOf?_eq_none_iff.mpr (hbody line hl)

end Section

/-- Lines below a header give the list of its section and those of the sections behind it. -/
theorem filterMap_toEnd_below {part : Section} {rest : List Section} {raws : List Text}
    (h : IsSectioned (('#' :: part.header) :: raws.map withoutReturn) [] (part :: rest)) :
    ((Phase.below part.header).toEnd raws).filterMap BlockEvent.list? =
      sectionLists (part :: rest) := by
  induction rest generalizing part raws with
  | nil =>
    have hraws : raws.map withoutReturn = part.body := by
      simpa [Section.lines] using h.lines_eq
    rw [Phase.toEnd, Section.advance_below hraws (h.body_unmarked part List.mem_cons_self),
      List.nil_append, Section.filterMap_conclude_phase]
    exact (List.append_nil _).symm
  | cons next rest ih =>
    have hraws : raws.map withoutReturn = part.body ++ (next :: rest).flatMap Section.lines :=
      (List.cons.inj h.lines_eq).2
    obtain ⟨before, after, rfl, hbefore, hafter⟩ := List.map_eq_append_iff.mp hraws
    obtain ⟨raw, raws, rfl, hraw, hrest⟩ := List.map_eq_cons_iff.mp hafter
    have hnext : IsSectioned (('#' :: next.header) :: raws.map withoutReturn) [] (next :: rest) := by
      rw [hrest]
      exact h.tail
    rw [Phase.toEnd_append, Section.advance_below hbefore (h.body_unmarked part List.mem_cons_self),
      List.nil_append, Phase.toEnd_cons,
      part.step_phase hraw (h.later_marked next List.mem_cons_self), List.filterMap_append,
      Section.filterMap_headerEvents_phase, ih hnext]
    rfl

/-- Reading lines from the start of a document gives the lists of their sections. -/
theorem filterMap_toEnd_preamble {raws preamble : List Text} {parts : List Section}
    (h : IsSectioned (raws.map withoutReturn) preamble parts) :
    (Phase.preamble.toEnd raws).filterMap BlockEvent.list? = sectionLists parts := by
  obtain ⟨before, after, rfl, hbefore, hafter⟩ := List.map_eq_append_iff.mp h.lines_eq
  have hunmarked : ∀ line ∈ before.map withoutReturn, Phase.preamble.headerText? line = none := by
    rw [hbefore]
    exact fun line hl => isPrefixOf?_eq_none_iff.mpr (h.preamble_unmarked line hl)
  have hstay (ls : List Text) : ls.foldl Phase.beyond .preamble = .preamble := by
    induction ls with
    | nil => rfl
    | cons line rest ih => exact ih
  rw [Phase.toEnd_append, Phase.advance_of_no_header hunmarked, hstay, List.nil_append]
  cases parts with
  | nil =>
    obtain rfl := List.map_eq_nil_iff.mp hafter
    rfl
  | cons part rest =>
    obtain ⟨raw, raws, rfl, hraw, hrest⟩ := List.map_eq_cons_iff.mp hafter
    have hfirst : Phase.preamble.headerText? (withoutReturn raw) = some part.header := by
      rw [hraw]
      rfl
    have halone : IsSectioned (('#' :: part.header) :: raws.map withoutReturn) [] (part :: rest) := by
      rw [hrest]
      exact ⟨rfl, nofun, h.body_unmarked, h.later_marked⟩
    rw [Phase.toEnd_cons, Phase.step_of_header hfirst, List.filterMap_append,
      Phase.filterMap_headerEvents, List.nil_append, filterMap_toEnd_below halone]

/-- Any lines are taken apart into a preamble and sections in exactly one way, and the lists that
are read are those of the sections. -/
theorem existsUnique_isSectioned_parseDocument (document : Text) :
    ∃ preamble parts, IsSectioned (documentLines document) preamble parts ∧
      (∀ preamble' parts', IsSectioned (documentLines document) preamble' parts' →
        preamble' = preamble ∧ parts' = parts) ∧
      parseDocument document = sectionLists parts := by
  obtain ⟨preamble, parts, h⟩ := exists_isSectioned (documentLines document)
  refine ⟨preamble, parts, h, fun _ _ h' => h'.unique h, ?_⟩
  rw [parseDocument_eq]
  have hraws : IsSectioned (((lines document).map (·.body)).map withoutReturn) preamble parts := by
    rwa [List.map_map]
  exact filterMap_toEnd_preamble hraws

end CommentSweep
