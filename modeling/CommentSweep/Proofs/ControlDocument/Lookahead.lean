import CommentSweep.ControlDocument.Bytes
import CommentSweep.Proofs.ControlDocument.Reader

/-!
# Holding back one line

While a block is open, its entries and the held line are the lines fed since its header, so holding
a line back loses none.
-/

namespace CommentSweep

namespace Reader

/-- The latest header names this path, and these lines stand below it without carriage returns. -/
def LatestHeader (fed : List Text) (path : Text) (since : List Text) : Prop :=
  ∃ before raw header below, fed = before ++ raw :: below ∧
    headerText? (readLines before).seenHeader (withoutReturn raw) = some header ∧
      namedPath? header = some path ∧ since = below.map withoutReturn ∧
        ∀ line ∈ since, ¬ ['#', ' '] <+: line

theorem namedPath?_of_below {header : Text} {current : OpenBlock}
    (h : Phase.below header = .inBlock current) :
    namedPath? header = some current.path ∧ current.lines = [] := by
  rw [Phase.below] at h
  rw [namedPath?]
  split at h
  case isTrue => cases h
  case isFalse hn =>
    cases h
    exact ⟨if_neg hn, rfl⟩

theorem eq_extend_of_beyond {phase : Phase} {line : Text} {current : OpenBlock}
    (h : phase.beyond line = .inBlock current) :
    ∃ prior, phase = .inBlock prior ∧ current = prior.extend line := by
  cases phase with
  | preamble => cases h
  | skipping => cases h
  | inBlock prior =>
    cases h
    exact ⟨prior, rfl, rfl⟩

/-- The lines of the open block are those below the latest header. -/
theorem latestHeader_of_inBlock {fed : List Text} {current : OpenBlock}
    (h : (Phase.preamble.advance fed).1 = .inBlock current) :
    LatestHeader fed current.path current.lines := by
  induction fed using List.reverseRecOn generalizing current with
  | nil => cases h
  | append_singleton fed raw ih =>
    have hstep : ((Phase.preamble.advance fed).1.step raw).1 = .inBlock current := by
      rw [← h, Phase.advance_append]
      rfl
    cases hh : (Phase.preamble.advance fed).1.headerText? (withoutReturn raw) with
    | some header =>
      rw [Phase.step_of_header hh] at hstep
      obtain ⟨hpath, hlines⟩ := namedPath?_of_below hstep
      refine ⟨fed, raw, header, [], rfl, ?_, hpath, hlines, ?_⟩
      · rwa [readLines_eq, headerText?_of]
      · rw [hlines]
        exact nofun
    | none =>
      rw [Phase.step_of_no_header hh] at hstep
      obtain ⟨prior, hprior, rfl⟩ := eq_extend_of_beyond hstep
      obtain ⟨before, mark, header, below, rfl, hmark, hpath, hlines, hbelow⟩ := ih hprior
      rw [hprior] at hh
      have hline : ¬ ['#', ' '] <+: withoutReturn raw := isPrefixOf?_eq_none_iff.mp hh
      refine ⟨before, mark, header, below ++ [raw], ?_, hmark, ?_, ?_, ?_⟩
      · rw [List.append_assoc, List.cons_append]
      · rwa [OpenBlock.path_extend]
      · rw [OpenBlock.lines_extend, hlines, List.map_append, List.map_singleton]
      · rw [OpenBlock.lines_extend]
        exact List.forall_mem_append.mpr ⟨hbelow, List.forall_mem_singleton.mpr hline⟩

/-- The paths of the blocks that have been opened, the open one last. -/
def paths (reader : Reader) : List Text := (reader.blocks ++ reader.current.toList).map (·.path)

/-- The paths of the files that the headers among lines name, in order. -/
def namedPaths : Bool → List Text → List Text
  | _, [] => []
  | seenHeader, raw :: rest =>
    match headerText? seenHeader (withoutReturn raw) with
    | some header => (namedPath? header).toList ++ namedPaths true rest
    | none => namedPaths seenHeader rest

@[simp] theorem seenHeader_settle (reader : Reader) (entry : Text) :
    (reader.settle entry).seenHeader = reader.seenHeader := by
  rw [settle]
  split <;> rfl

@[simp] theorem seenHeader_replaceHeld (reader : Reader) (next : Option Text)
    (counts : Text → Bool) : (reader.replaceHeld next counts).seenHeader = reader.seenHeader := by
  rw [replaceHeld]
  split
  case h_1 previous _ =>
    split
    case isTrue => exact seenHeader_settle ..
    case isFalse => rfl
  case h_2 => rfl

@[simp] theorem seenHeader_close (reader : Reader) :
    reader.close.seenHeader = reader.seenHeader := by
  rw [close]
  split <;> rfl

@[simp] theorem seenHeader_openBlock (reader : Reader) (header : Text) :
    (reader.openBlock header).seenHeader = reader.seenHeader := by
  rw [openBlock]
  split <;> rfl

@[simp] theorem paths_settle (reader : Reader) (entry : Text) :
    (reader.settle entry).paths = reader.paths := by
  rw [settle]
  split
  case h_1 block hb => simp [paths, hb]
  case h_2 => rfl

@[simp] theorem paths_replaceHeld (reader : Reader) (next : Option Text) (counts : Text → Bool) :
    (reader.replaceHeld next counts).paths = reader.paths := by
  rw [replaceHeld]
  split
  case h_1 previous _ =>
    split
    case isTrue => exact paths_settle ..
    case isFalse => rfl
  case h_2 => rfl

@[simp] theorem current_close (reader : Reader) : reader.close.current = none := by
  rw [close]
  split
  case h_1 => rfl
  case h_2 hn => exact hn

@[simp] theorem paths_close (reader : Reader) : reader.close.paths = reader.paths := by
  rw [close]
  split
  case h_1 block hb => simp [paths, hb]
  case h_2 => rfl

theorem paths_openBlock {reader : Reader} (h : reader.current = none) (header : Text) :
    (reader.openBlock header).paths = reader.paths ++ (namedPath? header).toList := by
  rw [openBlock]
  split
  case h_1 path hp => simp [paths, h, hp]
  case h_2 hp => simp [paths, hp]

theorem feed_of_header {reader : Reader} {raw header : Text}
    (h : headerText? reader.seenHeader (withoutReturn raw) = some header) :
    (reader.feed raw).seenHeader = true ∧
      (reader.feed raw).paths = reader.paths ++ (namedPath? header).toList := by
  simp only [feed, h]
  constructor
  · simp only [seenHeader_openBlock, seenHeader_close, seenHeader_replaceHeld]
  · rw [paths_openBlock (current_close _), paths_close, paths_replaceHeld]
    rfl

theorem feed_of_no_header {reader : Reader} {raw : Text}
    (h : headerText? reader.seenHeader (withoutReturn raw) = none) :
    (reader.feed raw).seenHeader = reader.seenHeader ∧ (reader.feed raw).paths = reader.paths := by
  simp only [feed, h]
  split
  case isTrue => exact ⟨seenHeader_replaceHeld .., paths_replaceHeld ..⟩
  case isFalse => exact ⟨rfl, rfl⟩

/-- A header has been seen as soon as a line starts with the mark. -/
theorem seenHeader_feed_iff {reader : Reader} {raw : Text} :
    (reader.feed raw).seenHeader = true ↔
      reader.seenHeader = true ∨ ['#'] <+: withoutReturn raw := by
  cases hh : headerText? reader.seenHeader (withoutReturn raw) with
  | some header =>
    refine iff_of_true (feed_of_header hh).1 ?_
    by_cases hs : reader.seenHeader = true
    · exact .inl hs
    · rw [headerText?, if_neg hs] at hh
      exact .inr ⟨header, (eq_append_of_isPrefixOf? hh).symm⟩
  | none =>
    rw [(feed_of_no_header hh).1]
    by_cases hs : reader.seenHeader = true
    · exact iff_of_true hs (.inl hs)
    · rw [headerText?, if_neg hs] at hh
      exact iff_of_false hs (not_or.mpr ⟨hs, isPrefixOf?_eq_none_iff.mp hh⟩)

/-- Over any lines a header has been seen as soon as one of them starts with the mark. -/
theorem seenHeader_foldl_feed_iff {reader : Reader} {fed : List Text} :
    (fed.foldl feed reader).seenHeader = true ↔
      reader.seenHeader = true ∨ ∃ raw ∈ fed, ['#'] <+: withoutReturn raw := by
  induction fed generalizing reader with
  | nil => simp only [List.foldl_nil, List.not_mem_nil, false_and, exists_false, or_false]
  | cons raw rest ih =>
    rw [List.foldl_cons, ih, seenHeader_feed_iff, List.exists_mem_cons_iff, or_assoc]

/-- Over any lines one block is opened for each header that names a file. -/
theorem paths_foldl_feed (reader : Reader) (fed : List Text) :
    (fed.foldl feed reader).paths = reader.paths ++ namedPaths reader.seenHeader fed := by
  induction fed generalizing reader with
  | nil => exact (List.append_nil _).symm
  | cons raw rest ih =>
    rw [List.foldl_cons, ih, namedPaths]
    cases hh : headerText? reader.seenHeader (withoutReturn raw) with
    | some header =>
      obtain ⟨hseen, hpaths⟩ := feed_of_header hh
      rw [hseen, hpaths, List.append_assoc]
    | none =>
      obtain ⟨hseen, hpaths⟩ := feed_of_no_header hh
      rw [hseen, hpaths]

/-- Every block that has been opened is closed once behind the last line. -/
theorem map_path_blocks_finish (fed : List Text) :
    (readLines fed).finish.blocks.map (·.path) = namedPaths false fed := by
  have hpaths : (readLines fed).finish.paths = namedPaths false fed := by
    rw [finish, paths_close, paths_replaceHeld, readLines, paths_foldl_feed]
    rfl
  have hnone : (readLines fed).finish.current = none := current_close _
  rwa [paths, hnone, Option.toList_none, List.append_nil] at hpaths

/-- The invariant of the parser: what holds between any two lines, after these have been fed. -/
structure Invariant (reader : Reader) (fed : List Text) : Prop where
  isSome_current_of_held : reader.held.isSome → reader.current.isSome
  seenHeader_of_current : reader.current.isSome → reader.seenHeader = true
  seenHeader_iff : reader.seenHeader = true ↔ ∃ raw ∈ fed, ['#'] <+: withoutReturn raw
  /-- Below its header every line is settled or held. -/
  latestHeader : ∀ block ∈ reader.current,
    LatestHeader fed block.path (block.entries ++ reader.held.toList)
  lost_eq : reader.lost = []
  debugRecords_eq : debugRecords reader.notices = reader.blocks.map RemovalList.record
  /-- A block that has been opened is either closed or open. -/
  paths_eq : reader.paths = namedPaths false fed

/-- The end condition of the parser: what holds when it has finished behind these lines. -/
structure EndCondition (reader : Reader) (fed : List Text) : Prop where
  blocks_eq : reader.blocks = (blockEvents fed).filterMap BlockEvent.list?
  notices_eq : reader.notices = (blockEvents fed).map BlockEvent.notice
  lost_eq : reader.lost = []
  debugRecords_eq : debugRecords reader.notices = reader.blocks.map RemovalList.record
  /-- A block that has been opened is closed. -/
  map_path_eq : reader.blocks.map (·.path) = namedPaths false fed

/-- The invariant holds after any lines. -/
theorem invariant_readLines (fed : List Text) : (readLines fed).Invariant fed := by
  have hseen : (readLines fed).seenHeader = true ↔ ∃ raw ∈ fed, ['#'] <+: withoutReturn raw := by
    rw [readLines, seenHeader_foldl_feed_iff]
    exact or_iff_right nofun
  have hpaths : (readLines fed).paths = namedPaths false fed := paths_foldl_feed start fed
  -- Before the phase is generalized, as the latest header depends on how the lines led to it.
  have hlatest := @latestHeader_of_inBlock fed
  rw [readLines_eq] at hseen hpaths ⊢
  generalize (Phase.preamble.advance fed).1 = phase at hseen hpaths hlatest ⊢
  have hrecords := debugRecords_map_notice (Phase.preamble.advance fed).2
  cases phase with
  | preamble => exact ⟨nofun, nofun, hseen, nofun, rfl, hrecords, hpaths⟩
  | skipping => exact ⟨nofun, nofun, hseen, nofun, rfl, hrecords, hpaths⟩
  | inBlock current =>
    refine ⟨fun _ => rfl, fun _ => rfl, hseen, fun block hb => ?_, rfl, hrecords, hpaths⟩
    obtain rfl := Option.mem_some.mp hb
    exact hlatest rfl

/-- An empty line is held until a header shows that it separates blocks. -/
example : (readLines [['#', 'a'], ['x'], []]).held = some [] ∧
    readLines [['#', 'a'], ['x'], [], ['#', ' ']] =
      ⟨[⟨['a'], [['x']]⟩], none, none, true, [.blockRead 1 ['a'], .blockSkipped], []⟩ := by
  decide

/-- The end condition holds behind any last line. -/
theorem endCondition_finish_readLines (fed : List Text) : (readLines fed).finish.EndCondition fed := by
  have hfinish : ∃ phase, (readLines fed).finish = of phase (blockEvents fed) := by
    rw [readLines_eq, finish_of]
    exact ⟨_, rfl⟩
  have hpaths := map_path_blocks_finish fed
  obtain ⟨phase, hphase⟩ := hfinish
  rw [hphase] at hpaths ⊢
  exact ⟨rfl, rfl, rfl, debugRecords_map_notice _, hpaths⟩

theorem map_record_parseDocumentBytes (bytes : Bytes) :
    (parseDocumentBytes bytes).result.map (·.map RemovalList.record) =
      (parseDocumentBytes bytes).result.map fun _ =>
        debugRecords ((parseDocumentBytes bytes).events.map BlockEvent.notice) := by
  rw [parseDocumentBytes]
  split
  case h_1 => rfl
  case h_2 => exact congrArg Except.ok (debugRecords_map_notice _).symm

/-- Whatever it is fed, the parser keeps its invariant and meets its end condition. Closed blocks
stay as they are, and the records of a document are those of its lists. -/
theorem lines_settled_or_held (fed more : List Text) (document : Text) (bytes : Bytes) :
    (readLines fed).Invariant fed ∧ (readLines fed).finish.EndCondition fed ∧
      (readLines fed).blocks <+: (readLines (fed ++ more)).finish.blocks ∧
        debugRecords ((documentEvents document).map BlockEvent.notice) =
          (parseDocument document).map RemovalList.record ∧
            (parseDocumentBytes bytes).result.map (·.map RemovalList.record) =
              (parseDocumentBytes bytes).result.map fun _ =>
                debugRecords ((parseDocumentBytes bytes).events.map BlockEvent.notice) :=
  ⟨invariant_readLines fed, endCondition_finish_readLines fed, blocks_isPrefix fed more,
    debugRecords_map_notice _, map_record_parseDocumentBytes bytes⟩

end Reader

end CommentSweep
