import CommentSweep.Proofs.Comment.Character
import CommentSweep.Proofs.Sweep.Rewriting

/-!
# One pass over a whole text

An automaton that reads a text once, without cutting or trimming, leaves code in exactly the lines
that are captured, because no marker reaches over a line feed.
-/

namespace CommentSweep

/-- What the automaton is reading. -/
inductive Mode where
  | code
  | lineComment
  | blockComment
  deriving DecidableEq, Repr

/-- A character that the automaton has passed, with its modes before and behind it. -/
structure Passage where
  char : Char
  before : Mode
  after : Mode
  deriving DecidableEq, Repr

/-- The pass over a text from a mode on. The characters of a marker are passed together. -/
def pass : Mode → Text → List Passage
  | _, [] => []
  | .code, '/' :: '/' :: rest =>
    ⟨'/', .code, .code⟩ :: ⟨'/', .code, .lineComment⟩ :: pass .lineComment rest
  | .code, '/' :: '*' :: rest =>
    ⟨'/', .code, .code⟩ :: ⟨'*', .code, .blockComment⟩ :: pass .blockComment rest
  | .blockComment, '*' :: '/' :: rest =>
    ⟨'*', .blockComment, .blockComment⟩ :: ⟨'/', .blockComment, .code⟩ :: pass .code rest
  | .lineComment, '\n' :: rest => ⟨'\n', .lineComment, .code⟩ :: pass .code rest
  | mode, c :: rest => ⟨c, mode, mode⟩ :: pass mode rest

/-- The automaton leaves code where it has recognised an opener. -/
def Passage.opens (passage : Passage) : Bool := passage.before == .code && passage.after != .code

/-- The mode behind a row of passages that began in the given mode. -/
def modeBehind (start : Mode) (passages : List Passage) : Mode :=
  (passages.getLast?.map Passage.after).getD start

/-- The pass over a whole text, cut after every line feed. -/
def passedLines (content : Text) : List (List Passage) :=
  (pass .code content).splitBy fun passage _ => passage.char != '\n'

/-- Whether the automaton begins a line inside a block comment or recognises an opener in it. -/
def meetsComment (line : List Passage) : Bool :=
  line.head?.any (fun first => first.before == .blockComment) || line.any Passage.opens

/-- The region behind lines of which the first began in the given region. -/
def regionBehind (start : Region) (surveyed : List Survey) : Region :=
  (surveyed.getLast?.map Survey.after).getD start

section Modes

/-- The mode in which a line begins. -/
def Region.mode : Region → Mode
  | .code => .code
  | .block => .blockComment

/-- The region in which a line begins when the line before it is left in a mode. -/
def Mode.region : Mode → Region
  | .code => .code
  | .lineComment => .code
  | .blockComment => .block

@[simp] theorem Region.region_mode (region : Region) : region.mode.region = region := by
  cases region <;> rfl

theorem Mode.mode_region {mode : Mode} (h : mode ≠ .lineComment) : mode.region.mode = mode := by
  cases mode with
  | lineComment => exact absurd rfl h
  | code => rfl
  | blockComment => rfl

theorem Mode.region_eq_block_iff {mode : Mode} : mode.region = .block ↔ mode = .blockComment := by
  cases mode <;> decide

@[simp] theorem modeBehind_nil (start : Mode) : modeBehind start [] = start := rfl

@[simp] theorem modeBehind_cons (start : Mode) (first : Passage) (rest : List Passage) :
    modeBehind start (first :: rest) = modeBehind first.after rest := by
  rw [modeBehind, modeBehind, List.getLast?_cons]
  cases rest.getLast? <;> rfl

theorem modeBehind_append (start : Mode) (earlier later : List Passage) :
    modeBehind start (earlier ++ later) = modeBehind (modeBehind start earlier) later := by
  induction earlier generalizing start with
  | nil => rfl
  | cons first rest ih => rw [List.cons_append, modeBehind_cons, modeBehind_cons, ih]

theorem regionBehind_cons (start : Region) (first : Survey) (rest : List Survey) :
    regionBehind start (first :: rest) = regionBehind first.after rest := by
  rw [regionBehind, regionBehind, List.getLast?_cons]
  cases rest.getLast? <;> rfl

end Modes

section Characters

/-- Every character is passed once and in order. -/
@[simp] theorem map_char_pass (start : Mode) (text : Text) :
    (pass start text).map Passage.char = text := by
  fun_induction pass start text <;> simp_all

theorem head?_pass {text : Text} (h : text ≠ []) (start : Mode) :
    (pass start text).head?.map Passage.before = some start := by
  fun_cases pass start text with
  | case1 => exact absurd rfl h
  | _ => rfl

theorem getLast?_pass (start : Mode) (text : Text) :
    (pass start text).getLast?.map Passage.char = text.getLast? := by
  rw [← List.getLast?_map, map_char_pass]

/-- A line feed leaves no line comment open. -/
theorem after_ne_lineComment {start : Mode} {text : Text} {passage : Passage}
    (h : passage ∈ pass start text) (hc : passage.char = '\n') :
    passage.after ≠ .lineComment := by
  fun_induction pass start text with
  | case1 => exact absurd h List.not_mem_nil
  | case2 rest ih | case3 rest ih | case4 rest ih =>
    rcases List.mem_cons.mp h with rfl | h
    · exact absurd hc (by decide)
    · rcases List.mem_cons.mp h with rfl | h
      · exact absurd hc (by decide)
      · exact ih h
  | case5 rest ih =>
    rcases List.mem_cons.mp h with rfl | h
    · exact nofun
    · exact ih h
  | case6 mode c rest _ _ _ hfeed ih =>
    rcases List.mem_cons.mp h with rfl | h
    · exact fun hm => hfeed hm hc
    · exact ih h

theorem modeBehind_ne_lineComment {text : Text} (h : text.getLast? = some '\n') (start : Mode) :
    modeBehind start (pass start text) ≠ .lineComment := by
  obtain ⟨last, hlast, hc⟩ := Option.map_eq_some_iff.mp ((getLast?_pass start text).trans h)
  rw [modeBehind, hlast]
  exact after_ne_lineComment (List.mem_of_getLast? hlast) hc

/-- Behind a line feed the pass starts anew, because no marker reaches over it. -/
theorem pass_append {before : Text} (h : ∀ c ∈ before.getLast?, c = '\n') (start : Mode)
    (after : Text) : pass start (before ++ after) =
      pass start before ++ pass (modeBehind start (pass start before)) after := by
  have hrest {c : Char} {rest : Text} (hc : ∀ x ∈ (c :: rest).getLast?, x = '\n') :
      ∀ x ∈ rest.getLast?, x = '\n' := by
    intro x hx
    refine hc x ?_
    rw [List.getLast?_cons, hx]
    rfl
  fun_induction pass start before with
  | case1 => rfl
  | case2 rest ih | case3 rest ih | case4 rest ih =>
    simp only [List.cons_append, pass, modeBehind_cons, ih (hrest (hrest h))]
  | case5 rest ih => simp only [List.cons_append, pass, modeBehind_cons, ih (hrest h)]
  | case6 mode c rest hline hblock hclose hfeed ih =>
    rw [List.cons_append, modeBehind_cons, List.cons_append, ← ih (hrest h)]
    have hsecond {x : Char} {later : Text} (hx : rest ++ after = x :: later) (hc : c ≠ '\n') :
        ∃ more, rest = x :: more := by
      cases rest with
      | nil => exact absurd (h c rfl) hc
      | cons d rest => exact ⟨rest, by rw [(List.cons.inj hx).1]⟩
    rw [pass]
    · rintro later rfl rfl hx
      obtain ⟨more, hm⟩ := hsecond hx (by decide)
      exact hline more rfl rfl hm
    · rintro later rfl rfl hx
      obtain ⟨more, hm⟩ := hsecond hx (by decide)
      exact hblock more rfl rfl hm
    · rintro later rfl rfl hx
      obtain ⟨more, hm⟩ := hsecond hx (by decide)
      exact hclose more rfl rfl hm
    · exact hfeed

theorem pass_code_cons {c : Char} {rest : Text} (hl : ¬ lineOpener <+: c :: rest)
    (hb : ¬ blockOpener <+: c :: rest) :
    pass .code (c :: rest) = ⟨c, .code, .code⟩ :: pass .code rest := by
  rw [pass]
  · rintro later - rfl rfl
    exact hl (List.prefix_append ['/', '/'] later)
  · rintro later - rfl rfl
    exact hb (List.prefix_append ['/', '*'] later)
  · exact nofun
  · exact nofun

theorem pass_block_cons {c : Char} {rest : Text} (hc : ¬ blockCloser <+: c :: rest) :
    pass .blockComment (c :: rest) =
      ⟨c, .blockComment, .blockComment⟩ :: pass .blockComment rest := by
  rw [pass]
  · exact nofun
  · exact nofun
  · rintro later - rfl rfl
    exact hc (List.prefix_append ['*', '/'] later)
  · exact nofun

theorem feed_notMem_dropLast_of_append (first : Text) {rest : Text}
    (h : '\n' ∉ (first ++ rest).dropLast) : '\n' ∉ rest.dropLast := by
  cases rest with
  | nil => exact List.not_mem_nil
  | cons c rest =>
    rw [List.dropLast_append_of_ne_nil (List.cons_ne_nil c rest)] at h
    exact fun hm => h (List.mem_append_right first hm)

/-- A line comment is passed up to the end of its line, and code follows. -/
theorem region_modeBehind_lineComment {rest : Text} (h : '\n' ∉ rest.dropLast) :
    (modeBehind .lineComment (pass .lineComment rest)).region = .code := by
  induction rest with
  | nil => rfl
  | cons c rest ih =>
    have ih := ih (feed_notMem_dropLast_of_append [c] h)
    by_cases hc : c = '\n'
    · cases rest with
      | nil =>
        subst hc
        rfl
      | cons d rest => exact absurd (hc ▸ List.mem_cons_self) h
    · rw [pass, modeBehind_cons, ih] <;> simp [hc]

/-- Within a line the automaton and the survey agree. -/
theorem survey_eq_pass {text : Text} (h : '\n' ∉ text.dropLast) (start : Region) :
    (survey start text).commented =
        (start == .block || (pass start.mode text).any Passage.opens) ∧
      (survey start text).after = (modeBehind start.mode (pass start.mode text)).region := by
  induction start, text using Region.text_induction with
  | nil start =>
    cases start with
    | code =>
      rw [survey_code_nil]
      exact ⟨rfl, rfl⟩
    | block =>
      rw [survey_block_nil]
      exact ⟨rfl, rfl⟩
  | line rest =>
    rw [survey_lineOpener, Region.mode, pass, modeBehind_cons, modeBehind_cons]
    rw [region_modeBehind_lineComment (feed_notMem_dropLast_of_append ['/', '/'] h)]
    exact ⟨rfl, rfl⟩
  | opened rest ih =>
    rw [survey_blockOpener, Region.mode, pass, modeBehind_cons, modeBehind_cons]
    exact ⟨rfl, (ih (feed_notMem_dropLast_of_append ['/', '*'] h)).2⟩
  | closed rest ih =>
    rw [survey_blockCloser, Region.mode, pass, modeBehind_cons, modeBehind_cons]
    exact ⟨rfl, (ih (feed_notMem_dropLast_of_append ['*', '/'] h)).2⟩
  | code c rest hl hb ih =>
    rw [survey_code_cons hl hb, Region.mode, pass_code_cons hl hb, modeBehind_cons]
    exact ih (feed_notMem_dropLast_of_append [c] h)
  | comment c rest hc ih =>
    rw [survey_block_cons hc, Region.mode, pass_block_cons hc, modeBehind_cons]
    exact ⟨rfl, (ih (feed_notMem_dropLast_of_append [c] h)).2⟩

end Characters

section Lines

/-- Trimming a line before its survey hides no comment from it. -/
theorem survey_trimEnd_eq_pass {line : Line} (h : line.Cut) (start : Region) :
    (survey start (trimEnd line.body)).commented = meetsComment (pass start.mode line.raw) ∧
      (survey start (trimEnd line.body)).after =
        (modeBehind start.mode (pass start.mode line.raw)).region := by
  obtain ⟨tail, hraw, hblank⟩ := exists_blank_append line.raw
  obtain ⟨hc, ha⟩ := survey_append_of_blank start (trimEnd line.raw) hblank
  rw [← hraw] at hc ha
  obtain ⟨hcommented, hafter⟩ := survey_eq_pass h.feed_notMem_dropLast start
  obtain ⟨first, hfirst, hbefore⟩ := Option.map_eq_some_iff.mp (head?_pass h.raw_ne_nil start.mode)
  have hstart : (start == .block) =
      (pass start.mode line.raw).head?.any fun first => first.before == .blockComment := by
    rw [hfirst, Option.any_some, hbefore]
    cases start <;> rfl
  rw [← trimEnd_raw line, ← hc, ← ha, meetsComment, ← hstart]
  exact ⟨hcommented, hafter⟩

/-- The passes over lines of which the first begins in the given region. -/
def passedFrom : Region → List Line → List (List Passage)
  | _, [] => []
  | start, line :: rest =>
    let first := pass start.mode line.raw
    first :: passedFrom (modeBehind start.mode first).region rest

theorem map_char_passedFrom (start : Region) (ls : List Line) :
    (passedFrom start ls).map (fun line => line.map Passage.char) = ls.map Line.raw := by
  induction ls generalizing start with
  | nil => rfl
  | cons line rest ih => rw [passedFrom, List.map_cons, List.map_cons, ih, map_char_pass]

theorem splitBy_pass_raw {line : Line} (h : line.Cut) (start : Mode) :
    ((pass start line.raw).splitBy fun passage _ => passage.char != '\n') =
      [pass start line.raw] := by
  have hchars := map_char_pass start line.raw
  apply List.splitBy_of_isChain
  · intro hn
    rw [hn] at hchars
    exact h.raw_ne_nil hchars.symm
  · apply (List.isChain_map Passage.char (R := fun x _ => (x != '\n') = true)).mp
    rw [hchars]
    exact isChain_bne_iff.mpr h.feed_notMem_dropLast

/-- Cutting the pass over a text after its line feeds gives the passes over its lines. -/
theorem splitBy_pass {ls : List Line} (h : AreLines ls) (start : Region) :
    ((pass start.mode (ls.flatMap Line.raw)).splitBy fun passage _ => passage.char != '\n') =
      passedFrom start ls := by
  induction ls generalizing start with
  | nil => rfl
  | cons line rest ih =>
    obtain ⟨hcut, hcuts⟩ := List.forall_mem_cons.mp h.cut
    obtain ⟨hends, hpairs⟩ := List.pairwise_cons.mp h.ended
    cases rest with
    | nil =>
      rw [List.flatMap_singleton, splitBy_pass_raw hcut]
      rfl
    | cons next rest =>
      have hfeed : line.raw.getLast? = some '\n' :=
        Line.getLast?_raw (hends next List.mem_cons_self)
      have hlast : ∀ c ∈ line.raw.getLast?, c = '\n' :=
        fun _ hc => (Option.some.inj (hfeed.symm.trans hc)).symm
      have hmode := Mode.mode_region (modeBehind_ne_lineComment hfeed start.mode)
      rw [List.flatMap_cons, pass_append hlast, List.splitBy_append, splitBy_pass_raw hcut,
        passedFrom, ← hmode, ih ⟨hcuts, hpairs⟩, List.singleton_append, Region.region_mode]
      intro last hl _ _
      have hchar := (getLast?_pass start.mode line.raw).trans hfeed
      rw [hl] at hchar
      rw [Option.some.inj hchar, bne_self_eq_false]

/-- The lines that meet a comment in their passes are those whose surveys find one. -/
theorem map_text_surveyedFrom {ls : List Line} (h : ∀ line ∈ ls, line.Cut) (start : Region) :
    ((surveyedFrom start ls).filter (·.survey.commented)).map SurveyedLine.text =
      ((passedFrom start ls).filter meetsComment).map
        fun line => trimEnd (line.map Passage.char) := by
  induction ls generalizing start with
  | nil => rfl
  | cons line rest ih =>
    obtain ⟨hcut, hcuts⟩ := List.forall_mem_cons.mp h
    obtain ⟨hcommented, hafter⟩ := survey_trimEnd_eq_pass hcut start
    have ih := ih hcuts (survey start (trimEnd line.body)).after
    rw [surveyedFrom_cons, passedFrom, List.filter_cons, List.filter_cons]
    rw [hafter] at ih ⊢
    rw [hcommented]
    split
    · rw [List.map_cons, List.map_cons, ih, map_char_pass, trimEnd_raw]
      rfl
    · exact ih

/-- Which region is reached depends on the mode at the start only by its region. -/
theorem region_modeBehind_congr {start other : Mode} (h : start.region = other.region)
    (passages : List Passage) :
    (modeBehind start passages).region = (modeBehind other passages).region := by
  cases passages with
  | nil => exact h
  | cons first rest => rw [modeBehind_cons, modeBehind_cons]

/-- Behind any number of lines the automaton stands in the region that their surveys end in. -/
theorem regionBehind_eq_modeBehind {ls : List Line} (h : ∀ line ∈ ls, line.Cut) (start : Region)
    (n : Nat) :
    regionBehind start (surveys start ((ls.take n).map fun line => trimEnd line.body)) =
      (modeBehind start.mode ((passedFrom start ls).take n).flatten).region := by
  induction ls generalizing start n with
  | nil =>
    rw [List.take_nil, passedFrom, List.take_nil]
    exact (Region.region_mode start).symm
  | cons line rest ih =>
    cases n with
    | zero => exact (Region.region_mode start).symm
    | succ n =>
      obtain ⟨hcut, hcuts⟩ := List.forall_mem_cons.mp h
      have hafter := (survey_trimEnd_eq_pass hcut start).2
      rw [List.take_succ_cons, List.map_cons, surveys, regionBehind_cons, ih hcuts, passedFrom,
        List.take_succ_cons, List.flatten_cons, modeBehind_append, hafter]
      exact region_modeBehind_congr (Region.region_mode _) _

/-- Behind any number of lines the region is a block comment exactly if the automaton is in one, and
the captured lines are those that it begins in one or recognises an opener in. -/
theorem capturedLines_eq_passedLines (content : Text) :
    (passedLines content).map (fun line => line.map Passage.char) =
      (lines content).map Line.raw ∧
    (∀ n, regionBehind .code
        (surveys .code (((lines content).take n).map fun line => trimEnd line.body)) = .block ↔
      modeBehind .code ((passedLines content).take n).flatten = .blockComment) ∧
    capturedLines content = ((passedLines content).filter meetsComment).map
      fun line => trimEnd (line.map Passage.char) := by
  have hlines := areLines_lines content
  have hpassed : passedLines content = passedFrom .code (lines content) := by
    rw [← splitBy_pass hlines, flatMap_raw_lines]
    rfl
  refine ⟨?_, fun n => ?_, ?_⟩
  · rw [hpassed, map_char_passedFrom]
  · rw [regionBehind_eq_modeBehind hlines.cut, ← hpassed, Mode.region_eq_block_iff]
    rfl
  · rw [hpassed, ← map_text_surveyedFrom hlines.cut]
    rfl

end Lines

end CommentSweep
