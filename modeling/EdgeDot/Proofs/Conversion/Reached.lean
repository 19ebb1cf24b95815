import EdgeDot.Proofs.Conversion.Interruption
import EdgeDot.Proofs.Conversion.Log
import EdgeDot.Proofs.Line.Texts

/-!
# What becomes of a line

Each line that a conversion reaches behind the count is skipped, or is a statement of the output, or
is the fault that the conversion reports.  Skipped are the lines that hold nothing but carriage
returns in front of their one line end.

* `withoutLineEnd`               a line without the one line end that it may have
* `all_isLineEnd_iff`            the lines that are taken for empty
* `EdgeLine.reached_cases`       a line is passed, or the walk stops at it
* `convert_reaches_line`         what becomes of a line that is reached
* `convert_skips_return`         a line that is skipped although something is left of it
-/

namespace EdgeDot

open Dot Conversion

/-! ## line ends -/

/-- a line without the line feed, or the carriage return and line feed, at its end -/
def withoutLineEnd (line : Text) : Text :=
  if ['\r', '\n'] <:+ line then line.dropLast.dropLast
  else if ['\n'] <:+ line then line.dropLast
  else line

section
variable {line : Text}

/-- a line that has a line feed at most at its end has none before its line end -/
theorem lineFeed_not_mem_withoutLineEnd (h : '\n' ∉ line.dropLast) :
    '\n' ∉ withoutLineEnd line := by
  rw [withoutLineEnd]
  split
  next => exact fun hmem => h (List.dropLast_subset _ hmem)
  next =>
    split
    next => exact h
    next hend =>
      intro hmem
      rcases List.eq_nil_or_concat line with rfl | ⟨front, c, rfl⟩
      · cases hmem
      · rw [List.concat_eq_append] at h hend hmem
        rw [List.dropLast_concat] at h
        rcases List.mem_append.1 hmem with hfront | hlast
        · exact h hfront
        · obtain rfl := List.mem_singleton.1 hlast
          exact hend (List.suffix_append _ _)

theorem exists_lineEnd (line : Text) :
    ∃ lineEnd, (∀ c ∈ lineEnd, isLineEnd c = true) ∧ line = withoutLineEnd line ++ lineEnd := by
  rw [withoutLineEnd]
  split
  next hend =>
    obtain ⟨front, rfl⟩ := hend
    refine ⟨['\r', '\n'], List.forall_mem_cons.2 ⟨rfl, List.forall_mem_singleton.2 rfl⟩, ?_⟩
    rw [List.append_cons, List.dropLast_concat, List.dropLast_concat, ← List.append_cons]
  next =>
    split
    next hend =>
      obtain ⟨front, rfl⟩ := hend
      exact ⟨['\n'], List.forall_mem_singleton.2 rfl, by rw [List.dropLast_concat]⟩
    next => exact ⟨[], nofun, (List.append_nil line).symm⟩

/-- a line is taken for empty if nothing but carriage returns is left of it without its line end -/
theorem all_isLineEnd_iff (h : '\n' ∉ line.dropLast) :
    line.all isLineEnd = true ↔ ∀ c ∈ withoutLineEnd line, c = '\r' := by
  have hfeed := lineFeed_not_mem_withoutLineEnd h
  obtain ⟨lineEnd, hends, hline⟩ := exists_lineEnd line
  have hall : lineEnd.all isLineEnd = true := List.all_eq_true.2 hends
  have hsplit : line.all isLineEnd = (withoutLineEnd line).all isLineEnd := by
    conv_lhs => rw [hline]
    rw [List.all_append, hall, Bool.and_true]
  rw [hsplit, List.all_eq_true]
  refine forall₂_congr fun c hc => ?_
  have hne : c ≠ '\n' := fun e => hfeed (e ▸ hc)
  rw [isLineEnd, Bool.or_eq_true, decide_eq_true_iff, decide_eq_true_iff]
  exact or_iff_right hne

end

/-- the lines of a source that are taken for empty -/
theorem isEmptyLine_iff {bytes line : Bytes} {ending : Ending} {text : Text}
    (hline : line ∈ splitLines bytes) (ht : ending.text line = .ok text) :
    isEmptyLine line = true ↔ ∀ c ∈ withoutLineEnd text, c = '\r' := by
  obtain rfl := Ending.eq_encode_of_text ht
  have hfeed := lineFeed_not_mem_dropLast_of_encode (lineFeed_not_mem_dropLast hline)
  rw [isEmptyLine_encode, isEmpty_lineContent]
  exact all_isLineEnd_iff hfeed

/-! ## lines that are reached -/

namespace EdgeLine
variable {ending : Ending} {line : Bytes} {lines : List Bytes} {i : Nat}

/-- a line that a walk reaches is passed, or the walk stops at it -/
theorem reached_cases (hline : lines[i]? = some line)
    (hi : i ≤ (lines.takeWhile (isSound ending)).length) (row : Nat) :
    ((lines.takeWhile (isSound ending))[i]? = some line ∧ isSound ending line = true) ∨
    (i = (lines.takeWhile (isSound ending)).length ∧ isSound ending line = false ∧
      outcome ending row lines = .error (failure ending (row + i) line)) := by
  rcases Nat.lt_or_eq_of_le hi with hlt | rfl
  · have hpassed : (lines.takeWhile (isSound ending))[i]? = some line := by
      rw [List.getElem?_eq_getElem hlt, ← hline]
      exact (List.prefix_iff_getElem?.1 (List.takeWhile_prefix _) i hlt).symm
    exact .inl ⟨hpassed, List.all_eq_true.1 List.all_takeWhile line (List.mem_of_getElem? hpassed)⟩
  · obtain ⟨hsound, hstop⟩ := outcome_of_stop hline row
    exact .inr ⟨rfl, hsound, hstop⟩

theorem skip_mem_events_iff {n row : Nat} :
    .skippingEmptyLine n ∈ events row line ↔ n = row ∧ isEmptyLine line = true := by
  rw [events]
  split
  next h => simp [h]
  next h =>
    split
    · simp [h]
    · simp [h]

theorem skip_mem_allEvents_iff {row : Nat} : .skippingEmptyLine (row + i) ∈ allEvents row lines ↔
    ∃ line, lines[i]? = some line ∧ isEmptyLine line = true := by
  rw [mem_allEvents_iff]
  constructor
  · rintro ⟨j, line, hline, hmem⟩
    obtain ⟨hrow, hempty⟩ := skip_mem_events_iff.1 hmem
    obtain rfl : i = j := Nat.add_left_cancel hrow
    exact ⟨line, hline, hempty⟩
  · rintro ⟨line, hline, hempty⟩
    exact ⟨i, line, hline, skip_mem_events_iff.2 ⟨rfl, hempty⟩⟩

end EdgeLine

/-- the statement of a line that is passed stands behind those of the lines before it -/
theorem body_prefix_of_passed {ending : Ending} {line : Bytes} {lines : List Bytes} {i : Nat}
    {e : Edge} (hline : (lines.takeWhile (EdgeLine.isSound ending))[i]? = some line)
    (he : EdgeLine.edge? line = some e) (spelling : Spelling) (name : Text)
    (result : Except Failure Totals) :
    (body spelling name ((lines.take i).filterMap EdgeLine.edge?) ++ statement spelling e).encode <+:
      (written spelling name
        ((lines.takeWhile (EdgeLine.isSound ending)).filterMap EdgeLine.edge?) result).encode := by
  obtain ⟨hlt, hget⟩ := List.getElem?_eq_some_iff.1 hline
  have hfront : (lines.takeWhile (EdgeLine.isSound ending)).take i = lines.take i := by
    rw [List.prefix_iff_eq_take.1 (List.takeWhile_prefix (EdgeLine.isSound ending)),
      List.take_take, Nat.min_eq_left (Nat.le_of_lt hlt)]
  have hsplit : lines.takeWhile (EdgeLine.isSound ending) =
      lines.take i ++ line :: (lines.takeWhile (EdgeLine.isSound ending)).drop (i + 1) := by
    rw [← hfront, ← hget, ← List.drop_eq_getElem_cons hlt, List.take_append_drop]
  rw [hsplit, List.filterMap_append, List.filterMap_cons_some he,
    List.append_cons _ e (List.filterMap _ _), ← List.flatMap_singleton (statement spelling) e,
    ← body_append]
  exact body_prefix_written spelling name _ _ result

/-- What becomes of a line behind the count, in row `i + 2`, that a conversion reaches and that is
UTF-8.  It is told to be skipped if and only if nothing but carriage returns is left of it without
its line end.  If more is left, but fewer than two tokens, the conversion fails in this row.  So it
is skipped, or its statement stands in the output behind those of the lines before it, or the
conversion fails with it. -/
theorem convert_reaches_line {input : Bytes} {ending : Ending} {declared i : Nat} {line : Bytes}
    {text : Text} (hcount : (LineReader.ofBytes input ending).readCount.result = .ok declared)
    (hline : (splitLines input).tail[i]? = some line) (ht : ending.text line = .ok text)
    (name : Text) (options : Options)
    (hreached : i + 2 ≤ (convert name options (.ofBytes input ending) .unlimited).reader.row) :
    let t := convert name options (.ofBytes input ending) .unlimited
    let earlier := ((splitLines input).tail.take i).filterMap EdgeLine.edge?
    let spelled := options.spelling.render
    let fault : LocatedError :=
      ⟨.tooFew 2 (lineTokens line).length, text, i + 2, text.byteLength⟩
    let onlyReturns := ∀ c ∈ withoutLineEnd text, c = '\r'
    (.skippingEmptyLine (i + 2) ∈ t.events ↔ onlyReturns) ∧
    (¬ onlyReturns → (lineTokens line).length < 2 → t.result = .error (.malformedEdge fault)) ∧
    (onlyReturns ∨
      (∃ e, EdgeLine.edge? line = some e ∧
        Text.encode (body options.spelling name earlier ++ ("\t".toList ++ spelled e.source ++
          " -> ".toList ++ spelled e.target ++ ";\n".toList)) <+: t.sink.output) ∨
      t.result = .error (.malformedEdge fault)) := by
  intro t earlier spelled fault onlyReturns
  let later := (splitLines input).tail
  let passed := later.takeWhile (EdgeLine.isSound ending)
  obtain ⟨hresult, hout, hevents, -, hrow⟩ := convert_of_declared hcount name options
  have hrow : t.reader.row = 2 + passed.length := hrow
  have hi : i ≤ passed.length := by
    have hreached : i + 2 ≤ 2 + passed.length := hrow ▸ hreached
    omega
  have hempty : isEmptyLine line = true ↔ onlyReturns :=
    isEmptyLine_iff (List.mem_of_mem_tail (List.mem_of_getElem? hline)) ht
  have hskip : .skippingEmptyLine (i + 2) ∈ t.events ↔
      ∃ line', passed[i]? = some line' ∧ isEmptyLine line' = true := by
    rw [hevents, List.mem_append, or_iff_left (skip_not_mem_lastEvents _ _), Nat.add_comm i]
    exact EdgeLine.skip_mem_allEvents_iff
  have hmeaning := EdgeLine.isSound_of_text ht
  rcases EdgeLine.reached_cases hline hi 2 with ⟨hpassed, hsound⟩ | ⟨hstopped, hunsound, hstop⟩
  · rw [hsound, eq_comm, Bool.or_eq_true, decide_eq_true_iff, hempty] at hmeaning
    refine ⟨?_, fun hmore hfew => ?_, ?_⟩
    · rw [hskip, ← hempty, hpassed]
      constructor
      · rintro ⟨line', heq, h⟩
        rwa [Option.some.inj heq]
      · exact fun h => ⟨line, rfl, h⟩
    · exact absurd (hmeaning.resolve_left hmore) (Nat.not_le.2 hfew)
    · cases he : EdgeLine.edge? line with
      | none => exact .inl (hempty.1 (EdgeLine.text_of_sound hsound he).1)
      | some e =>
        refine .inr (.inl ⟨e, rfl, ?_⟩)
        rw [hout]
        exact body_prefix_of_passed hpassed he _ _ _
  · have hfails : t.result = .error (.malformedEdge fault) := by
      have hwalked : (LineReader.ofBytes input ending).outcomeAhead = _ := hstop
      rw [hresult, hwalked, verdict_error, EdgeLine.failure, ht, Nat.add_comm 2]
    have hmore : ¬ onlyReturns := by
      rw [← hempty]
      rw [hunsound, eq_comm, Bool.or_eq_false_iff] at hmeaning
      exact ne_true_of_eq_false hmeaning.1
    refine ⟨?_, fun _ _ => hfails, .inr (.inr hfails)⟩
    rw [hskip, hstopped, List.getElem?_length]
    refine iff_of_false ?_ hmore
    rintro ⟨line', hnone, -⟩
    cases hnone

/-- a space and a carriage return are left of the third line, behind an edge -/
theorem convert_reaches_line_blank :
    let input := Text.encode "1\na b\r\n \r\r\n".toList
    let text := " \r\r\n".toList
    let t := convert "g".toList {} (.ofBytes input) .unlimited
    (LineReader.ofBytes input).readCount.result = .ok 1 ∧
      (splitLines input).tail[1]? = some (Text.encode text) ∧
      Ending.complete.text (Text.encode text) = .ok text ∧ 1 + 2 ≤ t.reader.row ∧
      withoutLineEnd text = " \r".toList ∧
      t.result = .error (.malformedEdge ⟨.tooFew 2 0, text, 3, 4⟩) := by
  intro input text t
  have hcount : (LineReader.ofBytes input).readCount.result = .ok 1 := by decide +kernel
  have hline : (splitLines input).tail[1]? = some (Text.encode text) := by decide +kernel
  have ht : Ending.complete.text (Text.encode text) = .ok text := Ending.text_encode text
  have hreached : 1 + 2 ≤ t.reader.row := by decide +kernel
  have hleft : withoutLineEnd text = " \r".toList := by decide +kernel
  obtain ⟨-, hfails, -⟩ := convert_reaches_line hcount hline ht "g".toList {} hreached
  refine ⟨hcount, hline, ht, hreached, hleft, hfails (fun honly => ?_) (by decide +kernel)⟩
  have hblank : ' ' ∈ withoutLineEnd text := by simp [hleft]
  exact absurd (honly ' ' hblank) (by decide)

/-- a carriage return in front of the line end is left of the second line, which has no token, and
still the line is skipped and the conversion succeeds -/
theorem convert_skips_return :
    let input := Text.encode "0\n\r\r\n".toList
    let text := "\r\r\n".toList
    let t := convert "g".toList {} (.ofBytes input) .unlimited
    (LineReader.ofBytes input).readCount.result = .ok 0 ∧
      (splitLines input).tail = [Text.encode text] ∧ t.reader.row = 3 ∧
      withoutLineEnd text = ['\r'] ∧ lineTokens (Text.encode text) = [] ∧
      t.events = [.skippingEmptyLine 2] ∧ t.result = .ok ⟨0, 0⟩ := by
  decide +kernel

end EdgeDot
