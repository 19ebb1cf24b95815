import EdgeDot.Proofs.Conversion.Options

/-!
# What a conversion tells

The log of a conversion has one event for each line behind the count that is empty or goes on behind
its edge, in the order of the lines and with their numbers, up to the line where the conversion
stops.  A warning about the count comes last, and only if all lines were read.

* `EdgeLine.mem_allEvents_iff`   where an event of some lines comes from
* `EdgeLine.length_eq_skipped`   a line that is sound is skipped or gives an edge
* `EdgeLine.outcome_of_stop`     the line at which a walk stops
* `Conversion.lastEvents_ahead`  the warning
* `convert_log`                  the log of a conversion
-/

namespace EdgeDot

open Conversion

/-- whether an event tells of a line that was skipped -/
def Event.isSkip : Event → Bool
  | .skippingEmptyLine _ => true
  | _ => false

/-! ## the events of lines -/

namespace EdgeLine
variable {ending : Ending} {line : Bytes} {lines : List Bytes}

theorem mem_allEvents_iff {row : Nat} {e : Event} :
    e ∈ allEvents row lines ↔ ∃ i line, lines[i]? = some line ∧ e ∈ events (row + i) line := by
  rw [allEvents, List.mem_flatMap]
  constructor
  · rintro ⟨⟨line, n⟩, hmem, he⟩
    obtain ⟨i, hi⟩ := List.mem_iff_getElem?.1 hmem
    rw [List.getElem?_zipIdx] at hi
    obtain ⟨_, hline, heq⟩ := Option.map_eq_some_iff.1 hi
    cases heq
    exact ⟨i, line, hline, he⟩
  · rintro ⟨i, line, hline, he⟩
    refine ⟨(line, row + i), List.mem_iff_getElem?.2 ⟨i, ?_⟩, he⟩
    rw [List.getElem?_zipIdx, hline]
    rfl

/-- a sound line is skipped or gives an edge, and not both -/
theorem countP_events (h : isSound ending line = true) (row : Nat) :
    (events row line).countP Event.isSkip + (edge? line).toList.length = 1 := by
  rw [events]
  cases he : edge? line with
  | none =>
    rw [if_pos (text_of_sound h he).1]
    rfl
  | some e =>
    have hempty : ¬ isEmptyLine line = true := by
      intro hempty
      rw [edge?_of_isEmptyLine hempty] at he
      cases he
    rw [if_neg hempty]
    split <;> rfl

theorem length_eq_skipped (h : ∀ line ∈ lines, isSound ending line = true) (row : Nat) :
    lines.length = (allEvents row lines).countP Event.isSkip + (lines.filterMap edge?).length := by
  induction lines generalizing row with
  | nil => rfl
  | cons line lines ih =>
    obtain ⟨hline, hlines⟩ := List.forall_mem_cons.1 h
    have hone := countP_events hline row
    have hedges : ((line :: lines).filterMap edge?).length =
        (edge? line).toList.length + (lines.filterMap edge?).length := by
      rw [List.filterMap_cons]
      cases edge? line with
      | none => exact (Nat.zero_add _).symm
      | some e => exact Nat.add_comm _ 1
    rw [List.length_cons, allEvents_cons, List.countP_append, hedges, ih hlines (row + 1)]
    omega

/-- a walk over lines stops at the first that is not sound -/
theorem outcome_of_stop (h : lines[(lines.takeWhile (isSound ending)).length]? = some line)
    (row : Nat) :
    isSound ending line = false ∧ outcome ending row lines =
      .error (failure ending (row + (lines.takeWhile (isSound ending)).length) line) := by
  induction lines generalizing row with
  | nil => cases h
  | cons first lines ih =>
    cases hsound : isSound ending first with
    | false =>
      have hn : ¬ isSound ending first = true := by rw [hsound]; exact Bool.false_ne_true
      rw [List.takeWhile_cons_of_neg hn] at h ⊢
      obtain rfl := Option.some.inj h
      exact ⟨hsound, outcome_of_unsound hsound row lines⟩
    | true =>
      rw [List.takeWhile_cons_of_pos hsound, List.length_cons, List.getElem?_cons_succ] at h
      obtain ⟨hline, hstop⟩ := ih h (row + 1)
      refine ⟨hline, ?_⟩
      rw [outcome_of_sound hsound, hstop, List.takeWhile_cons_of_pos hsound, List.length_cons,
        Nat.add_assoc, Nat.add_comm 1]

end EdgeLine

/-! ## the log -/

namespace Conversion
variable {declared found : Nat}

/-- a conversion that has met no fault tells that the counts differ, unless it is strict -/
theorem lastEvents_ok (counting : Counting) (declared found : Nat) :
    lastEvents (verdict counting declared found (.ok ())) =
      if counting = .lenient ∧ found ≠ declared then [.countDiffers declared found] else [] := by
  cases counting with
  | strict => rw [lastEvents_strict, if_neg fun h => nomatch h.1]
  | lenient =>
    rw [verdict_lenient]
    show (if found = declared then _ else _) = _
    by_cases hsame : found = declared
    · rw [if_pos hsame, if_neg fun h => h.2 hsame]
    · rw [if_neg hsame, if_pos ⟨rfl, hsame⟩]

/-- the last thing told is no line that was skipped -/
theorem countP_lastEvents (result : Except Failure Totals) :
    (lastEvents result).countP Event.isSkip = 0 := by
  cases result with
  | error f => rfl
  | ok totals =>
    rw [lastEvents]
    split <;> rfl

theorem skip_not_mem_lastEvents (row : Nat) (result : Except Failure Totals) :
    .skippingEmptyLine row ∉ lastEvents result :=
  fun hmem => List.countP_eq_zero.1 (countP_lastEvents result) _ hmem rfl

/-- what is told last behind a count that a reader has read -/
theorem lastEvents_ahead (r : LineReader) (counting : Counting) (declared found : Nat) :
    let warned := r.linesAhead = r.source.lines.tail ∧ r.source.ending = .complete ∧
      counting = .lenient ∧ found ≠ declared
    (warned → lastEvents (verdict counting declared found r.outcomeAhead) =
      [.countDiffers declared found]) ∧
    (¬ warned → lastEvents (verdict counting declared found r.outcomeAhead) = []) := by
  intro warned
  have hend : r.outcomeAhead = .ok () ↔
      r.linesAhead = r.source.lines.tail ∧ r.source.ending = .complete := by
    rw [r.outcomeAhead_eq_ok_iff, LineReader.linesAhead, List.takeWhile_eq_self_iff]
  cases hwalked : r.outcomeAhead with
  | error f =>
    refine ⟨fun h => ?_, fun _ => rfl⟩
    have hok := hend.2 ⟨h.1, h.2.1⟩
    rw [hwalked] at hok
    cases hok
  | ok u =>
    obtain ⟨hall, hcomplete⟩ := hend.1 hwalked
    rw [lastEvents_ok]
    exact ⟨fun h => if_pos h.2.2, fun h => if_neg fun hdiffers => h ⟨hall, hcomplete, hdiffers⟩⟩

end Conversion

/-- The log of a conversion into a sink that does not fail.  Without a count nothing is told, and no
line behind the first is read.  Behind a count the sound lines are passed, and the next line, if
there is one, is the fault at which the conversion stops.  Told are the events of the passed lines
in their order, of which the first stands in row 2, and then that the counts differ, if all lines
were read and the conversion is lenient.  After a success each line was skipped or is an edge. -/
theorem convert_log (input : Bytes) (ending : Ending) (name : Text) (options : Options) :
    let t := convert name options (.ofBytes input ending) .unlimited
    let later := (splitLines input).tail
    match (LineReader.ofBytes input ending).readCount.result with
    | .error f => t.result = .error f ∧ t.reader.row = 1 ∧ t.events = []
    | .ok declared =>
      let passed := later.takeWhile (EdgeLine.isSound ending)
      let found := (passed.filterMap EdgeLine.edge?).length
      let warned := passed = later ∧ ending = .complete ∧ options.counting = .lenient ∧
        found ≠ declared
      t.reader.row = 2 + passed.length ∧
      (∀ line, later[passed.length]? = some line →
        t.result = .error (EdgeLine.failure ending t.reader.row line)) ∧
      (warned → t.events = EdgeLine.allEvents 2 passed ++ [.countDiffers declared found]) ∧
      (¬ warned → t.events = EdgeLine.allEvents 2 passed) ∧
      ∀ totals, t.result = .ok totals →
        later.length = t.events.countP Event.isSkip + totals.edges := by
  intro t later
  cases hcount : (LineReader.ofBytes input ending).readCount.result with
  | error f =>
    have ht : t = _ := convert_of_undeclared hcount name options .unlimited
    obtain ⟨-, hrow⟩ := (LineReader.ofBytes input ending).source_readCount_eq
    rw [ht]
    exact ⟨rfl, hrow, rfl⟩
  | ok declared =>
    let passed := later.takeWhile (EdgeLine.isSound ending)
    let found := (passed.filterMap EdgeLine.edge?).length
    obtain ⟨hresult, -, hevents, -, hrow⟩ := convert_of_declared hcount name options
    obtain ⟨hwarned, hquiet⟩ :=
      lastEvents_ahead (.ofBytes input ending) options.counting declared found
    have hrow : t.reader.row = 2 + passed.length := hrow
    have hevents : t.events = EdgeLine.allEvents 2 passed ++ lastEvents (verdict options.counting
        declared found (LineReader.ofBytes input ending).outcomeAhead) := hevents
    refine ⟨hrow, fun line hline => ?_, fun h => ?_, fun h => ?_, fun totals htotals => ?_⟩
    · obtain ⟨-, hstop⟩ := EdgeLine.outcome_of_stop hline 2
      have hwalked : (LineReader.ofBytes input ending).outcomeAhead = _ := hstop
      rw [hwalked, verdict_error] at hresult
      rw [hrow]
      exact hresult
    · rw [hevents, hwarned h]
    · rw [hevents, hquiet h, List.append_nil]
    · obtain ⟨hfound, hsound, -, hedges, -⟩ := convert_eq_ok htotals
      have hall : passed = later := List.takeWhile_eq_self_iff.2 hsound
      rw [hevents, hall, List.countP_append, countP_lastEvents, Nat.add_zero, hedges, hfound]
      exact EdgeLine.length_eq_skipped hsound 2

end EdgeDot
