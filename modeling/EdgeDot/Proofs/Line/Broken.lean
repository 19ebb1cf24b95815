import EdgeDot.Proofs.Line.Splitting
import EdgeDot.Proofs.Line.Walking

/-!
# Lines of a source that breaks

Where a source breaks, the lines before it are there with their line feeds, and perhaps a part of
one more.  The former mean the same as if the source had gone on; the latter is never read.

* `splitLines_front`               bytes that go on keep their complete lines
* `Ending.text_of_complete`        what is behind a complete line does not matter to it
* `EdgeLine.outcome_append`        a walk over complete lines and over what is behind them
* `EdgeLine.outcome_of_broken`     a walk that meets the break
* `LineReader.readCount_congr`     a count of a complete line
-/

namespace EdgeDot

/-! ## complete lines -/

def isComplete (line : Bytes) : Bool := line.getLast? = some lineFeed

/-- the lines of some bytes that end with their line feed: all but perhaps the last -/
def completeLines (bytes : Bytes) : List Bytes := (splitLines bytes).filter isComplete

theorem isComplete_of_mem {bytes line : Bytes} (h : line ∈ completeLines bytes) :
    isComplete line = true :=
  (List.mem_filter.1 h).2

theorem isComplete_concat (body : Bytes) : isComplete (body ++ [lineFeed]) = true := by
  rw [isComplete, List.getLast?_concat]
  rfl

theorem isComplete_of_not_mem {line : Bytes} (h : lineFeed ∉ line) : isComplete line = false := by
  rw [isComplete, decide_eq_false_iff_not]
  intro hlast
  exact h (List.mem_of_getLast? hlast)

/-- bytes that go on keep their complete lines; what is behind these goes on without a break -/
theorem splitLines_front (bytes : Bytes) :
    ∃ tail, lineFeed ∉ tail ∧
      ∀ more, splitLines (bytes ++ more) = completeLines bytes ++ splitLines (tail ++ more) := by
  induction hn : bytes.length using Nat.strongRecOn generalizing bytes with
  | _ n ih =>
    cases splitLines_cases bytes with
    | nil h hl =>
      refine ⟨[], List.not_mem_nil, fun more => ?_⟩
      rw [h]
      rfl
    | last hne h hl =>
      refine ⟨bytes, h, fun more => ?_⟩
      have hnone : completeLines bytes = [] := by
        rw [completeLines, hl, List.filter_cons_of_neg, List.filter_nil]
        rw [isComplete_of_not_mem h]
        exact Bool.false_ne_true
      rw [hnone, List.nil_append]
    | line body rest h hb hl =>
      have hlt : rest.length < n := by
        rw [← hn, hb, List.length_append, List.length_cons]
        omega
      obtain ⟨tail, htail, hsplit⟩ := ih _ hlt rest rfl
      refine ⟨tail, htail, fun more => ?_⟩
      have hfirst : completeLines bytes = (body ++ [lineFeed]) :: completeLines rest := by
        rw [completeLines, hl, List.filter_cons_of_pos (isComplete_concat body), completeLines]
      rw [hfirst, List.cons_append, ← hsplit more, hb, List.append_assoc, List.cons_append,
        splitLines_append h]

/-! ## what they mean -/

variable {ending : Ending} {line tail : Bytes} {cause : IoError}

/-- what is behind a complete line does not matter to it -/
theorem Ending.text_of_complete (h : isComplete line = true) :
    ending.text line = Ending.complete.text line := by
  cases ending with
  | complete => rfl
  | broken e =>
    have hnone : (Ending.broken e).breaks? line = none := if_pos (of_decide_eq_true h)
    rw [text, hnone]
    rfl

theorem Ending.text_of_broken (h : lineFeed ∉ line) :
    (Ending.broken cause).text line = .error cause := by
  have hsome : (Ending.broken cause).breaks? line = some cause :=
    if_neg (of_decide_eq_false (isComplete_of_not_mem h))
  rw [text, hsome]

namespace EdgeLine

theorem isSound_of_complete (h : isComplete line = true) :
    isSound ending line = isSound .complete line := by
  rw [isSound, Ending.text_of_complete h, isSound]

theorem failure_of_complete (h : isComplete line = true) (row : Nat) :
    failure ending row line = failure .complete row line := by
  rw [failure, Ending.text_of_complete h, failure]

variable {front : List Bytes}

/-- a walk over complete lines gets to what is behind them only if they are sound -/
theorem outcome_append (h : ∀ line ∈ front, isComplete line = true) (row : Nat)
    (back : List Bytes) :
    outcome ending row (front ++ back) =
      if front.all (isSound .complete) then outcome ending (row + front.length) back
      else outcome .complete row front := by
  induction front generalizing row with
  | nil => rfl
  | cons line front ih =>
    obtain ⟨hline, hfront⟩ := List.forall_mem_cons.1 h
    have hsame : isSound ending line = _ := isSound_of_complete hline
    rw [List.cons_append, List.all_cons]
    cases hsound : isSound .complete line with
    | false =>
      rw [hsound] at hsame
      rw [outcome_of_unsound hsame, outcome_of_unsound hsound, failure_of_complete hline]
      rfl
    | true =>
      rw [hsound] at hsame
      rw [outcome_of_sound hsame, outcome_of_sound hsound, ih hfront, Bool.true_and,
        List.length_cons, Nat.add_assoc, Nat.add_comm 1]

theorem takeWhile_append (h : ∀ line ∈ front, isComplete line = true) (back : List Bytes) :
    (front ++ back).takeWhile (isSound ending) =
      if front.all (isSound .complete) then front ++ back.takeWhile (isSound ending)
      else front.takeWhile (isSound .complete) := by
  induction front with
  | nil => rfl
  | cons line front ih =>
    obtain ⟨hline, hfront⟩ := List.forall_mem_cons.1 h
    rw [List.cons_append, List.takeWhile_cons, List.takeWhile_cons, List.all_cons,
      isSound_of_complete hline, ih hfront]
    cases isSound .complete line with
    | false => rfl
    | true => cases front.all (isSound .complete) <;> rfl

/-- a fault among lines ends a walk over them, and what it ends with is about a line -/
theorem outcome_of_fault {lines : List Bytes} (h : lines.all (isSound ending) = false) (row : Nat) :
    ∃ f : Failure, (∀ declared found, f ≠ .wrongCount declared found) ∧
      outcome ending row lines = .error f := by
  induction lines generalizing row with
  | nil => cases h
  | cons line lines ih =>
    cases hsound : isSound ending line with
    | true =>
      rw [List.all_cons, hsound, Bool.true_and] at h
      rw [outcome_of_sound hsound]
      exact ih h (row + 1)
    | false =>
      refine ⟨failure ending row line, fun declared found h => ?_,
        outcome_of_unsound hsound row lines⟩
      rw [failure] at h
      cases ht : ending.text line <;> rw [ht] at h <;> cases h

/-- a walk that meets the break: the part of a line before it makes nothing -/
theorem outcome_of_broken (h : lineFeed ∉ tail) (row : Nat) :
    outcome (.broken cause) row (splitLines tail) = .error (.io cause) ∧
      (splitLines tail).takeWhile (isSound (.broken cause)) = [] := by
  by_cases hne : tail = []
  · rw [hne]
    exact ⟨rfl, rfl⟩
  · have htext : (Ending.broken cause).text tail = _ := Ending.text_of_broken h
    have hunsound := isSound_of_error htext
    rw [splitLines_of_not_mem hne h, outcome_of_unsound hunsound, failure, htext,
      List.takeWhile_cons_of_neg (by rw [hunsound]; exact Bool.false_ne_true)]
    exact ⟨rfl, rfl⟩

theorem allEvents_append (row : Nat) (front back : List Bytes) :
    allEvents row (front ++ back) = allEvents row front ++ allEvents (row + front.length) back := by
  rw [allEvents, List.zipIdx_append, List.flatMap_append]
  rfl

end EdgeLine

/-! ## counts -/

namespace LineReader
variable {r r' : LineReader} {lines lines' : List Bytes} {ending' : Ending} {text : Text}

/-- a count does not depend on what is behind its line -/
theorem readCount_congr (hs : r.source = ⟨line :: lines, ending⟩)
    (hs' : r'.source = ⟨line :: lines', ending'⟩) (ht : ending.text line = .ok text)
    (ht' : ending'.text line = .ok text) (hrow : r.row = r'.row) :
    r.readCount.result = r'.readCount.result := by
  rw [readCount, advance_of_text hs ht, readCount, advance_of_text hs' ht', hrow]
  dsimp only [take, onLine]
  cases (Count.read (Splitter.ofText text)).1 with
  | error e => rfl
  | ok n =>
    dsimp only [Except.mapError, expectEnd]
    rcases (Count.read (Splitter.ofText text)).2.next with ⟨_ | token, cursor⟩ <;> rfl

/-- the part of a line before a break is no count -/
theorem readCount_of_broken (hs : r.source = ⟨splitLines tail, .broken cause⟩)
    (h : lineFeed ∉ tail) : ∃ r' : LineReader, r.readCount = ⟨.error (.io cause), [], r'⟩ := by
  by_cases hne : tail = []
  · rw [hne] at hs
    exact ⟨_, readCount_of_nil hs⟩
  · rw [splitLines_of_not_mem hne h] at hs
    exact ⟨_, readCount_of_error hs (Ending.text_of_broken h)⟩

end LineReader

end EdgeDot
