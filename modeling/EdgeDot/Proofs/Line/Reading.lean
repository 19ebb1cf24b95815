import EdgeDot.Proofs.Line.Meaning

/-!
# Reading line by line

Each call of a reader is settled by the lines that are left: by the next one, or by the next one
that is not empty.  Of the reader only its source and its row go into a call, and after a call
they are again what the lines left over and the lines read say.

* `LineReader.advance_of_text`    the next line
* `LineReader.readCount_of_text`  a count, and `Count.ofLine_eq_ok_iff` for what is one
* `LineReader.readEdge_of_empty`, `LineReader.readEdge_of_edge`, `LineReader.readEdge_of_unsound`
  an edge
-/

namespace EdgeDot

/-- the count that the tokens of a line make, which takes all of them -/
def Count.ofLine (tokens : List Text) : Except RecordError Nat :=
  match ofTokens tokens with
  | .error e => .error e
  | .ok n => if tokens.tail.isEmpty then .ok n else .error .surplus

theorem Count.ofLine_eq_ok_iff {tokens : List Text} {n : Nat} :
    Count.ofLine tokens = .ok n ↔ ∃ token, tokens = [token] ∧ Count.parse token = .ok n := by
  constructor
  · intro h
    rcases tokens with _ | ⟨token, _ | ⟨second, more⟩⟩
    · cases h
    · refine ⟨token, rfl, ?_⟩
      cases hp : Count.parse token with
      | error e =>
        rw [ofLine, ofTokens, hp] at h
        cases h
      | ok m =>
        rw [ofLine, ofTokens, hp] at h
        cases h
        rfl
    · rw [ofLine, ofTokens] at h
      cases hp : Count.parse token with
      | error e =>
        rw [hp] at h
        cases h
      | ok m =>
        rw [hp] at h
        cases h
  · rintro ⟨token, rfl, hp⟩
    rw [ofLine, ofTokens, hp]
    rfl

theorem Edge.ofTokens_of_length_lt {tokens : List Text} (h : tokens.length < 2) :
    Edge.ofTokens tokens = .error (.tooFew 2 tokens.length) := by
  rcases tokens with _ | ⟨source, _ | ⟨target, more⟩⟩
  · rfl
  · rfl
  · simp only [List.length_cons] at h
    omega

theorem Edge.length_lt_of_ofTokens {tokens : List Text} {cause : RecordError}
    (h : Edge.ofTokens tokens = .error cause) : tokens.length < 2 := by
  rcases tokens with _ | ⟨source, _ | ⟨target, more⟩⟩
  · exact Nat.two_pos
  · exact Nat.one_lt_two
  · cases h

namespace LineReader
variable {r : LineReader} {line : Bytes} {lines : List Bytes} {ending : Ending}

/-- a reader that has just read a line -/
def onLine (lines : List Bytes) (ending : Ending) (row : Nat) (text : Text) : LineReader :=
  ⟨⟨lines, ending⟩, row, text, .ofText text⟩

/-- a reader that has just failed to read a line -/
def offLine (lines : List Bytes) (ending : Ending) (row : Nat) : LineReader :=
  { source := ⟨lines, ending⟩, row }

theorem advance_of_text {text : Text} (hs : r.source = ⟨line :: lines, ending⟩)
    (ht : ending.text line = .ok text) :
    r.advance = (.ok true, onLine lines ending (r.row + 1) text) := by
  rw [advance, hs, Source.next_of_cons, ht]
  rfl

theorem advance_of_error {e : IoError} (hs : r.source = ⟨line :: lines, ending⟩)
    (ht : ending.text line = .error e) :
    r.advance = (.error e, offLine lines ending (r.row + 1)) := by
  rw [advance, hs, Source.next_of_cons, ht]
  rfl

theorem advance_of_nil (hs : r.source = ⟨[], ending⟩) :
    r.advance = (ending.atEnd false, offLine [] ending (r.row + 1)) := by
  rw [advance, hs, Source.next_of_nil]
  cases ending <;> rfl

/-! ## counts -/

/-- nothing is told about a count -/
theorem events_readCount (r : LineReader) : r.readCount.events = [] := by
  rw [readCount]
  rcases r.advance with ⟨e | given, r₁⟩
  · rfl
  · cases given with
    | false => rfl
    | true =>
      dsimp only
      rcases r₁.take Count.read with ⟨e | n, r₂⟩
      · rfl
      · dsimp only
        rcases r₂.expectEnd with ⟨e | u, r₃⟩ <;> rfl

theorem readCount_of_result {result : Except Failure Nat} (h : r.readCount.result = result) :
    r.readCount = ⟨result, [], r.readCount.reader⟩ := by
  rw [← h, ← events_readCount r]

theorem readCount_of_nil (hs : r.source = ⟨[], ending⟩) :
    r.readCount = ⟨match ending with
      | .complete => .error (.malformedCount ⟨.tooFew 1 0, [], r.row + 1, 0⟩)
      | .broken e => .error (.io e), [], offLine [] ending (r.row + 1)⟩ := by
  rw [readCount, advance_of_nil hs]
  cases ending <;> rfl

theorem readCount_of_error {e : IoError} (hs : r.source = ⟨line :: lines, ending⟩)
    (ht : ending.text line = .error e) :
    r.readCount = ⟨.error (.io e), [], offLine lines ending (r.row + 1)⟩ := by
  rw [readCount, advance_of_error hs ht]

theorem readCount_of_text {text : Text} (hs : r.source = ⟨line :: lines, ending⟩)
    (ht : ending.text line = .ok text) :
    ∃ (column : Nat) (r' : LineReader), r'.source = ⟨lines, ending⟩ ∧ r'.row = r.row + 1 ∧
      r.readCount = ⟨(Count.ofLine (lineTokens line)).mapError fun cause =>
        .malformedCount ⟨cause, text, r.row + 1, column⟩, [], r'⟩ := by
  obtain ⟨hfst, hsnd⟩ := Splitter.listing.count_spec (Splitter.ofText text)
  have htokens : lineTokens line = runs isSeparator (Splitter.ofText text).rest := by
    rw [Ending.eq_encode_of_text ht, lineTokens_encode]
    rfl
  rw [← htokens] at hfst hsnd
  rw [readCount, advance_of_text hs ht]
  dsimp only [take, onLine]
  rw [hfst, Count.ofLine]
  cases Count.ofTokens (lineTokens line) with
  | error e => exact ⟨_, _, rfl, rfl, rfl⟩
  | ok n =>
    have hend := Splitter.next_fst (Count.read (Splitter.ofText text)).2
    rw [hsnd] at hend
    dsimp only [Except.mapError, expectEnd]
    cases hn : (Count.read (Splitter.ofText text)).2.next with
    | mk token cursor =>
      rw [hn] at hend
      cases htail : (lineTokens line).tail with
      | nil =>
        rw [htail] at hend
        have htoken : token = none := hend
        rw [htoken]
        exact ⟨0, _, rfl, rfl, rfl⟩
      | cons second more =>
        rw [htail] at hend
        have htoken : token = some second := hend
        rw [htoken]
        exact ⟨_, _, rfl, rfl, rfl⟩

/-! ## edges -/

theorem readEdge_eq (r : LineReader) : r.readEdge =
    match r.advance with
    | (.error e, r) => ⟨.error (.io e), [], r⟩
    | (.ok false, r) => ⟨.ok none, [], r⟩
    | (.ok true, line) =>
      if line.isBlank then line.readEdge.after [.skippingEmptyLine line.row]
      else line.edgeOfLine := by
  rw [readEdge]
  split <;> rename_i h <;> rw [h]

theorem readEdge_of_nil (hs : r.source = ⟨[], ending⟩) :
    r.readEdge = ⟨(ending.atEnd none).mapError .io, [], offLine [] ending (r.row + 1)⟩ := by
  rw [readEdge_eq, advance_of_nil hs]
  cases ending <;> rfl

theorem readEdge_of_error {e : IoError} (hs : r.source = ⟨line :: lines, ending⟩)
    (ht : ending.text line = .error e) :
    r.readEdge = ⟨.error (.io e), [], offLine lines ending (r.row + 1)⟩ := by
  rw [readEdge_eq, advance_of_error hs ht]

theorem isBlank_onLine {text : Text} (ht : ending.text line = .ok text) (row : Nat) :
    (onLine lines ending row text).isBlank = isEmptyLine line := by
  rw [Ending.eq_encode_of_text ht, isEmptyLine_encode]
  rfl

/-- a line that is empty is told and passed over -/
theorem readEdge_of_empty {text : Text} (hs : r.source = ⟨line :: lines, ending⟩)
    (ht : ending.text line = .ok text) (he : isEmptyLine line = true) :
    r.readEdge = (onLine lines ending (r.row + 1) text).readEdge.after
      [.skippingEmptyLine (r.row + 1)] := by
  rw [readEdge_eq, advance_of_text hs ht]
  dsimp only
  rw [isBlank_onLine ht, if_pos he]
  rfl

/-- what the current line makes when it is read from its front -/
theorem edgeOfLine_onLine {text : Text} (lines : List Bytes) (ht : ending.text line = .ok text)
    (row : Nat) :
    ∃ r' : LineReader, r'.source = ⟨lines, ending⟩ ∧ r'.row = row ∧
      (onLine lines ending row text).edgeOfLine =
        ⟨((Edge.ofTokens (lineTokens line)).map some).mapError fun cause =>
          .malformedEdge ⟨cause, text, row, text.byteLength⟩,
          if 2 < (lineTokens line).length then [.ignoringTokens row] else [], r'⟩ := by
  obtain ⟨hfst, hsnd⟩ := Splitter.listing.edge_spec (Splitter.ofText text)
  have htokens : lineTokens line = runs isSeparator (Splitter.ofText text).rest := by
    rw [Ending.eq_encode_of_text ht, lineTokens_encode]
    rfl
  rw [← htokens] at hfst hsnd
  refine ⟨((onLine lines ending row text).take Edge.read).2, rfl, rfl, ?_⟩
  rw [edgeOfLine]
  dsimp only [take, onLine]
  cases hr : Edge.ofTokens (lineTokens line) with
  | error cause =>
    rw [hr] at hfst
    have hfew : ¬ 2 < (lineTokens line).length := by
      have := Edge.length_lt_of_ofTokens hr
      omega
    have hcolumn : (Edge.read (Splitter.ofText text)).2.position = text.byteLength :=
      (Splitter.position_edge hfst).trans (Nat.zero_add _)
    rw [hfst, if_neg hfew]
    dsimp only [Except.mapError, Except.map, errorHere]
    rw [hcolumn]
  | ok e =>
    rw [hr] at hfst
    have hend : (Edge.read (Splitter.ofText text)).2.isAtEnd = true ↔
        ¬ 2 < (lineTokens line).length := by
      rw [Splitter.isAtEnd_iff, hsnd, List.drop_eq_nil_iff]
      exact Nat.not_lt.symm
    rw [hfst]
    dsimp only [Except.mapError, Except.map]
    by_cases hmore : 2 < (lineTokens line).length
    · rw [if_pos hmore, if_neg fun h => hend.1 h hmore]
    · rw [if_neg hmore, if_pos (hend.2 hmore)]

/-- a line that is sound but not empty is an edge -/
theorem readEdge_of_edge {e : Edge} (hs : r.source = ⟨line :: lines, ending⟩)
    (hsound : EdgeLine.isSound ending line = true) (he : EdgeLine.edge? line = some e) :
    ∃ r' : LineReader, r'.source = ⟨lines, ending⟩ ∧ r'.row = r.row + 1 ∧
      r.readEdge = ⟨.ok (some e), EdgeLine.events (r.row + 1) line, r'⟩ := by
  cases ht : ending.text line with
  | error f =>
    rw [EdgeLine.isSound_of_error ht] at hsound
    cases hsound
  | ok text =>
    have hempty : ¬ isEmptyLine line = true := by
      intro h
      rw [EdgeLine.edge?_of_isEmptyLine h] at he
      cases he
    obtain ⟨r', hsource, hrow, hread⟩ := edgeOfLine_onLine lines ht (r.row + 1)
    refine ⟨r', hsource, hrow, ?_⟩
    rw [readEdge_eq, advance_of_text hs ht]
    dsimp only
    rw [isBlank_onLine ht, if_neg hempty, hread, EdgeLine.events, if_neg hempty]
    rw [EdgeLine.edge?] at he
    cases hr : Edge.ofTokens (lineTokens line) with
    | error cause =>
      rw [hr] at he
      cases he
    | ok e' =>
      rw [hr] at he
      cases he
      rfl

/-- a line that is not sound is a failure -/
theorem readEdge_of_unsound (hs : r.source = ⟨line :: lines, ending⟩)
    (hunsound : EdgeLine.isSound ending line = false) :
    ∃ r' : LineReader, r'.source = ⟨lines, ending⟩ ∧ r'.row = r.row + 1 ∧
      r.readEdge = ⟨.error (EdgeLine.failure ending (r.row + 1) line), [], r'⟩ := by
  rw [EdgeLine.failure]
  cases ht : ending.text line with
  | error f => exact ⟨_, rfl, rfl, readEdge_of_error hs ht⟩
  | ok text =>
    rw [EdgeLine.isSound_of_text ht, Bool.or_eq_false_iff, decide_eq_false_iff_not] at hunsound
    obtain ⟨hempty, hfew⟩ := hunsound
    obtain ⟨r', hsource, hrow, hread⟩ := edgeOfLine_onLine lines ht (r.row + 1)
    refine ⟨r', hsource, hrow, ?_⟩
    have hmore : ¬ 2 < (lineTokens line).length := by omega
    rw [readEdge_eq, advance_of_text hs ht]
    dsimp only
    rw [isBlank_onLine ht, hempty, hread, if_neg hmore,
      Edge.ofTokens_of_length_lt (Nat.not_le.1 hfew)]
    rfl

end LineReader

end EdgeDot
