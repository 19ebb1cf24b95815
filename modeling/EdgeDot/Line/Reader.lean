import EdgeDot.Event
import EdgeDot.Failure
import EdgeDot.Line.Source
import EdgeDot.Token.Splitter

/-!
# Reading an edge list

The first line of an edge list holds a count, each later line an edge; empty lines are skipped
and what follows the two names of an edge is ignored.  A reader goes on with the next line
whatever came of the one before.

* `LineReader.readCount`   the count of the next line
* `LineReader.readEdge`    the next edge
* `LineReader.forEdges`    all edges that are left, handed to a consumer one by one
* `EdgeIterator.collect`   all edges that are left, as a list
-/

namespace EdgeDot

/-- a reader: its source, the number of lines read, and the current line, split up to where it
was read -/
structure LineReader where
  source : Source
  row : Nat := 0
  line : Text := []
  cursor : Splitter := .ofText []

/-- what a call of a reader gives: its result, what it told, and the reader after it -/
structure Reading (α : Type) where
  result : Except Failure α
  events : List Event
  reader : LineReader

def Reading.after {α : Type} (earlier : List Event) (r : Reading α) : Reading α :=
  { r with events := earlier ++ r.events }

namespace LineReader

def ofBytes (bytes : Bytes) (ending : Ending := .complete) : LineReader :=
  { source := .ofBytes bytes ending }

def ofText (s : Text) : LineReader := ofBytes s.encode

def rest (r : LineReader) : Bytes := r.source.bytes

/-! ## the current line -/

/-- reads the next line, and tells whether there was one; it counts in any case -/
def advance (r : LineReader) : Except IoError Bool × LineReader :=
  match r.source.next with
  | (.error e, source) => (.error e, { source, row := r.row + 1 })
  | (.ok none, source) => (.ok false, { source, row := r.row + 1 })
  | (.ok (some line), source) =>
    (.ok true, { source, row := r.row + 1, line, cursor := .ofText line })

def errorHere (r : LineReader) (cause : RecordError) : LocatedError :=
  ⟨cause, r.line, r.row, r.cursor.position⟩

def take {α : Type} (read : Splitter → Except RecordError α × Splitter) (r : LineReader) :
    Except LocatedError α × LineReader :=
  let record := read r.cursor
  let r := { r with cursor := record.2 }
  (record.1.mapError r.errorHere, r)

def expectEnd (r : LineReader) : Except LocatedError Unit × LineReader :=
  match r.cursor.next with
  | (none, _) => (.ok (), r)
  | (some _, cursor) =>
    let r := { r with cursor }
    (.error (r.errorHere .surplus), r)

def isBlank (r : LineReader) : Bool := (lineContent r.line).isEmpty

/-! ## counts and edges -/

/-- reads the next line as a count and nothing else -/
def readCount (r : LineReader) : Reading Nat :=
  match r.advance with
  | (.error e, r) => ⟨.error (.io e), [], r⟩
  | (.ok false, r) => ⟨.error (.malformedCount (r.errorHere (.tooFew 1 0))), [], r⟩
  | (.ok true, r) =>
    match r.take Count.read with
    | (.error e, r) => ⟨.error (.malformedCount e), [], r⟩
    | (.ok count, r) =>
      match r.expectEnd with
      | (.error e, r) => ⟨.error (.malformedCount e), [], r⟩
      | (.ok (), r) => ⟨.ok count, [], r⟩

/-- reads the current line as an edge and perhaps more -/
def edgeOfLine (r : LineReader) : Reading (Option Edge) :=
  match r.take Edge.read with
  | (.error e, r) => ⟨.error (.malformedEdge e), [], r⟩
  | (.ok e, r) => ⟨.ok (some e), if r.cursor.isAtEnd then [] else [.ignoringTokens r.row], r⟩

theorem source_advance (r : LineReader) : r.advance.2.source = r.source.next.2 := by
  unfold advance
  split <;> simp_all

theorem row_advance (r : LineReader) : r.advance.2.row = r.row + 1 := by
  unfold advance
  split <;> rfl

theorem length_lines_advance_lt {r : LineReader} (h : r.advance.1 = .ok true) :
    r.advance.2.source.lines.length < r.source.lines.length := by
  rw [source_advance]
  unfold advance at h
  split at h
  · cases h
  · cases h
  next line source given => exact Source.length_lines_next_lt (congrArg Prod.fst given)

/-- the edge of the next line that is not empty, or none at the end -/
def readEdge (r : LineReader) : Reading (Option Edge) :=
  match _h : r.advance with
  | (.error e, r) => ⟨.error (.io e), [], r⟩
  | (.ok false, r) => ⟨.ok none, [], r⟩
  | (.ok true, line) =>
    if line.isBlank then (readEdge line).after [.skippingEmptyLine line.row] else line.edgeOfLine
termination_by r.source.lines.length
decreasing_by
  have := length_lines_advance_lt (congrArg Prod.fst _h)
  rwa [_h] at this

theorem source_take {α : Type} (read : Splitter → Except RecordError α × Splitter)
    (r : LineReader) : (r.take read).2.source = r.source := rfl

theorem source_edgeOfLine (r : LineReader) : r.edgeOfLine.reader.source = r.source := by
  unfold edgeOfLine
  split
  next e r' h => rw [← source_take Edge.read r, h]
  next e r' h => rw [← source_take Edge.read r, h]

/-- an edge uses up a line -/
theorem length_lines_readEdge_lt {r : LineReader} {e : Edge}
    (h : r.readEdge.result = .ok (some e)) :
    r.readEdge.reader.source.lines.length < r.source.lines.length := by
  fun_induction readEdge r with
  | case1 => cases h
  | case2 => cases h
  | case3 r line given blank ih =>
    have shorter := length_lines_advance_lt (congrArg Prod.fst given)
    rw [given] at shorter
    exact Nat.lt_trans (ih h) shorter
  | case4 r line given blank =>
    have shorter := length_lines_advance_lt (congrArg Prod.fst given)
    rw [given] at shorter
    rw [source_edgeOfLine]
    exact shorter

/-! ## all edges -/

/-- a walk over edges: how it ended, what it told, the consumer and the reader at the end -/
structure Walk (σ : Type) where
  result : Except Failure Unit
  events : List Event
  state : σ
  reader : LineReader

/-- hands the edges that are left to a consumer, up to the first failure of either -/
def forEdges {σ : Type} (consume : σ → Edge → Except Failure Unit × σ) (state : σ)
    (r : LineReader) (earlier : Array Event := #[]) : Walk σ :=
  let reading := r.readEdge
  let events := earlier ++ reading.events
  match _h : reading.result with
  | .error f => ⟨.error f, events.toList, state, reading.reader⟩
  | .ok none => ⟨.ok (), events.toList, state, reading.reader⟩
  | .ok (some e) =>
    match consume state e with
    | (.error f, state) => ⟨.error f, events.toList, state, reading.reader⟩
    | (.ok (), state) => forEdges consume state reading.reader events
termination_by r.source.lines.length
decreasing_by exact length_lines_readEdge_lt _h

end LineReader

/-! ## edges one at a time -/

/-- the edges that a reader has left; after a failure there are none -/
structure EdgeIterator where
  reader : LineReader
  failed : Bool := false

namespace EdgeIterator

/-- the next edge or failure, and what was told on the way to it -/
def next (it : EdgeIterator) : Option (Except Failure Edge) × List Event × EdgeIterator :=
  if it.failed then (none, [], it)
  else
    let reading := it.reader.readEdge
    match reading.result with
    | .ok none => (none, reading.events, ⟨reading.reader, false⟩)
    | .ok (some e) => (some (.ok e), reading.events, ⟨reading.reader, false⟩)
    | .error f => (some (.error f), reading.events, ⟨reading.reader, true⟩)

def nextMany (it : EdgeIterator) :
    Nat → List (Option (Except Failure Edge)) × List Event × EdgeIterator
  | 0 => ([], [], it)
  | calls + 1 =>
    let first := it.next
    let later := first.2.2.nextMany calls
    (first.1 :: later.1, first.2.1 ++ later.2.1, later.2.2)

/-- an iterator that gave an edge has fewer lines left -/
theorem length_lines_next_lt {it : EdgeIterator} {e : Edge} (h : it.next.1 = some (.ok e)) :
    it.next.2.2.reader.source.lines.length < it.reader.source.lines.length := by
  rw [next] at h ⊢
  split at h
  · cases h
  next running =>
    rw [if_neg running]
    dsimp only at h ⊢
    split at h
    · cases h
    next e' given => exact LineReader.length_lines_readEdge_lt given
    · cases h

/-- gathers the edges that are left, up to the first failure, and what was told about them -/
def collect (it : EdgeIterator) (edges : EdgeList) (earlier : Array Event := #[]) :
    Except Failure EdgeList × List Event :=
  let events := earlier ++ it.next.2.1
  match _h : it.next.1 with
  | none => (.ok edges, events.toList)
  | some (.error f) => (.error f, events.toList)
  | some (.ok e) => it.next.2.2.collect (edges.push e) events
termination_by it.reader.source.lines.length
decreasing_by exact length_lines_next_lt _h

end EdgeIterator

end EdgeDot
