import EdgeDot.Proofs.Line.Checked
import EdgeDot.Proofs.Line.Marking
import EdgeDot.Session

/-!
# Sessions with checks

A session in which every column, slice and subtraction is checked is the session without checks,
so no call ever takes a line up at a bad place and no error ever fails to be shown.

* `convert?_eq`            a conversion with checks
* `Session.runAll?_eq`     calls one after the other with checks
* `Session.runAll_safe`    a session of some bytes, and the errors that come of it
-/

namespace EdgeDot

/-- converts the edge list of a reader, reading it with checks -/
def convert? (name : Text) (options : Options) (r : LineReader) (sink : Sink) :
    Option Conversion :=
  r.readCount?.bind fun count =>
    match count.result with
    | .error f => some ⟨.error f, count.events, count.reader, sink⟩
    | .ok declared =>
      match (Dot.Writer.ofSink sink options.spelling).begin name with
      | (.error e, w) => some ⟨.error (.io e), count.events, count.reader, w.sink⟩
      | (.ok (), w) =>
        (count.reader.forEdges? writeEdge w).map fun walk =>
          match walk.result with
          | .error f => ⟨.error f, count.events ++ walk.events, walk.reader, walk.state.sink⟩
          | .ok () =>
            let verdict := conclude options.counting declared walk.state
            ⟨verdict.1, count.events ++ walk.events ++ verdict.2.1, walk.reader, verdict.2.2⟩

theorem convert?_eq (name : Text) (options : Options) (r : LineReader) (sink : Sink) :
    convert? name options r sink = some (convert name options r sink) := by
  rw [convert?, LineReader.readCount?_eq, Option.bind_some, convert]
  cases r.readCount.result with
  | error f => rfl
  | ok declared =>
    dsimp only
    rcases (Dot.Writer.ofSink sink options.spelling).begin name with ⟨e | u, w⟩
    · rfl
    · dsimp only
      rw [LineReader.forEdges?_eq]
      rcases r.readCount.reader.forEdges writeEdge w with ⟨f | u, events, state, reader⟩ <;> rfl

namespace Session

/-- one call with checks -/
def Request.run? (r : LineReader) : Request → Option (Entry × LineReader)
  | .readCount => r.readCount?.map fun reading =>
    (⟨.count reading.result, reading.events, reading.reader.row⟩, reading.reader)
  | .readEdge => r.readEdge?.map fun reading =>
    (⟨.edge reading.result, reading.events, reading.reader.row⟩, reading.reader)
  | .edges calls => ((EdgeIterator.mk r false).nextMany? calls).map fun walk =>
    (⟨.edges walk.1, walk.2.1, walk.2.2.reader.row⟩, walk.2.2.reader)
  | .convert name options sink => (convert? name options r sink).map fun t =>
    (⟨.conversion t.result t.sink.output, t.events, t.reader.row⟩, t.reader)

/-- calls one after the other with checks; nothing comes of them if a check fails -/
def Request.runAll? (r : LineReader) : List Request → Option (List Entry × LineReader)
  | [] => some ([], r)
  | request :: requests =>
    (request.run? r).bind fun first =>
      (runAll? first.2 requests).map fun later => (first.1 :: later.1, later.2)

theorem run?_eq (r : LineReader) (request : Request) :
    request.run? r = some (request.run r) := by
  cases request with
  | readCount =>
    rw [Request.run?, LineReader.readCount?_eq]
    rfl
  | readEdge =>
    rw [Request.run?, LineReader.readEdge?_eq]
    rfl
  | edges calls =>
    rw [Request.run?, EdgeIterator.nextMany?_eq]
    rfl
  | convert name options sink =>
    rw [Request.run?, convert?_eq]
    rfl

theorem runAll?_eq (r : LineReader) (requests : List Request) :
    Request.runAll? r requests = some (Request.runAll r requests) := by
  induction requests generalizing r with
  | nil => rfl
  | cons request requests ih =>
    rw [Request.runAll?, run?_eq, Option.bind_some, ih]
    rfl

/-- A session of some bytes passes every check: wherever the current line is taken up again, the
column is at most its length and no character is cut there, and each token is a legal slice of it.
An error, whichever it is, is marked within its line and where no character is cut; neither its
place nor its wording takes a subtraction below zero or an illegal slice. -/
theorem runAll_safe (bytes : Bytes) (ending : Ending) (requests : List Request) :
    Request.runAll? (.ofBytes bytes ending) requests =
        some (Request.runAll (.ofBytes bytes ending) requests) ∧
      ∀ e : LocatedError,
        e.marker? = some e.marker ∧ e.marker ≤ e.content.byteLength ∧
          e.content.isBoundary e.marker = true ∧ e.location? = some e.location ∧
          e.display? = some e.display :=
  ⟨runAll?_eq _ requests, fun e =>
    ⟨e.marker?_eq, e.marker_le, e.isBoundary_marker, e.location?_eq, e.display?_eq⟩⟩

end Session

end EdgeDot
