import EdgeDot.Dot.Writer
import EdgeDot.Line.Reader

/-!
# From an edge list to a digraph

The edges are written as they are read.  Nothing is written before the count is known to be
good; whatever stops the conversion later leaves what was written so far.

* `convert`        from a reader into a sink
* `convertText`    from a text to a text
* `readEdgeList`   the count and the edges of a text, without writing
-/

namespace EdgeDot

/-- what to make of a number of edges that is not the declared one -/
inductive Counting where
  /-- to tell it and go on -/
  | lenient
  /-- to fail before the closing brace -/
  | strict
deriving DecidableEq

structure Options where
  counting : Counting := .lenient
  spelling : Dot.Spelling := .quoted
deriving DecidableEq

structure Totals where
  declared : Nat
  /-- the number of edges written -/
  edges : Nat
deriving DecidableEq

/-- what came of a conversion: its result, what it told, the reader and the sink after it -/
structure Conversion where
  result : Except Failure Totals
  events : List Event
  reader : LineReader
  sink : Sink

def writeEdge (w : Dot.Writer) (e : Edge) : Except Failure Unit × Dot.Writer :=
  let written := w.edge e
  (written.1.mapError .io, written.2)

def conclude (policy : Counting) (declared : Nat) (w : Dot.Writer) :
    Except Failure Totals × List Event × Sink :=
  let found := w.edgeCount
  if found ≠ declared ∧ policy = .strict then (.error (.wrongCount declared found), [], w.sink)
  else
    let events := if found = declared then [] else [.countDiffers declared found]
    match w.finish with
    | (.error e, w) => (.error (.io e), events, w.sink)
    | (.ok (), w) => (.ok ⟨declared, found⟩, events, w.sink)

/-- converts the edge list of a reader into a digraph of the given name -/
def convert (name : Text) (options : Options) (r : LineReader) (sink : Sink) : Conversion :=
  let count := r.readCount
  match count.result with
  | .error f => ⟨.error f, count.events, count.reader, sink⟩
  | .ok declared =>
    match (Dot.Writer.ofSink sink options.spelling).begin name with
    | (.error e, w) => ⟨.error (.io e), count.events, count.reader, w.sink⟩
    | (.ok (), w) =>
      let walk := count.reader.forEdges writeEdge w
      match walk.result with
      | .error f => ⟨.error f, count.events ++ walk.events, walk.reader, walk.state.sink⟩
      | .ok () =>
        let verdict := conclude options.counting declared walk.state
        ⟨verdict.1, count.events ++ walk.events ++ verdict.2.1, walk.reader, verdict.2.2⟩

/-- converts a text into a text -/
def convertText (name : Text) (options : Options) (input : Text) :
    Except Failure Text × List Event :=
  let t := convert name options (.ofText input) .unlimited
  (t.result.map fun _ => Text.decodeLossy t.sink.output, t.events)

def readEdgeList (input : Text) : Except Failure (Nat × EdgeList) × List Event :=
  let count := (LineReader.ofText input).readCount
  match count.result with
  | .error f => (.error f, count.events)
  | .ok declared =>
    let collected := (EdgeIterator.mk count.reader false).collect .empty
    (collected.1.map fun edges => (declared, edges), count.events ++ collected.2)

end EdgeDot
