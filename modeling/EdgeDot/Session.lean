import EdgeDot.Conversion

/-!
# Sessions with a reader

A session is a sequence of calls of one reader, each of which goes on where the one before
stopped, whatever came of that.

* `Session.Request.run`      one call
* `Session.Request.runAll`   calls one after the other
-/

namespace EdgeDot.Session

inductive Request where
  | readCount
  | readEdge
  /-- several calls of one iterator over the edges that are left -/
  | edges (calls : Nat)
  | convert (name : Text) (options : Options) (sink : Sink)

inductive Answer where
  | count (result : Except Failure Nat)
  | edge (result : Except Failure (Option Edge))
  | edges (items : List (Option (Except Failure Edge)))
  | conversion (result : Except Failure Totals) (output : Bytes)

/-- an answer, what was told with it, and the number of lines read by then -/
structure Entry where
  answer : Answer
  events : List Event
  row : Nat

def Request.run (r : LineReader) : Request → Entry × LineReader
  | .readCount =>
    let reading := r.readCount
    (⟨.count reading.result, reading.events, reading.reader.row⟩, reading.reader)
  | .readEdge =>
    let reading := r.readEdge
    (⟨.edge reading.result, reading.events, reading.reader.row⟩, reading.reader)
  | .edges calls =>
    let walk := (EdgeIterator.mk r false).nextMany calls
    (⟨.edges walk.1, walk.2.1, walk.2.2.reader.row⟩, walk.2.2.reader)
  | .convert name options sink =>
    let t := EdgeDot.convert name options r sink
    (⟨.conversion t.result t.sink.output, t.events, t.reader.row⟩, t.reader)

def Request.runAll (r : LineReader) : List Request → List Entry × LineReader
  | [] => ([], r)
  | request :: requests =>
    let first := request.run r
    let later := runAll first.2 requests
    (first.1 :: later.1, later.2)

end EdgeDot.Session
