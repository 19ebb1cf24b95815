import EdgeDot.Dot.Name
import EdgeDot.Edge
import EdgeDot.Sink

/-!
# Writing a digraph

A digraph is written one statement at a time: a header with its name, a statement for each edge,
a closing brace.  The writer counts the edges that it wrote whole.

* `Dot.document`           a digraph as a text
* `Dot.Writer.begin`, `Dot.Writer.edge`, `Dot.Writer.finish`   its parts on their way into a sink
* `Dot.Writer.Call.runAll` any sequence of these
-/

namespace EdgeDot.Dot

/-! ## the statements as texts -/

def header (spelling : Spelling) (name : Text) : Text :=
  "digraph ".toList ++ spelling.render name ++ " \x7b\n".toList

def statement (spelling : Spelling) (e : Edge) : Text :=
  "\t".toList ++ spelling.render e.source ++ " -> ".toList ++ spelling.render e.target ++
    ";\n".toList

def footer : Text := "\x7d\n".toList

def document (spelling : Spelling) (name : Text) (edges : List Edge) : Text :=
  header spelling name ++ edges.flatMap (statement spelling) ++ footer

/-! ## the writer -/

structure Writer where
  sink : Sink
  spelling : Spelling
  edgeCount : Nat := 0

namespace Writer

def ofSink (sink : Sink) (spelling : Spelling) : Writer := { sink, spelling }

/-- writes a text, as much of it as fits -/
def write (w : Writer) (s : Text) : Except IoError Unit × Writer :=
  let written := w.sink.write s.encode
  (written.1, { w with sink := written.2 })

def begin (w : Writer) (name : Text) : Except IoError Unit × Writer :=
  w.write (header w.spelling name)

def edge (w : Writer) (e : Edge) : Except IoError Unit × Writer :=
  match w.write (statement w.spelling e) with
  | (.ok (), w) => (.ok (), { w with edgeCount := w.edgeCount + 1 })
  | (.error e, w) => (.error e, w)

/-- writes the closing brace and flushes the sink -/
def finish (w : Writer) : Except IoError Unit × Writer :=
  match w.write footer with
  | (.ok (), w) => (w.sink.flush, w)
  | (.error e, w) => (.error e, w)

/-! ## calls one after the other -/

inductive Call where
  | begin (name : Text)
  | edge (e : Edge)
  | finish

def Call.run (w : Writer) : Call → Except IoError Unit × Writer
  | .begin name => w.begin name
  | .edge e => w.edge e
  | .finish => w.finish

/-- makes calls in order, also behind failed ones: what came of each, and the writer after it;
finishing is the last call -/
def Call.runAll (w : Writer) : List Call → List (Except IoError Unit × Writer)
  | [] => []
  | .finish :: _ => [w.finish]
  | call :: calls =>
    let made := call.run w
    made :: runAll made.2 calls

end Writer

end EdgeDot.Dot
