import EdgeDot.Dot.Document

/-!
# Writing without bounds

Into a sink without a bound every write succeeds and appends its bytes, so a digraph that is
written statement by statement is the digraph as a text.

* `Dot.Writer.wrote`          a writer behind a write that succeeded
* `Dot.Writer.write_eq`, `Dot.Writer.edge_eq`, `Dot.Writer.finish_eq`   what the parts write
* `Dot.Document.write`        a digraph written statement by statement
* `Dot.Document.bytes_eq`     what is written is the digraph as a text
-/

namespace EdgeDot

theorem Sink.write_eq {s : Sink} (h : s.capacity = none) (bytes : Bytes) :
    s.write bytes = (.ok (), { s with written := s.written ++ bytes }) := by
  have hfit : s.fitting bytes = bytes := by rw [fitting, h]
  rw [write, hfit, if_pos rfl]

namespace Dot

/-- the closing brace and the line feed behind it -/
theorem encode_footer : footer.encode = [0x7D, 0x0A] := by decide

namespace Writer
variable {w : Writer}

/-- a writer behind a write that succeeded -/
def wrote (w : Writer) (s : Text) : Writer :=
  { w with sink := { w.sink with written := w.sink.written ++ s.encode } }

theorem output_wrote (w : Writer) (s : Text) :
    (w.wrote s).sink.output = w.sink.output ++ s.encode := by
  simp [wrote, Sink.output]

theorem write_eq (h : w.sink.capacity = none) (s : Text) : w.write s = (.ok (), w.wrote s) := by
  rw [write, Sink.write_eq h]
  rfl

theorem begin_eq (h : w.sink.capacity = none) (name : Text) :
    w.begin name = (.ok (), w.wrote (header w.spelling name)) := write_eq h _

/-- a writer behind an edge that was written whole -/
def wroteEdge (w : Writer) (e : Edge) : Writer :=
  { w.wrote (statement w.spelling e) with edgeCount := w.edgeCount + 1 }

theorem edge_eq (h : w.sink.capacity = none) (e : Edge) : w.edge e = (.ok (), w.wroteEdge e) := by
  rw [edge, write_eq h]
  rfl

theorem finish_eq (h : w.sink.capacity = none) :
    w.finish = (w.sink.flush, w.wrote footer) := by
  rw [finish, write_eq h]
  rfl

def wroteEdges (w : Writer) (edges : List Edge) : Writer := edges.foldl wroteEdge w

theorem wroteEdges_cons (w : Writer) (e : Edge) (edges : List Edge) :
    w.wroteEdges (e :: edges) = (w.wroteEdge e).wroteEdges edges := rfl

/-- behind several edges: what has changed and what has not -/
theorem wroteEdges_spec (w : Writer) (edges : List Edge) :
    (w.wroteEdges edges).sink.output =
        w.sink.output ++ Text.encode (edges.flatMap (statement w.spelling)) ∧
      (w.wroteEdges edges).edgeCount = w.edgeCount + edges.length ∧
      (w.wroteEdges edges).sink.capacity = w.sink.capacity ∧
      (w.wroteEdges edges).sink.flush = w.sink.flush := by
  induction edges generalizing w with
  | nil => exact ⟨(List.append_nil _).symm, rfl, rfl, rfl⟩
  | cons e edges ih =>
    obtain ⟨hout, hcount, hcap, hflush⟩ := ih (w.wroteEdge e)
    rw [wroteEdges_cons]
    refine ⟨?_, ?_, hcap, hflush⟩
    · have hfirst : (w.wroteEdge e).sink.output =
          w.sink.output ++ (statement w.spelling e).encode := output_wrote w _
      rw [hout, hfirst, List.append_assoc, ← Text.encode_append]
      rfl
    · rw [hcount]
      show w.edgeCount + 1 + edges.length = w.edgeCount + (edges.length + 1)
      omega

end Writer

/-! ## a whole digraph -/

namespace Document

/-- the calls that write a digraph -/
def calls (d : Document) : List Writer.Call := .begin d.name :: (d.edges.map .edge ++ [.finish])

/-- a digraph written statement by statement: what came of each call, and the writer after it -/
def write (spelling : Spelling) (d : Document) : List (Except IoError Unit × Writer) :=
  Writer.Call.runAll (.ofSink .unlimited spelling) d.calls

def bytes (spelling : Spelling) (d : Document) : Bytes :=
  match (d.write spelling).getLast? with
  | none => []
  | some made => made.2.sink.output

theorem runAll_begin (w : Writer) (name : Text) (calls : List Writer.Call) :
    Writer.Call.runAll w (.begin name :: calls) =
      w.begin name :: Writer.Call.runAll (w.begin name).2 calls := rfl
theorem runAll_edge (w : Writer) (e : Edge) (calls : List Writer.Call) :
    Writer.Call.runAll w (.edge e :: calls) =
      w.edge e :: Writer.Call.runAll (w.edge e).2 calls := rfl
theorem runAll_finish (w : Writer) : Writer.Call.runAll w [.finish] = [w.finish] := rfl

theorem getLast?_cons_of_eq_some {α : Type} {l : List α} {x : α} (h : l.getLast? = some x)
    (y : α) : (y :: l).getLast? = some x := by
  rw [List.getLast?_cons, h]
  rfl

theorem runAll_edges {w : Writer} (h : w.sink.capacity = none) (hf : w.sink.flush = .ok ())
    (edges : List Edge) :
    (∀ m ∈ Writer.Call.runAll w (edges.map .edge ++ [.finish]), m.1 = .ok ()) ∧
      (Writer.Call.runAll w (edges.map .edge ++ [.finish])).getLast? =
        some (.ok (), (w.wroteEdges edges).wrote footer) := by
  induction edges generalizing w with
  | nil =>
    rw [List.map_nil, List.nil_append, runAll_finish, Writer.finish_eq h, hf]
    exact ⟨fun m hm => by rw [List.mem_singleton.1 hm], rfl⟩
  | cons e edges ih =>
    obtain ⟨hok, hlast⟩ := @ih (w.wroteEdge e) h hf
    rw [List.map_cons, List.cons_append, runAll_edge, Writer.edge_eq h]
    refine ⟨List.forall_mem_cons.2 ⟨rfl, hok⟩, ?_⟩
    exact getLast?_cons_of_eq_some hlast _

/-- every call succeeds, and the last one leaves the whole digraph in the sink -/
theorem write_spec (spelling : Spelling) (d : Document) :
    (∀ m ∈ d.write spelling, m.1 = .ok ()) ∧
      (d.write spelling).getLast? = some (.ok (),
        ((((Writer.ofSink .unlimited spelling).wrote (header spelling d.name)).wroteEdges
          d.edges).wrote footer)) := by
  have hcap : (Writer.ofSink .unlimited spelling).sink.capacity = none := rfl
  obtain ⟨hok, hlast⟩ := runAll_edges (w := (Writer.ofSink .unlimited spelling).wrote
    (header spelling d.name)) rfl rfl d.edges
  rw [write, calls, runAll_begin, Writer.begin_eq hcap]
  refine ⟨List.forall_mem_cons.2 ⟨rfl, hok⟩, ?_⟩
  exact getLast?_cons_of_eq_some hlast _

/-- what is written is the digraph as a text -/
theorem bytes_eq (spelling : Spelling) (d : Document) :
    d.bytes spelling = (d.render spelling).encode := by
  have hedges := (Writer.wroteEdges_spec ((Writer.ofSink .unlimited spelling).wrote
    (header spelling d.name)) d.edges).1
  rw [bytes, (write_spec spelling d).2]
  show Sink.output _ = _
  rw [Writer.output_wrote, hedges, Writer.output_wrote]
  show ([] ++ _ ++ _ ++ _ : Bytes) = _
  rw [List.nil_append, ← Text.encode_append, ← Text.encode_append]
  rfl

end Document

end Dot

end EdgeDot
