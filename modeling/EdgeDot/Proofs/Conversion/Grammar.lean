import EdgeDot.Conversion
import EdgeDot.Proofs.Dot.Writing
import EdgeDot.Proofs.Line.Walking

/-!
# What a conversion accepts

A conversion accepts a count and lines that are sound, and stops at the first line that is not.
What it has written by then is the header and the statements of the edges before that line.

* `conclude_eq`           the verdict on the number of edges
* `convert_of_count`      a conversion behind its count
* `convert_ofBytes`       a conversion of some bytes, told by their lines
-/

namespace EdgeDot

open Dot

/-! ## behind the count -/

namespace Conversion

/-- the result of a conversion that walked over the edges and found some number of them -/
def verdict (counting : Counting) (declared found : Nat) (walked : Except Failure Unit) :
    Except Failure Totals :=
  match walked with
  | .error f => .error f
  | .ok () =>
    if found ≠ declared ∧ counting = .strict then .error (.wrongCount declared found)
    else .ok ⟨declared, found⟩

/-- what a conversion writes before the closing brace -/
def body (spelling : Spelling) (name : Text) (edges : List Edge) : Text :=
  header spelling name ++ edges.flatMap (statement spelling)

/-- what a conversion has written in the end: the whole digraph only if it succeeded -/
def written (spelling : Spelling) (name : Text) (edges : List Edge) :
    Except Failure Totals → Text
  | .error _ => body spelling name edges
  | .ok _ => document spelling name edges

/-- what a conversion tells in the end -/
def lastEvents : Except Failure Totals → List Event
  | .error _ => []
  | .ok totals =>
    if totals.edges = totals.declared then [] else [.countDiffers totals.declared totals.edges]

/-- the writer behind the header and some edges -/
def writer (spelling : Spelling) (name : Text) (edges : List Edge) : Writer :=
  ((Writer.ofSink .unlimited spelling).wrote (header spelling name)).wroteEdges edges

theorem writer_spec (spelling : Spelling) (name : Text) (edges : List Edge) :
    (writer spelling name edges).sink.output = (body spelling name edges).encode ∧
      (writer spelling name edges).edgeCount = edges.length ∧
      (writer spelling name edges).sink.capacity = none ∧
      (writer spelling name edges).sink.flush = .ok () := by
  obtain ⟨hout, hcount, hcap, hflush⟩ := Writer.wroteEdges_spec
    ((Writer.ofSink .unlimited spelling).wrote (header spelling name)) edges
  refine ⟨?_, hcount.trans (Nat.zero_add _), hcap, hflush⟩
  rw [writer, hout, Writer.output_wrote, body, Text.encode_append]
  rfl

end Conversion

open Conversion

theorem conclude_eq {w : Writer} (hcap : w.sink.capacity = none) (hflush : w.sink.flush = .ok ())
    (counting : Counting) (declared : Nat) :
    conclude counting declared w =
      if w.edgeCount ≠ declared ∧ counting = .strict then
        (.error (.wrongCount declared w.edgeCount), [], w.sink)
      else (.ok ⟨declared, w.edgeCount⟩,
        if w.edgeCount = declared then [] else [.countDiffers declared w.edgeCount],
        (w.wrote footer).sink) := by
  rw [conclude, Writer.finish_eq hcap, hflush]

theorem writeEdge_eq {w : Writer} (h : w.sink.capacity = none) (e : Edge) :
    writeEdge w e = (.ok (), w.wroteEdge e) := by
  rw [writeEdge, Writer.edge_eq h]
  rfl

/-- a conversion behind its count, into a sink without a bound -/
theorem convert_of_count {r r' : LineReader} {declared : Nat} {later : List Bytes}
    {ending : Ending} (hcount : r.readCount = ⟨.ok declared, [], r'⟩)
    (hs : r'.source = ⟨later, ending⟩) (name : Text) (options : Options) :
    let good := later.takeWhile (EdgeLine.isSound ending)
    let edges := good.filterMap EdgeLine.edge?
    let t := convert name options r .unlimited
    let result := verdict options.counting declared edges.length
      (EdgeLine.outcome ending (r'.row + 1) later)
    t.result = result ∧
    t.sink.output = (written options.spelling name edges result).encode ∧
    t.events = EdgeLine.allEvents (r'.row + 1) good ++ lastEvents result ∧
    t.reader.source = ⟨(later.dropWhile (EdgeLine.isSound ending)).tail, ending⟩ ∧
    t.reader.row = r'.row + 1 + good.length := by
  intro good edges t result
  have hbegin : (Writer.ofSink .unlimited options.spelling).begin name =
      (.ok (), (Writer.ofSink .unlimited options.spelling).wrote
        (header options.spelling name)) := Writer.begin_eq rfl name
  obtain ⟨r'', hsource, hrow, hwalk⟩ := LineReader.forEdges_spec
    (P := fun w : Writer => w.sink.capacity = none)
    (fun w e hcap => ⟨writeEdge_eq hcap e, hcap⟩)
    (rfl : ((Writer.ofSink .unlimited options.spelling).wrote
      (header options.spelling name)).sink.capacity = none) hs
  obtain ⟨hout, hfound, hcap, hflush⟩ := writer_spec options.spelling name edges
  -- no write fails, so only the walk and the count are left to decide
  have hconvert : t = match EdgeLine.outcome ending (r'.row + 1) later with
      | .error f => ⟨.error f, EdgeLine.allEvents (r'.row + 1) good, r'',
          (writer options.spelling name edges).sink⟩
      | .ok () =>
        let last := conclude options.counting declared (writer options.spelling name edges)
        ⟨last.1, EdgeLine.allEvents (r'.row + 1) good ++ last.2.1, r'', last.2.2⟩ := by
    show convert name options r .unlimited = _
    rw [convert, hcount]
    dsimp only
    rw [hbegin]
    dsimp only
    rw [hwalk]
    cases EdgeLine.outcome ending (r'.row + 1) later <;> rfl
  cases hwalked : EdgeLine.outcome ending (r'.row + 1) later with
  | error f =>
    have hresult : result = .error f := by
      show verdict _ _ _ _ = _
      rw [hwalked, verdict]
    rw [hwalked] at hconvert
    rw [hconvert, hresult]
    exact ⟨rfl, hout, (List.append_nil _).symm, hsource, hrow⟩
  | ok u =>
    rw [hwalked, conclude_eq hcap hflush, hfound] at hconvert
    by_cases hstrict : edges.length ≠ declared ∧ options.counting = .strict
    · have hresult : result = .error (.wrongCount declared edges.length) := by
        show verdict _ _ _ _ = _
        rw [hwalked, verdict, if_pos hstrict]
      rw [if_pos hstrict] at hconvert
      rw [hconvert, hresult]
      exact ⟨rfl, hout, rfl, hsource, hrow⟩
    · have hresult : result = .ok ⟨declared, edges.length⟩ := by
        show verdict _ _ _ _ = _
        rw [hwalked, verdict, if_neg hstrict]
      rw [if_neg hstrict] at hconvert
      rw [hconvert, hresult]
      refine ⟨rfl, ?_, rfl, hsource, hrow⟩
      dsimp only
      rw [Writer.output_wrote, hout, ← Text.encode_append]
      rfl

/-! ## from the first line -/

theorem convert_of_count_error {r r' : LineReader} {f : Failure}
    (hcount : r.readCount = ⟨.error f, [], r'⟩) (name : Text) (options : Options) (sink : Sink) :
    convert name options r sink = ⟨.error f, [], r', sink⟩ := by
  rw [convert, hcount]

theorem outcome_complete (row : Nat) (lines : List Bytes) :
    EdgeLine.outcome .complete row lines =
      match lines.dropWhile (EdgeLine.isSound .complete) with
      | [] => .ok ()
      | bad :: _ => .error
        (EdgeLine.failure .complete
          (row + (lines.takeWhile (EdgeLine.isSound .complete)).length) bad) := by
  rw [EdgeLine.outcome]
  rfl

/-- A conversion of some bytes into a sink that does not fail.  Without a count on the first line
nothing is written.  Behind it the first line that is not sound decides, and what is written are
the header and one line for each edge before that line; if there is none, the count does, and
unless it fails the conversion a closing brace is written last. -/
theorem convert_ofBytes (input : Bytes) (name : Text) (options : Options) :
    let t := convert name options (.ofBytes input) .unlimited
    let spelled := options.spelling.render
    let begun := "digraph ".toList ++ spelled name ++ " \x7b\n".toList
    let edgeLine := fun e : Edge =>
      "\t".toList ++ spelled e.source ++ " -> ".toList ++ spelled e.target ++ ";\n".toList
    match splitLines input with
    | [] => t.result = .error (.malformedCount ⟨.tooFew 1 0, [], 1, 0⟩) ∧ t.sink.output = []
    | first :: later =>
      match Text.decode? first with
      | none => t.result = .error (.io .invalidText) ∧ t.sink.output = []
      | some text =>
        match Count.ofLine (lineTokens first) with
        | .error cause =>
          (∃ column, t.result = .error (.malformedCount ⟨cause, text, 1, column⟩)) ∧
            t.sink.output = []
        | .ok declared =>
          let good := later.takeWhile (EdgeLine.isSound .complete)
          let edges := good.filterMap EdgeLine.edge?
          match later.dropWhile (EdgeLine.isSound .complete) with
          | bad :: _ =>
            t.result = .error (match Text.decode? bad with
              | none => .io .invalidText
              | some text => .malformedEdge
                ⟨.tooFew 2 (lineTokens bad).length, text, 2 + good.length, text.byteLength⟩) ∧
            t.sink.output = Text.encode (begun ++ edges.flatMap edgeLine)
          | [] =>
            if edges.length ≠ declared ∧ options.counting = .strict then
              t.result = .error (.wrongCount declared edges.length) ∧
                t.sink.output = Text.encode (begun ++ edges.flatMap edgeLine)
            else
              t.result = .ok ⟨declared, edges.length⟩ ∧
                t.sink.output =
                  Text.encode (begun ++ edges.flatMap edgeLine ++ "\x7d\n".toList) := by
  intro t spelled begun edgeLine
  have hbody (edges : List Edge) :
      body options.spelling name edges = begun ++ edges.flatMap edgeLine := rfl
  have hdocument (edges : List Edge) : document options.spelling name edges =
      begun ++ edges.flatMap edgeLine ++ "\x7d\n".toList := rfl
  cases hlines : splitLines input with
  | nil =>
    have hs : (LineReader.ofBytes input).source = ⟨[], .complete⟩ :=
      congrArg (Source.mk · .complete) hlines
    have ht : t = _ := convert_of_count_error (LineReader.readCount_of_nil hs) name options _
    rw [ht]
    exact ⟨rfl, rfl⟩
  | cons first later =>
    have hs : (LineReader.ofBytes input).source = ⟨first :: later, .complete⟩ :=
      congrArg (Source.mk · .complete) hlines
    have htext := Ending.text_complete first
    dsimp only
    cases hdecode : Text.decode? first with
    | none =>
      rw [hdecode] at htext
      have ht : t = _ :=
        convert_of_count_error (LineReader.readCount_of_error hs htext) name options _
      rw [ht]
      exact ⟨rfl, rfl⟩
    | some text =>
      rw [hdecode] at htext
      obtain ⟨column, r', hsource, hrow, hread⟩ := LineReader.readCount_of_text hs htext
      dsimp only
      cases hcount : Count.ofLine (lineTokens first) with
      | error cause =>
        rw [hcount] at hread
        have ht : t = _ := convert_of_count_error hread name options _
        rw [ht]
        exact ⟨⟨column, rfl⟩, rfl⟩
      | ok declared =>
        rw [hcount] at hread
        obtain ⟨hresult, hout, -⟩ := convert_of_count hread hsource name options
        have hrow : r'.row + 1 = 2 := by
          rw [hrow]
          rfl
        rw [hrow, outcome_complete] at hresult hout
        dsimp only
        cases hbad : later.dropWhile (EdgeLine.isSound .complete) with
        | cons bad rest =>
          rw [hbad] at hresult hout
          refine ⟨?_, hout.trans (congrArg Text.encode (hbody _))⟩
          refine hresult.trans ?_
          show Except.error (EdgeLine.failure _ _ _) = _
          rw [EdgeLine.failure, Ending.text_complete]
          cases Text.decode? bad <;> rfl
        | nil =>
          rw [hbad] at hresult hout
          dsimp only [verdict] at hresult hout ⊢
          split
          next h =>
            rw [if_pos h] at hresult hout
            exact ⟨hresult, hout.trans (congrArg Text.encode (hbody _))⟩
          next h =>
            rw [if_neg h] at hresult hout
            exact ⟨hresult, hout.trans (congrArg Text.encode (hdocument _))⟩

end EdgeDot
