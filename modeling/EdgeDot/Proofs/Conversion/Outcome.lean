import EdgeDot.Proofs.Conversion.Agreement
import EdgeDot.Proofs.Conversion.Capacity
import EdgeDot.Proofs.Line.Reads

/-!
# What a conversion comes to

The lines that a reader has left settle a conversion into a sink that does not fail: the first is
the count's, and the ones behind it are taken up to the first fault.  Which lines are read depends
neither on the name of the digraph nor on the options.

* `EdgeLine.outcome_eq_ok_iff`   a walk succeeds if and only if no line is a fault
* `EdgeLine.edges`               the edges of lines without a fault
* `LineReader.linesAhead`, `LineReader.edgesAhead`   what is taken behind the count
* `convert_of_declared`          a conversion behind a count that could be read
* `readEdgeList_of_declared`     the edges of a text behind its count
* `convert_eq_ok`                a conversion that succeeds
* `reader_convert`               what a conversion reads
-/

namespace EdgeDot

open Dot Conversion

/-! ## walks to the end -/

theorem EdgeLine.outcome_eq_ok_iff (ending : Ending) (row : Nat) (lines : List Bytes) :
    outcome ending row lines = .ok () ↔
      (∀ line ∈ lines, isSound ending line = true) ∧ ending = .complete := by
  induction lines generalizing row with
  | nil =>
    cases ending with
    | complete => exact ⟨fun _ => ⟨nofun, rfl⟩, fun _ => rfl⟩
    | broken e => exact ⟨nofun, nofun⟩
  | cons line lines ih =>
    rw [List.forall_mem_cons]
    cases hsound : isSound ending line with
    | false =>
      rw [outcome_of_unsound hsound]
      exact ⟨nofun, fun h => nomatch h.1.1⟩
    | true =>
      rw [outcome_of_sound hsound, ih]
      exact ⟨fun h => ⟨⟨rfl, h.1⟩, h.2⟩, fun h => ⟨h.1.2, h.2⟩⟩

/-- the edges of lines, if none of them is a fault; the first stands in the given row -/
def EdgeLine.edges (row : Nat) (lines : List Bytes) : Except Failure (List Edge) :=
  (outcome .complete row lines).map fun _ => lines.filterMap edge?

theorem EdgeLine.edges_eq (row : Nat) (lines : List Bytes) :
    edges row lines = (outcome .complete row lines).map fun _ =>
      (lines.takeWhile (isSound .complete)).filterMap edge? := by
  rw [edges]
  cases houtcome : outcome .complete row lines with
  | error f => rfl
  | ok u =>
    have hsound := ((outcome_eq_ok_iff .complete row lines).1 houtcome).1
    rw [List.takeWhile_eq_self_iff.2 hsound]

theorem EdgeLine.edges_of_sound {lines : List Bytes}
    (h : ∀ line ∈ lines, isSound .complete line = true) (row : Nat) :
    edges row lines = .ok (lines.filterMap edge?) := by
  rw [edges, (outcome_eq_ok_iff .complete row lines).2 ⟨h, rfl⟩]
  rfl

namespace LineReader

/-- the lines behind the next one, up to the first fault -/
def linesAhead (r : LineReader) : List Bytes :=
  r.source.lines.tail.takeWhile (EdgeLine.isSound r.source.ending)

/-- the edges of these lines, in order and with duplicates -/
def edgesAhead (r : LineReader) : List Edge := r.linesAhead.filterMap EdgeLine.edge?

/-- how a walk over the lines behind the next one ends -/
def outcomeAhead (r : LineReader) : Except Failure Unit :=
  EdgeLine.outcome r.source.ending (r.row + 2) r.source.lines.tail

theorem outcomeAhead_eq_ok_iff (r : LineReader) :
    r.outcomeAhead = .ok () ↔
      (∀ line ∈ r.source.lines.tail, EdgeLine.isSound r.source.ending line = true) ∧
        r.source.ending = .complete :=
  EdgeLine.outcome_eq_ok_iff _ _ _

/-- a count takes one line, if one is left -/
theorem source_readCount_eq (r : LineReader) :
    r.readCount.reader.source = ⟨r.source.lines.tail, r.source.ending⟩ ∧
      r.readCount.reader.row = r.row + 1 := by
  obtain ⟨hsource, hrow⟩ := r.source_readCount
  rw [source_advance] at hsource
  rw [row_advance] at hrow
  refine ⟨?_, hrow⟩
  rw [hsource, ← Source.lines_next, ← Source.ending_next]

/-! ## walks of two consumers that do not fail -/

variable {σ τ : Type}

/-- consumers that do not fail make no difference to a walk -/
theorem forEdges_of_unfailing {first : σ → Edge → Except Failure Unit × σ}
    {second : τ → Edge → Except Failure Unit × τ} {P : σ → Prop} {Q : τ → Prop}
    (hfirst : ∀ s e, P s → ∃ s', first s e = (.ok (), s') ∧ P s')
    (hsecond : ∀ t e, Q t → ∃ t', second t e = (.ok (), t') ∧ Q t') {s : σ} {t : τ} (hs : P s)
    (ht : Q t) (r : LineReader) :
    (r.forEdges first s).result = (r.forEdges second t).result ∧
      (r.forEdges first s).events = (r.forEdges second t).events ∧
      (r.forEdges first s).reader = (r.forEdges second t).reader := by
  -- neither consumer ever stops, so the walks never part
  have hpace : ∀ t s e, Q t ∧ P s → ∃ t', second t e = (.ok (), t') ∧
      ((∃ s', first s e = (.ok (), s') ∧ Q t' ∧ P s') ∨
        ∃ s', first s e = (.error (.io .writeZero), s') ∧ False) := by
    intro t s e h
    obtain ⟨t', hsecond, ht'⟩ := hsecond t e h.1
    obtain ⟨s', hfirst, hs'⟩ := hfirst s e h.2
    exact ⟨t', hsecond, .inl ⟨s', hfirst, ht', hs'⟩⟩
  rcases forEdges_of_lockstep hpace (fun _ _ _ => False.elim) ⟨ht, hs⟩ r
    with ⟨hresult, hevents, hreader, -⟩ | ⟨-, -, hpast⟩
  · exact ⟨hresult, hevents, hreader⟩
  · exact hpast.elim

end LineReader

/-! ## conversions -/

variable {r : LineReader} {declared : Nat}

/-- a conversion behind a count that could be read, into a sink that does not fail -/
theorem convert_of_declared (h : r.readCount.result = .ok declared) (name : Text)
    (options : Options) :
    let t := convert name options r .unlimited
    let result := verdict options.counting declared r.edgesAhead.length r.outcomeAhead
    t.result = result ∧
    t.sink.output = (written options.spelling name r.edgesAhead result).encode ∧
    t.events = EdgeLine.allEvents (r.row + 2) r.linesAhead ++ lastEvents result ∧
    t.reader.source =
      ⟨(r.source.lines.tail.dropWhile (EdgeLine.isSound r.source.ending)).tail, r.source.ending⟩ ∧
    t.reader.row = r.row + 2 + r.linesAhead.length := by
  obtain ⟨hsource, hrow⟩ := r.source_readCount_eq
  have hcount := convert_of_count (LineReader.readCount_of_result h) hsource name options
  rw [hrow] at hcount
  exact hcount

/-- a conversion whose count could not be read -/
theorem convert_of_undeclared {f : Failure} (h : r.readCount.result = .error f) (name : Text)
    (options : Options) (sink : Sink) :
    convert name options r sink = ⟨.error f, [], r.readCount.reader, sink⟩ :=
  convert_of_count_error (LineReader.readCount_of_result h) name options sink

/-- what is read from a text behind a count that could be read: the edges of the later lines -/
theorem readEdgeList_of_declared {input : Text}
    (h : (LineReader.ofText input).readCount.result = .ok declared) :
    (readEdgeList input).1 =
      (EdgeLine.edges 2 (LineReader.ofText input).source.lines.tail).map fun edges =>
        (declared, .ofList edges) := by
  obtain ⟨hsource, hrow⟩ := (LineReader.ofText input).source_readCount_eq
  rw [readEdgeList_of_count (LineReader.readCount_of_result h) hsource, hrow, EdgeLine.edges_eq]
  show (EdgeLine.outcome .complete 2 _).map _ = _
  cases EdgeLine.outcome .complete 2 (LineReader.ofText input).source.lines.tail <;> rfl

theorem eq_of_verdict {counting : Counting} {found : Nat} {walked : Except Failure Unit}
    {totals : Totals} (h : verdict counting declared found walked = .ok totals) :
    walked = .ok () ∧ totals = ⟨declared, found⟩ := by
  cases walked with
  | error f => cases h
  | ok u =>
    rw [verdict] at h
    split at h
    · cases h
    · exact ⟨rfl, (Except.ok.inj h).symm⟩

/-- a conversion that succeeds has met no fault and has written the digraph of all edges -/
theorem convert_eq_ok {name : Text} {options : Options} {totals : Totals}
    (h : (convert name options r .unlimited).result = .ok totals) :
    r.edgesAhead = r.source.lines.tail.filterMap EdgeLine.edge? ∧
      (∀ line ∈ r.source.lines.tail, EdgeLine.isSound r.source.ending line = true) ∧
      r.source.ending = .complete ∧ totals.edges = r.edgesAhead.length ∧
      (convert name options r .unlimited).sink.output =
        (document options.spelling name r.edgesAhead).encode := by
  cases hcount : r.readCount.result with
  | error f =>
    rw [convert_of_undeclared hcount] at h
    cases h
  | ok declared =>
    obtain ⟨hresult, hout, -⟩ := convert_of_declared hcount name options
    rw [← hresult, h] at hout
    rw [h] at hresult
    obtain ⟨hwalked, rfl⟩ := eq_of_verdict hresult.symm
    obtain ⟨hsound, hending⟩ := r.outcomeAhead_eq_ok_iff.1 hwalked
    have hall : r.linesAhead = r.source.lines.tail := List.takeWhile_eq_self_iff.2 hsound
    refine ⟨?_, hsound, hending, rfl, hout⟩
    rw [LineReader.edgesAhead, hall]

/-! ## what is read -/

theorem reader_ofEdges (counting : Counting) (declared : Nat) (r : LineReader) (w : Writer) :
    (ofEdges counting declared r w).reader = (r.forEdges writeEdge w).reader := by
  rw [ofEdges]
  rcases (r.forEdges writeEdge w).result with f | u <;> rfl

/-- what a conversion reads depends neither on the name nor on the options -/
theorem reader_convert (name name' : Text) (options options' : Options) (r : LineReader) :
    (convert name options r .unlimited).reader = (convert name' options' r .unlimited).reader := by
  cases hcount : r.readCount.result with
  | error f => rw [convert_of_undeclared hcount, convert_of_undeclared hcount]
  | ok declared =>
    have hread := LineReader.readCount_of_result hcount
    have hstep : ∀ (w : Writer) (e : Edge), w.sink.capacity = none →
        ∃ w', writeEdge w e = (.ok (), w') ∧ w'.sink.capacity = none :=
      fun w e h => ⟨w.wroteEdge e, writeEdge_eq h e, h⟩
    rw [convert_of_begin hread (Writer.begin_eq rfl name), reader_ofEdges,
      convert_of_begin hread (Writer.begin_eq rfl name'), reader_ofEdges]
    exact (LineReader.forEdges_of_unfailing hstep hstep rfl rfl _).2.2

end EdgeDot
