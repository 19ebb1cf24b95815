import EdgeDot.Proofs.Conversion.Grammar
import EdgeDot.Proofs.Dot.Filling
import EdgeDot.Proofs.Line.Lockstep

/-!
# Converting into a sink with a bound

A sink that is full cuts the digraph off where it is full, and the conversion fails with that,
whatever else it would have met later.  A sink that has room for the digraph changes nothing,
except that it may fail to flush a conversion that would have succeeded.

* `Conversion.boundedResult`   the result with a bound, from what comes of it without one
* `conclude_of_paced`, `conclude_of_overrun`   the last step
* `ofEdges_of_paced`, `ofEdges_of_overrun`   behind the header
* `convert_bounded`            the whole conversion
-/

namespace EdgeDot

open Dot

/-- the result of a conversion into a sink with room for `c` bytes, if without a bound it comes to
`result` and leaves `output` -/
def Conversion.boundedResult (c : Nat) (fullError : IoError) (flushError : Option IoError)
    (result : Except Failure Totals) (output : Bytes) : Except Failure Totals :=
  if c < output.length then .error (.io fullError)
  else
    match result with
    | .error f => .error f
    | .ok totals =>
      match flushError with
      | none => .ok totals
      | some e => .error (.io e)

open Conversion

section
variable {c : Nat} {fullError : IoError} {flushError : Option IoError}
  {result : Except Failure Totals} {output : Bytes}

theorem boundedResult_of_lt (h : c < output.length) :
    boundedResult c fullError flushError result output = .error (.io fullError) := if_pos h

theorem boundedResult_error (h : output.length ≤ c) (f : Failure) :
    boundedResult c fullError flushError (.error f) output = .error f :=
  if_neg (Nat.not_lt.2 h)

/-- if everything fits, only flushing is left to fail -/
theorem boundedResult_ok (h : output.length ≤ c) {sink : Sink}
    (hflush : sink.flushError = flushError) (totals : Totals) :
    boundedResult c fullError flushError (.ok totals) output =
      (sink.flush.mapError .io).map fun _ => totals := by
  have hfits : ¬ c < output.length := Nat.not_lt.2 h
  rw [Sink.flush, hflush]
  cases flushError with
  | none => exact if_neg hfits
  | some e => exact if_neg hfits

variable {v w : Writer}

/-! ## the verdict -/

theorem Sink.flush_of_neverFails {sink : Sink} (h : sink.flushError = none) :
    sink.flush = .ok () := by
  rw [flush, h]

theorem conclude_of_paced (h : Writer.Paced c fullError flushError v w) (counting : Counting)
    (declared : Nat) :
    let long := conclude counting declared v
    let short := conclude counting declared w
    short.2.2.output = long.2.2.output.take c ∧
      short.1 = boundedResult c fullError flushError long.1 long.2.2.output ∧
      short.2.1 = long.2.1 := by
  intro long short
  have hlong : long = _ :=
    conclude_eq h.unbounded (Sink.flush_of_neverFails h.neverFails) counting declared
  have hshort : short = conclude counting declared w := rfl
  rw [conclude, h.edgeCount] at hshort
  dsimp only at hshort
  by_cases wrong : v.edgeCount ≠ declared ∧ counting = .strict
  · rw [if_pos wrong] at hlong hshort
    rw [hlong, hshort]
    exact ⟨h.took.output, (boundedResult_error h.fits _).symm, rfl⟩
  · rw [if_neg wrong] at hlong hshort
    rw [Writer.finish] at hshort
    rcases h.write footer with ⟨w', hw, h'⟩ | ⟨w', hw, h'⟩
    · rw [hw] at hshort
      have hresult : boundedResult c fullError flushError (.ok ⟨declared, v.edgeCount⟩)
          (v.wrote footer).sink.output = _ := boundedResult_ok h'.fits h'.flush _
      rw [hlong, hresult, hshort]
      dsimp only
      rcases w'.sink.flush with e | u
      · exact ⟨h'.took.output, rfl, rfl⟩
      · exact ⟨h'.took.output, rfl, rfl⟩
    · rw [hw] at hshort
      rw [hlong, hshort]
      exact ⟨h'.output, (boundedResult_of_lt h'.exceeds).symm, rfl⟩

/-- behind the write that did not fit, no verdict makes up for it -/
theorem conclude_of_overrun (h : Writer.Overrun c v w) (counting : Counting) (declared : Nat) :
    let long := conclude counting declared v
    w.sink.output = long.2.2.output.take c ∧ c < long.2.2.output.length := by
  intro long
  have hlong : long = _ :=
    conclude_eq h.unbounded (Sink.flush_of_neverFails h.neverFails) counting declared
  split at hlong
  · rw [hlong]
    exact ⟨h.output, h.exceeds⟩
  · have hfooter := h.wrote footer
    rw [hlong]
    exact ⟨hfooter.output, hfooter.exceeds⟩

/-! ## behind the header -/

/-- a conversion behind the header -/
def Conversion.ofEdges (counting : Counting) (declared : Nat) (r : LineReader) (w : Writer) :
    Conversion :=
  let walk := r.forEdges writeEdge w
  match walk.result with
  | .error f => ⟨.error f, walk.events, walk.reader, walk.state.sink⟩
  | .ok () =>
    let last := conclude counting declared walk.state
    ⟨last.1, walk.events ++ last.2.1, walk.reader, last.2.2⟩

theorem convert_of_begin {r r' : LineReader} {declared : Nat}
    (hcount : r.readCount = ⟨.ok declared, [], r'⟩) {sink : Sink} {options : Options} {name : Text}
    (hbegin : (Writer.ofSink sink options.spelling).begin name = (.ok (), w)) :
    convert name options r sink = ofEdges options.counting declared r' w := by
  rw [convert, hcount]
  dsimp only
  rw [hbegin]
  rfl

theorem ofEdges_of_overrun (h : Writer.Overrun c v w) (counting : Counting) (declared : Nat)
    (r : LineReader) :
    let long := ofEdges counting declared r v
    w.sink.output = long.sink.output.take c ∧ c < long.sink.output.length := by
  intro long
  have hlong : long = ofEdges counting declared r v := rfl
  have hwalk : Writer.Overrun c (r.forEdges writeEdge v).state w :=
    LineReader.forEdges_invariant (P := (Writer.Overrun c · w))
      (fun v e h => by rw [writeEdge_eq h.unbounded]; exact h.wroteEdge e) h r
  rw [ofEdges] at hlong
  cases hresult : (r.forEdges writeEdge v).result with
  | error f =>
    rw [hresult] at hlong
    rw [hlong]
    exact ⟨hwalk.output, hwalk.exceeds⟩
  | ok u =>
    rw [hresult] at hlong
    rw [hlong]
    exact conclude_of_overrun hwalk counting declared

/-- what a walk of a conversion does, a bounded one does as long as it fits -/
theorem forEdges_of_paced (h : Writer.Paced c fullError flushError v w) (r : LineReader) :
    let long := r.forEdges writeEdge v
    let short := r.forEdges writeEdge w
    (short.result = long.result ∧ short.events = long.events ∧ short.reader = long.reader ∧
      Writer.Paced c fullError flushError long.state short.state) ∨
    (short.result = .error (.io fullError) ∧ short.events <+: long.events ∧
      Writer.Overrun c long.state short.state) := by
  refine LineReader.forEdges_of_lockstep (f := .io fullError) ?_ ?_ h r
  · intro v w e h
    refine ⟨v.wroteEdge e, writeEdge_eq h.unbounded e, ?_⟩
    rcases h.edge e with ⟨w', hw, h'⟩ | ⟨w', hw, h'⟩
    · exact .inl ⟨w', by rw [writeEdge, hw]; rfl, h'⟩
    · exact .inr ⟨w', by rw [writeEdge, hw]; rfl, h'⟩
  · intro v w e h
    rw [writeEdge_eq h.unbounded]
    exact h.wroteEdge e

theorem ofEdges_of_paced (h : Writer.Paced c fullError flushError v w) (counting : Counting)
    (declared : Nat) (r : LineReader) :
    let long := ofEdges counting declared r v
    let short := ofEdges counting declared r w
    short.sink.output = long.sink.output.take c ∧
      short.result = boundedResult c fullError flushError long.result long.sink.output ∧
      short.events <+: long.events := by
  intro long short
  have hlong : long = ofEdges counting declared r v := rfl
  have hshort : short = ofEdges counting declared r w := rfl
  rw [ofEdges] at hlong hshort
  rcases forEdges_of_paced h r with ⟨hresult, hevents, -, hpaced⟩ | ⟨hresult, hevents, hpast⟩
  · rw [hresult, hevents] at hshort
    cases hwalked : (r.forEdges writeEdge v).result with
    | error f =>
      rw [hwalked] at hlong hshort
      rw [hlong, hshort]
      exact ⟨hpaced.took.output, (boundedResult_error hpaced.fits f).symm, List.prefix_rfl⟩
    | ok u =>
      obtain ⟨hout, hverdict, htold⟩ := conclude_of_paced hpaced counting declared
      rw [hwalked] at hlong hshort
      rw [hlong, hshort]
      exact ⟨hout, hverdict, (List.prefix_append_right_inj _).2 (htold ▸ List.prefix_rfl)⟩
  · rw [hresult] at hshort
    cases hwalked : (r.forEdges writeEdge v).result with
    | error f =>
      rw [hwalked] at hlong
      rw [hlong, hshort]
      exact ⟨hpast.output, (boundedResult_of_lt hpast.exceeds).symm, hevents⟩
    | ok u =>
      obtain ⟨hout, hexceeds⟩ := conclude_of_overrun hpast counting declared
      rw [hwalked] at hlong
      rw [hlong, hshort]
      exact ⟨hout, (boundedResult_of_lt hexceeds).symm, hevents.trans (List.prefix_append _ _)⟩

end

/-! ## the whole conversion -/

/-- A sink with room for `c` bytes is left with the first `c` bytes of what the conversion writes
without a bound.  If that is more, the conversion fails as the sink does when it is full, also if
without a bound it fails later.  Otherwise it comes to the same, unless it succeeds and flushing
fails.  What is told is a part of what is told without a bound. -/
theorem convert_bounded (name : Text) (options : Options) (r : LineReader) (c : Nat)
    (fullError : IoError) (flushError : Option IoError) :
    let long := convert name options r .unlimited
    let short := convert name options r { capacity := some c, fullError, flushError }
    short.sink.output = long.sink.output.take c ∧
      short.result = boundedResult c fullError flushError long.result long.sink.output ∧
      short.events <+: long.events := by
  intro long short
  have hlong : long = convert name options r .unlimited := rfl
  have hshort : short = convert name options r { capacity := some c, fullError, flushError } := rfl
  cases hresult : r.readCount.result with
  | error f =>
    have hcount := LineReader.readCount_of_result hresult
    rw [convert_of_count_error hcount] at hlong hshort
    rw [hlong, hshort]
    exact ⟨List.take_nil.symm, (boundedResult_error (Nat.zero_le c) f).symm, List.prefix_rfl⟩
  | ok declared =>
    have hcount := LineReader.readCount_of_result hresult
    have hstart : Writer.Paced c fullError flushError (Writer.ofSink .unlimited options.spelling)
        (Writer.ofSink { capacity := some c, fullError, flushError } options.spelling) :=
      ⟨rfl, rfl, ⟨rfl, List.take_nil.symm⟩, Nat.zero_le c, rfl, rfl, rfl, rfl⟩
    rw [convert_of_begin hcount (Writer.begin_eq rfl name)] at hlong
    rcases hstart.write (header options.spelling name) with ⟨w, hw, hpaced⟩ | ⟨w, hw, hpast⟩
    · rw [convert_of_begin hcount hw] at hshort
      rw [hlong, hshort]
      exact ofEdges_of_paced hpaced options.counting declared r.readCount.reader
    · obtain ⟨hout, hexceeds⟩ :=
        ofEdges_of_overrun hpast options.counting declared r.readCount.reader
      have hbegin : (Writer.ofSink { capacity := some c, fullError, flushError }
          options.spelling).begin name = (.error fullError, w) := hw
      rw [convert, hcount] at hshort
      dsimp only at hshort
      rw [hbegin] at hshort
      rw [hlong, hshort]
      exact ⟨hout, (boundedResult_of_lt hexceeds).symm, List.nil_prefix⟩

end EdgeDot
