import EdgeDot.Conversion
import EdgeDot.Proofs.Line.Walking

/-!
# Readers further down

Two readers in front of the same lines, one of which has read `k` lines more, give the same,
with every row greater by `k`.  The lines that they are on and how far they read them do not
matter, since each call begins with the next line.

* `LineReader.Behind`                in front of the same lines, and `k` rows further down
* `LineReader.advance_of_behind`     the readers agree from the next line on
* `LineReader.readCount_of_behind`, `LineReader.readEdge_of_behind`,
  `LineReader.forEdges_of_behind`, `convert_of_behind`   the calls
-/

namespace EdgeDot

/-! ## rows further down -/

def LocatedError.shift (k : Nat) (e : LocatedError) : LocatedError := { e with row := e.row + k }

def Failure.shift (k : Nat) : Failure → Failure
  | .malformedCount e => .malformedCount (e.shift k)
  | .malformedEdge e => .malformedEdge (e.shift k)
  | f => f

def Event.shift (k : Nat) : Event → Event
  | .skippingEmptyLine row => .skippingEmptyLine (row + k)
  | .ignoringTokens row => .ignoringTokens (row + k)
  | e => e

def LineReader.shift (k : Nat) (r : LineReader) : LineReader := { r with row := r.row + k }

def Reading.shift {α : Type} (k : Nat) (reading : Reading α) : Reading α where
  result := reading.result.mapError (Failure.shift k)
  events := reading.events.map (Event.shift k)
  reader := reading.reader.shift k

theorem Reading.shift_after {α : Type} (k : Nat) (earlier : List Event) (reading : Reading α) :
    (reading.after earlier).shift k = (reading.shift k).after (earlier.map (Event.shift k)) := by
  rw [shift, after, after, List.map_append]
  rfl

namespace LineReader

/-- in front of the same lines, and `k` rows further down -/
structure Behind (k : Nat) (r r' : LineReader) : Prop where
  source : r'.source = r.source
  row : r'.row = r.row + k

variable {k : Nat} {r r' : LineReader}

theorem Behind.shift (k : Nat) (r : LineReader) : r.Behind k (r.shift k) := ⟨rfl, rfl⟩

/-- what a reader holds of its current line is gone with the next one -/
theorem advance_of_behind (h : r.Behind k r') :
    r'.advance = (r.advance.1, r.advance.2.shift k) := by
  have hrow : r'.row + 1 = r.row + 1 + k := by
    rw [h.row]
    omega
  rw [advance, advance, h.source, hrow]
  rcases r.source.next with ⟨e | line?, source⟩
  · rfl
  · cases line? <;> rfl

theorem take_shift {α : Type} (read : Splitter → Except RecordError α × Splitter)
    (r : LineReader) : (r.shift k).take read =
      ((r.take read).1.mapError (LocatedError.shift k), (r.take read).2.shift k) := by
  rw [take, take]
  show (((read r.cursor).1.mapError _ : Except LocatedError α), _) = _
  cases (read r.cursor).1 <;> rfl

theorem expectEnd_shift (r : LineReader) : (r.shift k).expectEnd =
    (r.expectEnd.1.mapError (LocatedError.shift k), r.expectEnd.2.shift k) := by
  have hcursor : (r.shift k).cursor = r.cursor := rfl
  rw [expectEnd, expectEnd, hcursor]
  rcases r.cursor.next with ⟨_ | token, cursor⟩ <;> rfl

theorem readCount_of_behind (h : r.Behind k r') : r'.readCount = r.readCount.shift k := by
  rw [readCount, readCount, advance_of_behind h]
  rcases r.advance with ⟨e | given, r₁⟩
  · rfl
  · cases given with
    | false => rfl
    | true =>
      dsimp only
      rw [take_shift]
      rcases r₁.take Count.read with ⟨e | n, r₂⟩
      · rfl
      · dsimp only [Except.mapError]
        rw [expectEnd_shift]
        rcases r₂.expectEnd with ⟨e | u, r₃⟩ <;> rfl

theorem edgeOfLine_shift (r : LineReader) : (r.shift k).edgeOfLine = r.edgeOfLine.shift k := by
  rw [edgeOfLine, edgeOfLine, take_shift]
  rcases r.take Edge.read with ⟨e | edge, r₁⟩
  · rfl
  · show (⟨.ok (some edge), if r₁.cursor.isAtEnd then [] else _, _⟩ : Reading (Option Edge)) = _
    dsimp only [Reading.shift]
    cases r₁.cursor.isAtEnd <;> rfl

theorem readEdge_of_behind (h : r.Behind k r') : r'.readEdge = r.readEdge.shift k := by
  fun_induction readEdge r generalizing r' with
  | case1 r e r₁ hr =>
    rw [readEdge_eq, advance_of_behind h, hr]
    rfl
  | case2 r r₁ hr =>
    rw [readEdge_eq, advance_of_behind h, hr]
    rfl
  | case3 r line hr hblank ih =>
    have hline : (line.shift k).isBlank = true := hblank
    rw [readEdge_eq, advance_of_behind h, hr]
    dsimp only
    rw [if_pos hline, ih (.shift k line), Reading.shift_after]
    rfl
  | case4 r line hr hblank =>
    have hline : ¬ (line.shift k).isBlank = true := hblank
    rw [readEdge_eq, advance_of_behind h, hr]
    dsimp only
    rw [if_neg hline, edgeOfLine_shift]

/-! ## walks -/

def Walk.shift {σ : Type} (k : Nat) (w : Walk σ) : Walk σ where
  result := w.result.mapError (Failure.shift k)
  events := w.events.map (Event.shift k)
  state := w.state
  reader := w.reader.shift k

theorem Walk.shift_after {σ : Type} (k : Nat) (earlier : List Event) (w : Walk σ) :
    (w.after earlier).shift k = (w.shift k).after (earlier.map (Event.shift k)) := by
  rw [shift, after, after, List.map_append]
  rfl

/-- a consumer whose failures have no row does not notice either -/
theorem forEdges_of_behind {σ : Type} {consume : σ → Edge → Except Failure Unit × σ}
    (hconsume : ∀ state e f, (consume state e).1 = .error f → f.shift k = f) {state : σ}
    (h : r.Behind k r') : r'.forEdges consume state = (r.forEdges consume state).shift k := by
  induction hn : r.source.lines.length using Nat.strongRecOn generalizing state r r' with
  | _ n ih =>
    rw [forEdges_eq, forEdges_eq consume state r, readEdge_of_behind h]
    dsimp only [Reading.shift]
    cases hresult : r.readEdge.result with
    | error f => rfl
    | ok e? =>
      cases e? with
      | none => rfl
      | some e =>
        dsimp only [Except.mapError]
        rcases hc : consume state e with ⟨f | u, state'⟩
        · have hfailure := hconsume state e f (congrArg Prod.fst hc)
          dsimp only [Walk.shift, Except.mapError]
          rw [hfailure]
        · have hlt := length_lines_readEdge_lt hresult
          rw [hn] at hlt
          dsimp only
          rw [ih _ hlt (.shift k _) rfl, Walk.shift_after]

end LineReader

/-! ## iterators and conversions -/

namespace EdgeIterator
variable {k : Nat} {it it' : EdgeIterator}

/-- an iterator over the same edges, `k` rows further down -/
structure Behind (k : Nat) (it it' : EdgeIterator) : Prop where
  reader : it.reader.Behind k it'.reader
  failed : it'.failed = it.failed

theorem next_of_behind (h : it.Behind k it') :
    it'.next.1 = it.next.1.map (Except.mapError (Failure.shift k)) ∧
      it'.next.2.1 = it.next.2.1.map (Event.shift k) ∧ it.next.2.2.Behind k it'.next.2.2 := by
  rw [next, next, h.failed]
  by_cases hfailed : it.failed = true
  · -- nothing is read any more: the readers stay related, but need not be shifts of each other
    rw [if_pos hfailed, if_pos hfailed]
    exact ⟨rfl, rfl, h⟩
  · rw [if_neg hfailed, if_neg hfailed, LineReader.readEdge_of_behind h.reader]
    dsimp only [Reading.shift]
    rcases it.reader.readEdge.result with f | e?
    · exact ⟨rfl, rfl, .shift k _, rfl⟩
    · cases e? <;> exact ⟨rfl, rfl, .shift k _, rfl⟩

theorem nextMany_of_behind (h : it.Behind k it') (calls : Nat) :
    (it'.nextMany calls).1 =
        (it.nextMany calls).1.map (Option.map (Except.mapError (Failure.shift k))) ∧
      (it'.nextMany calls).2.1 = (it.nextMany calls).2.1.map (Event.shift k) ∧
      (it.nextMany calls).2.2.Behind k (it'.nextMany calls).2.2 := by
  induction calls generalizing it it' with
  | zero => exact ⟨rfl, rfl, h⟩
  | succ calls ih =>
    obtain ⟨hitem, hevents, hnext⟩ := next_of_behind h
    obtain ⟨hitems, hmore, hlast⟩ := ih hnext
    rw [nextMany, nextMany]
    dsimp only
    rw [hitem, hevents, hitems, hmore, List.map_append]
    exact ⟨rfl, rfl, hlast⟩

end EdgeIterator

def Conversion.shift (k : Nat) (t : Conversion) : Conversion where
  result := t.result.mapError (Failure.shift k)
  events := t.events.map (Event.shift k)
  reader := t.reader.shift k
  sink := t.sink

theorem writeEdge_shift (k : Nat) (w : Dot.Writer) (e : Edge) (f : Failure)
    (h : (writeEdge w e).1 = .error f) : f.shift k = f := by
  dsimp only [writeEdge] at h
  cases hedge : (w.edge e).1 with
  | error cause =>
    rw [hedge] at h
    cases h
    rfl
  | ok u =>
    rw [hedge] at h
    cases h

theorem conclude_shift (k : Nat) (counting : Counting) (declared : Nat) (w : Dot.Writer) :
    (conclude counting declared w).1.mapError (Failure.shift k) =
        (conclude counting declared w).1 ∧
      (conclude counting declared w).2.1.map (Event.shift k) =
        (conclude counting declared w).2.1 := by
  rw [conclude]
  dsimp only
  split
  · exact ⟨rfl, rfl⟩
  · rcases w.finish with ⟨e | u, w'⟩
    · dsimp only
      split <;> exact ⟨rfl, rfl⟩
    · dsimp only
      split <;> exact ⟨rfl, rfl⟩

theorem convert_of_behind {k : Nat} {r r' : LineReader} (h : r.Behind k r') (name : Text)
    (options : Options) (sink : Sink) :
    convert name options r' sink = (convert name options r sink).shift k := by
  rw [convert, convert, LineReader.readCount_of_behind h]
  dsimp only [Reading.shift]
  cases r.readCount.result with
  | error f => rfl
  | ok declared =>
    dsimp only [Except.mapError]
    rcases (Dot.Writer.ofSink sink options.spelling).begin name with ⟨e | u, w⟩
    · rfl
    · dsimp only
      rw [LineReader.forEdges_of_behind (writeEdge_shift k) (.shift k _)]
      dsimp only [LineReader.Walk.shift]
      cases (r.readCount.reader.forEdges writeEdge w).result with
      | error f =>
        dsimp only [Except.mapError, Conversion.shift]
        rw [List.map_append]
      | ok u =>
        obtain ⟨hresult, hevents⟩ := conclude_shift k options.counting declared
          (r.readCount.reader.forEdges writeEdge w).state
        dsimp only [Except.mapError, Conversion.shift] at hresult ⊢
        rw [List.map_append, List.map_append, hevents, hresult]

end EdgeDot
