import EdgeDot.Proofs.Line.Walking
import EdgeDot.Proofs.Token.ByteSplitter

/-!
# Reading with checks

A reader may keep no more of its splitter than the column and take the current line up again
there.  Here it is read in that way, by bytes, with every column and every slice checked; a call
has no answer if a check fails.  No check ever does: a call gives what it gives without them.

* `LineReader.tokens?`         the current line, taken up at the column
* `LineReader.Placed`          readers whose column is a good position of their line
* `LineReader.take?_eq`        a record off the current line
* `LineReader.readCount?_eq`, `LineReader.readEdge?_eq`, `LineReader.forEdges?_eq`   whole calls
* `EdgeIterator.nextMany?_eq`  edges one at a time
-/

namespace EdgeDot

namespace LineReader

/-! ## the current line -/

/-- the current line by its bytes, taken up at the column, if that is a good position of it -/
def tokens? (r : LineReader) : Option ByteSplitter :=
  let column := r.cursor.position
  if column ≤ r.line.byteLength ∧ r.line.isBoundary column = true then some ⟨r.line, column, true⟩
  else none

/-- the reader behind what was read of the current line, if every slice was legal -/
def leave? (r : LineReader) (tokens : ByteSplitter) : Option LineReader :=
  if tokens.legal = true then
    (Splitter.at? r.line tokens.position).map fun cursor => { r with cursor }
  else none

def take? {α : Type} (read : ByteSplitter → Except RecordError α × ByteSplitter)
    (r : LineReader) : Option (Except LocatedError α × LineReader) :=
  r.tokens?.bind fun tokens =>
    let record := read tokens
    (r.leave? record.2).map fun r => (record.1.mapError r.errorHere, r)

def expectEnd? (r : LineReader) : Option (Except LocatedError Unit × LineReader) :=
  r.tokens?.bind fun tokens =>
    let token := tokens.next
    (r.leave? token.2).map fun after =>
      match token.1 with
      | none => (.ok (), r)
      | some _ => (.error (after.errorHere .surplus), after)

def isAtEnd? (r : LineReader) : Option Bool :=
  r.tokens?.bind fun tokens =>
    let token := tokens.next
    (r.leave? token.2).map fun _ => token.1.isNone

/-! ## counts and edges -/

def readCount? (r : LineReader) : Option (Reading Nat) :=
  match r.advance with
  | (.error e, r) => some ⟨.error (.io e), [], r⟩
  | (.ok false, r) => some ⟨.error (.malformedCount (r.errorHere (.tooFew 1 0))), [], r⟩
  | (.ok true, r) =>
    (r.take? Count.read).bind fun
      | (.error e, r) => some ⟨.error (.malformedCount e), [], r⟩
      | (.ok count, r) =>
        r.expectEnd?.map fun
          | (.error e, r) => ⟨.error (.malformedCount e), [], r⟩
          | (.ok (), r) => ⟨.ok count, [], r⟩

def edgeOfLine? (r : LineReader) : Option (Reading (Option Edge)) :=
  (r.take? Edge.read).bind fun
    | (.error e, r) => some ⟨.error (.malformedEdge e), [], r⟩
    | (.ok e, r) => r.isAtEnd?.map fun atEnd =>
      ⟨.ok (some e), if atEnd then [] else [.ignoringTokens r.row], r⟩

def readEdge? (r : LineReader) : Option (Reading (Option Edge)) :=
  match _h : r.advance with
  | (.error e, r) => some ⟨.error (.io e), [], r⟩
  | (.ok false, r) => some ⟨.ok none, [], r⟩
  | (.ok true, line) =>
    if line.isBlank then line.readEdge?.map (Reading.after [.skippingEmptyLine line.row])
    else line.edgeOfLine?
termination_by r.source.lines.length
decreasing_by
  have := length_lines_advance_lt (congrArg Prod.fst _h)
  rwa [_h] at this

/-! ## readers whose column is good -/

/-- a reader whose column is a good position of its line -/
def Placed (r : LineReader) : Prop := r.cursor.On r.line

/-- a reader that has just read a line is at its front -/
theorem placed_of_advance {r r' : LineReader} (h : r.advance = (.ok true, r')) : r'.Placed := by
  rw [advance] at h
  split at h
  · cases h
  · cases h
  · cases h
    exact Splitter.On.ofText _

theorem leave?_eq {r : LineReader} {cursor : Splitter} (hc : cursor.On r.line) :
    r.leave? (.ofSplitter r.line cursor) = some { r with cursor } := by
  have hat : Splitter.at? r.line (ByteSplitter.ofSplitter r.line cursor).position = some cursor :=
    hc.at?_eq
  rw [leave?, hat]
  rfl

namespace Placed
variable {r : LineReader} (h : r.Placed)
include h

theorem tokens?_eq : r.tokens? = some (.ofSplitter r.line r.cursor) :=
  if_pos ⟨Text.le_byteLength_of_isBoundary h.isBoundary, h.isBoundary⟩

/-- a record off the current line, if it is read by bytes as it is by characters -/
theorem take?_eq {α : Type} {readBytes : ByteSplitter → Except RecordError α × ByteSplitter}
    {read : Splitter → Except RecordError α × Splitter}
    (hread : readBytes (.ofSplitter r.line r.cursor) =
      ((read r.cursor).1, .ofSplitter r.line (read r.cursor).2))
    (hlater : (read r.cursor).2.On r.line) :
    r.take? readBytes = some (r.take read) ∧ (r.take read).2.Placed := by
  refine ⟨?_, hlater⟩
  rw [take?, h.tokens?_eq, Option.bind_some, hread]
  dsimp only
  rw [leave?_eq hlater]
  rfl

theorem takeEdge?_eq :
    r.take? Edge.read = some (r.take Edge.read) ∧ (r.take Edge.read).2.Placed := by
  obtain ⟨hread, hlater⟩ := (ByteSplitter.streamMap r.line).edge h
  exact h.take?_eq hread hlater

theorem takeCount?_eq :
    r.take? Count.read = some (r.take Count.read) ∧ (r.take Count.read).2.Placed := by
  obtain ⟨hread, hlater⟩ := (ByteSplitter.streamMap r.line).count h
  exact h.take?_eq hread hlater

theorem expectEnd?_eq : r.expectEnd? = some r.expectEnd := by
  rw [expectEnd?, h.tokens?_eq, Option.bind_some, ByteSplitter.next_ofSplitter h]
  dsimp only
  rw [leave?_eq h.next, expectEnd]
  rcases r.cursor.next with ⟨_ | token, cursor⟩ <;> rfl

theorem isAtEnd?_eq : r.isAtEnd? = some r.cursor.isAtEnd := by
  rw [isAtEnd?, h.tokens?_eq, Option.bind_some, ByteSplitter.next_ofSplitter h]
  dsimp only
  rw [leave?_eq h.next]
  rfl

theorem edgeOfLine?_eq : r.edgeOfLine? = some r.edgeOfLine := by
  obtain ⟨htake, hplaced⟩ := h.takeEdge?_eq
  rw [edgeOfLine?, htake, Option.bind_some, edgeOfLine]
  rcases hr : r.take Edge.read with ⟨e | e, r'⟩
  · rfl
  · rw [hr] at hplaced
    dsimp only
    rw [hplaced.isAtEnd?_eq]
    rfl

end Placed

/-! ## whole calls -/

theorem readCount?_eq (r : LineReader) : r.readCount? = some r.readCount := by
  rw [readCount?, readCount]
  rcases h : r.advance with ⟨e | given, r₁⟩
  · rfl
  · cases given with
    | false => rfl
    | true =>
      obtain ⟨htake, hplaced⟩ := (placed_of_advance h).takeCount?_eq
      dsimp only
      rw [htake, Option.bind_some]
      rcases hr : r₁.take Count.read with ⟨e | n, r₂⟩
      · rfl
      · rw [hr] at hplaced
        dsimp only
        rw [hplaced.expectEnd?_eq]
        rcases r₂.expectEnd with ⟨e | u, r₃⟩ <;> rfl

theorem readEdge?_step (r : LineReader) : r.readEdge? =
    match r.advance with
    | (.error e, r) => some ⟨.error (.io e), [], r⟩
    | (.ok false, r) => some ⟨.ok none, [], r⟩
    | (.ok true, line) =>
      if line.isBlank then line.readEdge?.map (Reading.after [.skippingEmptyLine line.row])
      else line.edgeOfLine? := by
  rw [readEdge?]
  split <;> rename_i h <;> rw [h]

theorem readEdge?_eq (r : LineReader) : r.readEdge? = some r.readEdge := by
  fun_induction readEdge r with
  | case1 r e r' h => rw [readEdge?_step, h]
  | case2 r r' h => rw [readEdge?_step, h]
  | case3 r line h hblank ih =>
    rw [readEdge?_step, h]
    dsimp only
    rw [if_pos hblank, ih, Option.map_some]
  | case4 r line h hblank =>
    rw [readEdge?_step, h]
    dsimp only
    rw [if_neg hblank, (placed_of_advance h).edgeOfLine?_eq]

theorem length_lines_readEdge?_lt {r : LineReader} {reading : Reading (Option Edge)} {e : Edge}
    (h : r.readEdge? = some reading) (he : reading.result = .ok (some e)) :
    reading.reader.source.lines.length < r.source.lines.length := by
  rw [readEdge?_eq] at h
  cases h
  exact length_lines_readEdge_lt he

/-- hands the edges that are left to a consumer, reading them with checks -/
def forEdges? {σ : Type} (consume : σ → Edge → Except Failure Unit × σ) (state : σ)
    (r : LineReader) (earlier : Array Event := #[]) : Option (Walk σ) :=
  match _h : r.readEdge? with
  | none => none
  | some reading =>
    let events := earlier ++ reading.events
    match _he : reading.result with
    | .error f => some ⟨.error f, events.toList, state, reading.reader⟩
    | .ok none => some ⟨.ok (), events.toList, state, reading.reader⟩
    | .ok (some e) =>
      match consume state e with
      | (.error f, state) => some ⟨.error f, events.toList, state, reading.reader⟩
      | (.ok (), state) => forEdges? consume state reading.reader events
termination_by r.source.lines.length
decreasing_by exact length_lines_readEdge?_lt _h _he

theorem forEdges?_eq {σ : Type} (consume : σ → Edge → Except Failure Unit × σ) (state : σ)
    (r : LineReader) (earlier : Array Event) :
    r.forEdges? consume state earlier = some (r.forEdges consume state earlier) := by
  fun_induction forEdges? consume state r earlier with
  | case1 state r earlier h =>
    rw [readEdge?_eq] at h
    cases h
  | case2 state r earlier reading h events f he =>
    rw [readEdge?_eq] at h
    cases h
    have hevents : events.toList = earlier.toList ++ r.readEdge.events := Array.toList_appendList
    rw [forEdges_eq_of_earlier, he, hevents]
  | case3 state r earlier reading h events he =>
    rw [readEdge?_eq] at h
    cases h
    have hevents : events.toList = earlier.toList ++ r.readEdge.events := Array.toList_appendList
    rw [forEdges_eq_of_earlier, he, hevents]
  | case4 state r earlier reading h events e he f state' hc =>
    rw [readEdge?_eq] at h
    cases h
    have hevents : events.toList = earlier.toList ++ r.readEdge.events := Array.toList_appendList
    rw [forEdges_eq_of_earlier, he, hevents]
    dsimp only
    rw [hc]
  | case5 state r earlier reading h events e he state' hc ih =>
    rw [readEdge?_eq] at h
    cases h
    rw [ih, forEdges_eq_of_earlier consume state, he]
    dsimp only
    rw [hc]

end LineReader

/-! ## edges one at a time -/

namespace EdgeIterator

def next? (it : EdgeIterator) :
    Option (Option (Except Failure Edge) × List Event × EdgeIterator) :=
  if it.failed then some (none, [], it)
  else
    it.reader.readEdge?.map fun reading =>
      match reading.result with
      | .ok none => (none, reading.events, ⟨reading.reader, false⟩)
      | .ok (some e) => (some (.ok e), reading.events, ⟨reading.reader, false⟩)
      | .error f => (some (.error f), reading.events, ⟨reading.reader, true⟩)

def nextMany? (it : EdgeIterator) :
    Nat → Option (List (Option (Except Failure Edge)) × List Event × EdgeIterator)
  | 0 => some ([], [], it)
  | calls + 1 =>
    it.next?.bind fun first =>
      (first.2.2.nextMany? calls).map fun later =>
        (first.1 :: later.1, first.2.1 ++ later.2.1, later.2.2)

theorem next?_eq (it : EdgeIterator) : it.next? = some it.next := by
  rw [next?, next, LineReader.readEdge?_eq, Option.map_some]
  split <;> rfl

theorem nextMany?_eq (it : EdgeIterator) (calls : Nat) :
    it.nextMany? calls = some (it.nextMany calls) := by
  induction calls generalizing it with
  | zero => rfl
  | succ calls ih =>
    rw [nextMany?, next?_eq, Option.bind_some, ih]
    rfl

end EdgeIterator

end EdgeDot
