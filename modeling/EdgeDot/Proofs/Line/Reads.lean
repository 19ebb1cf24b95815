import Mathlib.Data.List.ReduceOption
import EdgeDot.Conversion
import EdgeDot.Proofs.Line.Walking

/-!
# What a call reads

Each call of a reader asks its source for lines, one after the other, and at the end of the data
it asks in vain.  The reads of a call are listed here as the call makes them, each with the line
that it took, and what is left after them is what the call leaves.

* `LineReader.readsOfEdge`, `LineReader.readsOfWalk`, `EdgeIterator.reads`, `readsOfConversion`
  the reads of a call
* `LineReader.Consumes`               what some reads leave
* `LineReader.consumes_readEdge` and the like   a call leaves what its reads leave
* `LineReader.readsOfEdge_eq_append`  an edge takes empty lines and at most one more
-/

namespace EdgeDot

namespace LineReader

/-- the line that the next read takes; none at the end of the data -/
def nextLine? (r : LineReader) : Option Bytes := r.source.lines.head?

/-- the reads of `readEdge` -/
def readsOfEdge (r : LineReader) : List (Option Bytes) :=
  match _h : r.advance with
  | (.error _, _) => [r.nextLine?]
  | (.ok false, _) => [r.nextLine?]
  | (.ok true, line) =>
    if line.isBlank then r.nextLine? :: line.readsOfEdge else [r.nextLine?]
termination_by r.source.lines.length
decreasing_by
  have := length_lines_advance_lt (congrArg Prod.fst _h)
  rwa [_h] at this

/-- the reads of `forEdges` -/
def readsOfWalk {σ : Type} (consume : σ → Edge → Except Failure Unit × σ) (state : σ)
    (r : LineReader) : List (Option Bytes) :=
  match _h : r.readEdge.result with
  | .error _ => r.readsOfEdge
  | .ok none => r.readsOfEdge
  | .ok (some e) =>
    match consume state e with
    | (.error _, _) => r.readsOfEdge
    | (.ok (), state) => r.readsOfEdge ++ r.readEdge.reader.readsOfWalk consume state
termination_by r.source.lines.length
decreasing_by exact length_lines_readEdge_lt _h

end LineReader

/-- the reads of `EdgeIterator.next` -/
def EdgeIterator.reads (it : EdgeIterator) : List (Option Bytes) :=
  if it.failed then [] else it.reader.readsOfEdge

theorem EdgeIterator.next_of_failed {it : EdgeIterator} (h : it.failed = true) :
    it.next = (none, [], it) := if_pos h

/-- the reads of `EdgeIterator.nextMany` -/
def EdgeIterator.readsOfMany (it : EdgeIterator) : Nat → List (Option Bytes)
  | 0 => []
  | calls + 1 => it.reads ++ it.next.2.2.readsOfMany calls

/-- the reads of `convert` -/
def readsOfConversion (name : Text) (options : Options) (r : LineReader) (sink : Sink) :
    List (Option Bytes) :=
  match r.readCount.result with
  | .error _ => [r.nextLine?]
  | .ok _ =>
    match (Dot.Writer.ofSink sink options.spelling).begin name with
    | (.error _, _) => [r.nextLine?]
    | (.ok (), w) => r.nextLine? :: r.readCount.reader.readsOfWalk writeEdge w

namespace LineReader

/-! ## what reads leave -/

/-- behind some reads the source has the lines left that they did not take, the row has gone up
with each, and a read took no line only at the end of the data -/
structure Consumes (r : LineReader) (reads : List (Option Bytes)) (r' : LineReader) : Prop where
  lines : r.source.lines = reads.reduceOption ++ r'.source.lines
  ending : r'.source.ending = r.source.ending
  row : r'.row = r.row + reads.length
  atEnd : none ∈ reads → r'.source.lines = []

namespace Consumes
variable {r r₁ r₂ : LineReader} {reads more : List (Option Bytes)}

theorem refl (r : LineReader) : r.Consumes [] r where
  lines := rfl
  ending := rfl
  row := rfl
  atEnd h := absurd h List.not_mem_nil

theorem trans (h₁ : r.Consumes reads r₁) (h₂ : r₁.Consumes more r₂) :
    r.Consumes (reads ++ more) r₂ where
  lines := by rw [List.reduceOption_append, List.append_assoc, ← h₂.lines, ← h₁.lines]
  ending := h₂.ending.trans h₁.ending
  row := by rw [h₂.row, h₁.row, List.length_append, Nat.add_assoc]
  atEnd h := by
    rcases List.mem_append.1 h with h | h
    · have hlines := h₂.lines
      rw [h₁.atEnd h] at hlines
      exact (List.append_eq_nil_iff.1 hlines.symm).2
    · exact h₂.atEnd h

/-- only the source and the row of a reader matter -/
theorem congr (h : r.Consumes reads r₁) (hs : r₂.source = r₁.source) (hr : r₂.row = r₁.row) :
    r.Consumes reads r₂ where
  lines := by rw [hs, h.lines]
  ending := by rw [hs, h.ending]
  row := by rw [hr, h.row]
  atEnd hn := by rw [hs, h.atEnd hn]

end Consumes

theorem consumes_advance (r : LineReader) : r.Consumes [r.nextLine?] r.advance.2 where
  lines := by
    rw [source_advance, Source.lines_next, nextLine?]
    cases r.source.lines <;> rfl
  ending := by rw [source_advance, Source.ending_next]
  row := row_advance r
  atEnd h := by
    rw [source_advance, Source.lines_next]
    cases hl : r.source.lines with
    | nil => rfl
    | cons line lines =>
      rw [nextLine?, hl] at h
      cases List.mem_singleton.1 h

theorem consumes_of_advance {r r' : LineReader} {given : Except IoError Bool}
    (h : r.advance = (given, r')) : r.Consumes [r.nextLine?] r' := by
  have hadvance := r.consumes_advance
  rwa [h] at hadvance

theorem row_edgeOfLine (r : LineReader) : r.edgeOfLine.reader.row = r.row := by
  rw [edgeOfLine, take]
  cases (Edge.read r.cursor).1 <;> rfl

theorem source_readCount (r : LineReader) : r.readCount.reader.source = r.advance.2.source ∧
    r.readCount.reader.row = r.advance.2.row := by
  rw [readCount]
  rcases r.advance with ⟨e | given, r'⟩
  · exact ⟨rfl, rfl⟩
  · cases given with
    | false => exact ⟨rfl, rfl⟩
    | true =>
      dsimp only [take, expectEnd]
      cases (Count.read r'.cursor).1 with
      | error e => exact ⟨rfl, rfl⟩
      | ok n =>
        dsimp only [Except.mapError]
        rcases (Count.read r'.cursor).2.next with ⟨_ | token, cursor⟩ <;> exact ⟨rfl, rfl⟩

theorem consumes_readCount (r : LineReader) : r.Consumes [r.nextLine?] r.readCount.reader :=
  r.consumes_advance.congr r.source_readCount.1 r.source_readCount.2

theorem consumes_readEdge (r : LineReader) : r.Consumes r.readsOfEdge r.readEdge.reader := by
  fun_induction readsOfEdge r with
  | case1 r e r' h =>
    rw [readEdge_eq, h]
    exact consumes_of_advance h
  | case2 r r' h =>
    rw [readEdge_eq, h]
    exact consumes_of_advance h
  | case3 r line h hblank ih =>
    rw [readEdge_eq, h]
    dsimp only
    rw [if_pos hblank]
    exact (consumes_of_advance h).trans ih
  | case4 r line h hblank =>
    rw [readEdge_eq, h]
    dsimp only
    rw [if_neg hblank]
    exact (consumes_of_advance h).congr line.source_edgeOfLine line.row_edgeOfLine

theorem consumes_forEdges {σ : Type} (consume : σ → Edge → Except Failure Unit × σ) (state : σ)
    (r : LineReader) : r.Consumes (r.readsOfWalk consume state)
      (r.forEdges consume state).reader := by
  fun_induction readsOfWalk consume state r with
  | case1 state r f h =>
    rw [forEdges_eq, h]
    exact r.consumes_readEdge
  | case2 state r h =>
    rw [forEdges_eq, h]
    exact r.consumes_readEdge
  | case3 state r e h f state' hconsume =>
    rw [forEdges_eq, h]
    dsimp only
    rw [hconsume]
    exact r.consumes_readEdge
  | case4 state r e h state' hconsume ih =>
    rw [forEdges_eq, h]
    dsimp only
    rw [hconsume]
    exact r.consumes_readEdge.trans ih

end LineReader

theorem EdgeIterator.consumes_next (it : EdgeIterator) :
    it.reader.Consumes it.reads it.next.2.2.reader := by
  rw [reads]
  by_cases hfailed : it.failed = true
  · rw [if_pos hfailed, next_of_failed hfailed]
    exact .refl it.reader
  · rw [next, if_neg hfailed, if_neg hfailed]
    have hread := it.reader.consumes_readEdge
    dsimp only
    split
    · exact hread
    · exact hread
    · exact hread

theorem EdgeIterator.consumes_nextMany (it : EdgeIterator) (calls : Nat) :
    it.reader.Consumes (it.readsOfMany calls) (it.nextMany calls).2.2.reader := by
  induction calls generalizing it with
  | zero => exact .refl it.reader
  | succ calls ih => exact it.consumes_next.trans (ih it.next.2.2)

theorem consumes_convert (name : Text) (options : Options) (r : LineReader) (sink : Sink) :
    r.Consumes (readsOfConversion name options r sink)
      (convert name options r sink).reader := by
  have hcount := r.consumes_readCount
  rw [readsOfConversion, convert]
  cases r.readCount.result with
  | error f => exact hcount
  | ok declared =>
    dsimp only
    rcases (Dot.Writer.ofSink sink options.spelling).begin name with ⟨e | u, w⟩
    · exact hcount
    · have hwalk := LineReader.consumes_forEdges writeEdge w r.readCount.reader
      dsimp only
      cases (r.readCount.reader.forEdges writeEdge w).result <;> exact hcount.trans hwalk

/-! ## the reads of an edge -/

/-- a line is given only if it is there and can be read -/
theorem LineReader.advance_eq_true {r r' : LineReader} (h : r.advance = (.ok true, r')) :
    ∃ (line : Bytes) (lines : List Bytes) (ending : Ending) (text : Text),
      r.source = ⟨line :: lines, ending⟩ ∧ ending.text line = .ok text ∧
        r' = onLine lines ending (r.row + 1) text := by
  rcases hs : r.source with ⟨_ | ⟨line, lines⟩, ending⟩
  · rw [advance_of_nil hs] at h
    cases ending <;> cases h
  · cases ht : ending.text line with
    | error e =>
      rw [advance_of_error hs ht] at h
      cases h
    | ok text =>
      rw [advance_of_text hs ht] at h
      cases h
      exact ⟨line, lines, ending, text, rfl, ht, rfl⟩

/-- an edge takes lines that are empty, and then at most one more -/
theorem LineReader.readsOfEdge_eq_append (r : LineReader) :
    ∃ (blanks : List Bytes) (last : Option Bytes), (∀ line ∈ blanks, isEmptyLine line = true) ∧
      r.readsOfEdge = blanks.map some ++ [last] := by
  fun_induction readsOfEdge r with
  | case1 r e r' h => exact ⟨[], r.nextLine?, fun _ hm => absurd hm List.not_mem_nil, rfl⟩
  | case2 r r' h => exact ⟨[], r.nextLine?, fun _ hm => absurd hm List.not_mem_nil, rfl⟩
  | case3 r line h hblank ih =>
    obtain ⟨blanks, last, hempty, heq⟩ := ih
    obtain ⟨first, lines, ending, text, hs, ht, rfl⟩ := advance_eq_true h
    have hfirst : r.nextLine? = some first := by rw [nextLine?, hs, List.head?_cons]
    have hfirstEmpty : isEmptyLine first = true := by rw [← isBlank_onLine ht, hblank]
    refine ⟨first :: blanks, last, List.forall_mem_cons.2 ⟨hfirstEmpty, hempty⟩, ?_⟩
    rw [heq, hfirst]
    rfl
  | case4 r line h hblank => exact ⟨[], r.nextLine?, fun _ hm => absurd hm List.not_mem_nil, rfl⟩

end EdgeDot
