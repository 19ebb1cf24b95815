import EdgeDot.Proofs.Line.Reads
import EdgeDot.Proofs.Line.Splitting
import EdgeDot.Session

/-!
# What a session consumes

Whatever comes of the calls of a session, the lines that they took and the lines that are left
are the lines of the input, in order and each of them once.  The row tells how often was read.

* `Session.Request.allReads`          the reads of a session
* `Session.consumes_runAll`           a session leaves what its reads leave
* `Session.runAll_consumes_lines`     no line is lost or read twice
-/

namespace EdgeDot

namespace LineReader.Consumes
variable {bytes : Bytes} {ending : Ending} {reads : List (Option Bytes)} {r : LineReader}

theorem splitLines_eq (h : (ofBytes bytes ending).Consumes reads r) :
    splitLines bytes = reads.reduceOption ++ r.source.lines := h.lines

/-- the lines that are left are the lines of the bytes that are left -/
theorem splitLines_rest (h : (ofBytes bytes ending).Consumes reads r) :
    splitLines r.rest = r.source.lines := by
  have hdrop := splitLines_flatten_drop reads.reduceOption.length bytes
  rw [h.splitLines_eq, List.drop_left] at hdrop
  exact hdrop

theorem append_rest (h : (ofBytes bytes ending).Consumes reads r) :
    reads.reduceOption.flatten ++ r.rest = bytes := by
  show _ ++ r.source.lines.flatten = bytes
  rw [← List.flatten_append, ← h.splitLines_eq, flatten_splitLines]

/-- reading stops behind a line feed, or at one of the two ends of the input -/
theorem boundary (h : (ofBytes bytes ending).Consumes reads r) :
    reads.reduceOption.flatten = [] ∨
      reads.reduceOption.flatten.getLast? = some lineFeed ∨ r.rest = [] := by
  rcases List.eq_nil_or_concat reads.reduceOption with hnil | ⟨front, line, hfront⟩
  · left
    rw [hnil]
    rfl
  · right
    cases hl : r.source.lines with
    | nil =>
      right
      show r.source.lines.flatten = []
      rw [hl]
      rfl
    | cons next back =>
      left
      have hsplit := h.splitLines_eq
      rw [hfront, hl, List.concat_eq_append, List.append_assoc, List.singleton_append] at hsplit
      have hlast := getLast?_of_splitLines_eq hsplit
      rw [hfront, List.concat_eq_append, List.flatten_append, List.flatten_singleton,
        List.getLast?_append, hlast]
      rfl

/-- the row counts the lines taken and the reads at the end of the data -/
theorem row_eq (h : (ofBytes bytes ending).Consumes reads r) :
    r.row = reads.reduceOption.length + (reads.filter Option.isNone).length := by
  rw [h.row, ← List.length_eq_reduceOption_length_add_filter_none]
  exact Nat.zero_add _

end LineReader.Consumes

namespace Session

/-- the reads of a call -/
def Request.reads (r : LineReader) : Request → List (Option Bytes)
  | .readCount => [r.nextLine?]
  | .readEdge => r.readsOfEdge
  | .edges calls => (EdgeIterator.mk r false).readsOfMany calls
  | .convert name options sink => readsOfConversion name options r sink

/-- the reads of calls in order -/
def Request.allReads (r : LineReader) : List Request → List (Option Bytes)
  | [] => []
  | request :: requests => request.reads r ++ allReads (request.run r).2 requests

theorem consumes_run (r : LineReader) (request : Request) :
    r.Consumes (request.reads r) (request.run r).2 := by
  cases request with
  | readCount => exact r.consumes_readCount
  | readEdge => exact r.consumes_readEdge
  | edges calls => exact EdgeIterator.consumes_nextMany ⟨r, false⟩ calls
  | convert name options sink => exact consumes_convert name options r sink

theorem consumes_runAll (r : LineReader) (requests : List Request) :
    r.Consumes (Request.allReads r requests) (Request.runAll r requests).2 := by
  induction requests generalizing r with
  | nil => exact .refl r
  | cons request requests ih => exact (consumes_run r request).trans (ih (request.run r).2)

/-- Behind any calls, failed ones too, the lines that were taken and the bytes that are left are
the input.  Reading stops at a line, and the row tells the lines taken and the reads at the end.
From there a count takes the next line, and an edge takes empty lines and at most one more. -/
theorem runAll_consumes_lines (bytes : Bytes) (ending : Ending) (requests : List Request) :
    let start := LineReader.ofBytes bytes ending
    let reads := Request.allReads start requests
    let consumed := reads.reduceOption
    let r := (Request.runAll start requests).2
    consumed.flatten ++ r.rest = bytes ∧
    consumed ++ splitLines r.rest = splitLines bytes ∧
    (consumed.flatten = [] ∨ consumed.flatten.getLast? = some lineFeed ∨ r.rest = []) ∧
    r.row = consumed.length + (reads.filter Option.isNone).length ∧
    (none ∈ reads → r.rest = []) ∧
    splitLines r.rest =
      (splitLines r.rest).head?.toList ++ splitLines r.readCount.reader.rest ∧
    ∃ (blanks : List Bytes) (last : Option Bytes), (∀ line ∈ blanks, isEmptyLine line = true) ∧
      splitLines r.rest = blanks ++ (last.toList ++ splitLines r.readEdge.reader.rest) := by
  intro start reads consumed r
  have h : start.Consumes reads r := consumes_runAll start requests
  have hcount := h.trans r.consumes_readCount
  have hedge := h.trans r.consumes_readEdge
  refine ⟨h.append_rest, ?_, h.boundary, h.row_eq, ?_, ?_, ?_⟩
  · rw [h.splitLines_rest]
    exact h.splitLines_eq.symm
  · intro hnone
    show r.source.lines.flatten = []
    rw [h.atEnd hnone]
    rfl
  · rw [h.splitLines_rest, hcount.splitLines_rest]
    have hlines := r.consumes_readCount.lines
    rwa [List.reduceOption_singleton] at hlines
  · obtain ⟨blanks, last, hempty, hreads⟩ := r.readsOfEdge_eq_append
    have hblanks : (blanks.map some).reduceOption = blanks := by
      rw [List.reduceOption, List.filterMap_map]
      exact List.filterMap_some
    have hlines := r.consumes_readEdge.lines
    rw [hreads, List.reduceOption_append, hblanks, List.reduceOption_singleton,
      List.append_assoc] at hlines
    refine ⟨blanks, last, hempty, ?_⟩
    rw [h.splitLines_rest, hedge.splitLines_rest]
    exact hlines

end Session

end EdgeDot
