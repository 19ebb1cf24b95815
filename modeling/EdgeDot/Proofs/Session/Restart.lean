import EdgeDot.Proofs.Line.Shift
import EdgeDot.Proofs.Session.Consumption

/-!
# Starting afresh

What a session did before has no effect on what it does later: its later calls are answered as
a new reader of the bytes that are left would answer them, with every row greater by the lines
read before.

* `Session.run_of_behind`, `Session.runAll_of_behind`   readers in front of the same lines
* `Session.runAll_restart`                              a session that goes on is a new session
-/

namespace EdgeDot.Session

def Answer.shift (k : Nat) : Answer → Answer
  | .count result => .count (result.mapError (Failure.shift k))
  | .edge result => .edge (result.mapError (Failure.shift k))
  | .edges items => .edges (items.map (Option.map (Except.mapError (Failure.shift k))))
  | .conversion result output => .conversion (result.mapError (Failure.shift k)) output

def Entry.shift (k : Nat) (entry : Entry) : Entry where
  answer := entry.answer.shift k
  events := entry.events.map (Event.shift k)
  row := entry.row + k

variable {k : Nat} {r r' : LineReader}

theorem run_of_behind (h : r.Behind k r') (request : Request) :
    (request.run r').1 = (request.run r).1.shift k ∧
      (request.run r).2.Behind k (request.run r').2 := by
  cases request with
  | readCount =>
    rw [Request.run, Request.run]
    dsimp only
    rw [LineReader.readCount_of_behind h]
    exact ⟨rfl, .shift k _⟩
  | readEdge =>
    rw [Request.run, Request.run]
    dsimp only
    rw [LineReader.readEdge_of_behind h]
    exact ⟨rfl, .shift k _⟩
  | edges calls =>
    have hit : (EdgeIterator.mk r false).Behind k (EdgeIterator.mk r' false) := ⟨h, rfl⟩
    obtain ⟨hitems, hevents, hlast⟩ := EdgeIterator.nextMany_of_behind hit calls
    rw [Request.run, Request.run]
    dsimp only
    rw [hitems, hevents, hlast.reader.row]
    exact ⟨rfl, hlast.reader⟩
  | convert name options sink =>
    rw [Request.run, Request.run]
    dsimp only
    rw [convert_of_behind h]
    exact ⟨rfl, .shift k _⟩

theorem runAll_of_behind (h : r.Behind k r') (requests : List Request) :
    (Request.runAll r' requests).1 = (Request.runAll r requests).1.map (Entry.shift k) ∧
      (Request.runAll r requests).2.Behind k (Request.runAll r' requests).2 := by
  induction requests generalizing r r' with
  | nil => exact ⟨rfl, h⟩
  | cons request requests ih =>
    obtain ⟨hentry, hnext⟩ := run_of_behind h request
    obtain ⟨hentries, hlast⟩ := ih hnext
    rw [Request.runAll, Request.runAll]
    dsimp only
    rw [hentry, hentries]
    exact ⟨rfl, hlast⟩

/-- behind any calls a reader is a new reader of the bytes that are left, further down -/
theorem behind_runAll (bytes : Bytes) (ending : Ending) (past : List Request) :
    let r := (Request.runAll (.ofBytes bytes ending) past).2
    (LineReader.ofBytes r.rest ending).Behind r.row r := by
  intro r
  have h : (LineReader.ofBytes bytes ending).Consumes _ r := consumes_runAll _ past
  refine ⟨?_, (Nat.zero_add r.row).symm⟩
  show r.source = ⟨splitLines r.rest, ending⟩
  rw [h.splitLines_rest]
  exact congrArg (Source.mk r.source.lines) h.ending

/-- Whatever the calls before were and came to, the further calls are answered, write and tell
what they would for a new reader of the bytes that are left, and leave what it would leave.
Only the rows are greater, in each answer, each fault and each event by the rows before. -/
theorem runAll_restart (bytes : Bytes) (ending : Ending) (past future : List Request) :
    let r := (Request.runAll (.ofBytes bytes ending) past).2
    let fresh := LineReader.ofBytes r.rest ending
    (Request.runAll r future).1 = (Request.runAll fresh future).1.map (Entry.shift r.row) ∧
    (Request.runAll r future).2.rest = (Request.runAll fresh future).2.rest ∧
    (Request.runAll r future).2.row = (Request.runAll fresh future).2.row + r.row := by
  intro r fresh
  obtain ⟨hentries, hlast⟩ := runAll_of_behind (behind_runAll bytes ending past) future
  exact ⟨hentries, congrArg Source.bytes hlast.source, hlast.row⟩

end EdgeDot.Session
