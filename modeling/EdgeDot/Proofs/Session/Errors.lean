import EdgeDot.Proofs.Line.Faults
import EdgeDot.Proofs.Session.Consumption

/-!
# The errors of a session

Whichever call of a session fails with a place, and whatever the calls before it came to, it blames
the line that was read last: the row is the number of that read among all reads of the session, and
the line in that row of the input is the one that the error shows.

* `LineReader.blames_forEdges`, `EdgeIterator.blames_nextMany`, `blames_convert`   the other calls
* `Session.Answer.errors`           the errors with a place in an answer
* `Session.blames_run`              every call blames the line of its last read
* `Session.errors_point_to_faults`  rows, lines and columns of all errors of a session
-/

namespace EdgeDot

/-- the error with a place that a result is -/
def errorOf? {α : Type} : Except Failure α → Option LocatedError
  | .ok _ => none
  | .error f => f.located?

theorem errorOf?_eq_some {α : Type} {result : Except Failure α} {e : LocatedError} :
    errorOf? result = some e ↔ ∃ f, result = .error f ∧ f.located? = some e := by
  constructor
  · intro h
    cases result with
    | ok a => cases h
    | error f => exact ⟨f, rfl, h⟩
  · rintro ⟨f, rfl, he⟩
    exact he

/-! ## calls that give several edges -/

namespace LineReader
variable {σ : Type} {consume : σ → Edge → Except Failure Unit × σ} {r : LineReader}
  {e : LocatedError} {f : Failure}

/-- a walk blames the line at which it stops, unless it is the consumer that fails -/
theorem blames_forEdges
    (hc : ∀ {state edge f state'}, consume state edge = (.error f, state') → f.located? = none)
    {state : σ} (h : (r.forEdges consume state).result = .error f) (he : f.located? = some e) :
    r.Blames (r.readsOfWalk consume state) e := by
  fun_induction readsOfWalk consume state r with
  | case1 state r cause hread =>
    rw [forEdges_eq, hread] at h
    cases h
    exact blames_readEdge hread he
  | case2 state r hread =>
    rw [forEdges_eq, hread] at h
    cases h
  | case3 state r edge hread cause state' hconsume =>
    rw [forEdges_eq, hread] at h
    dsimp only at h
    rw [hconsume] at h
    cases h
    rw [hc hconsume] at he
    cases he
  | case4 state r edge hread state' hconsume ih =>
    rw [forEdges_eq, hread] at h
    dsimp only at h
    rw [hconsume] at h
    exact r.consumes_readEdge.blames (ih h)

end LineReader

namespace EdgeIterator
variable {it : EdgeIterator} {e : LocatedError} {f : Failure}

theorem blames_next (h : it.next.1 = some (.error f)) (he : f.located? = some e) :
    it.reader.Blames it.reads e ∧ it.next.2.2.failed = true := by
  rw [next] at h ⊢
  rw [reads]
  by_cases hfailed : it.failed = true
  · rw [if_pos hfailed] at h
    cases h
  · rw [if_neg hfailed] at h ⊢
    rw [if_neg hfailed]
    dsimp only at h ⊢
    cases hread : it.reader.readEdge.result with
    | ok edge? =>
      rw [hread] at h
      cases edge? <;> cases h
    | error cause =>
      rw [hread] at h
      cases h
      exact ⟨LineReader.blames_readEdge hread he, rfl⟩

/-- behind its failure an iterator reads no more -/
theorem readsOfMany_of_failed (hfailed : it.failed = true) (calls : Nat) :
    it.readsOfMany calls = [] := by
  induction calls with
  | zero => rfl
  | succ calls ih =>
    rw [readsOfMany, next_of_failed hfailed, ih, reads, if_pos hfailed]
    rfl

theorem blames_nextMany {calls : Nat} (h : some (.error f) ∈ (it.nextMany calls).1)
    (he : f.located? = some e) : it.reader.Blames (it.readsOfMany calls) e := by
  induction calls generalizing it with
  | zero => cases h
  | succ calls ih =>
    rcases List.mem_cons.1 h with hfirst | hlater
    · obtain ⟨hblames, hfailed⟩ := blames_next hfirst.symm he
      rw [readsOfMany, readsOfMany_of_failed hfailed, List.append_nil]
      exact hblames
    · exact it.consumes_next.blames (ih hlater)

end EdgeIterator

/-! ## conversions -/

theorem located?_of_writeEdge {w w' : Dot.Writer} {edge : Edge} {f : Failure}
    (h : writeEdge w edge = (.error f, w')) : f.located? = none := by
  have hresult : (w.edge edge).1.mapError .io = .error f := congrArg Prod.fst h
  cases hw : (w.edge edge).1 with
  | error cause =>
    rw [hw] at hresult
    cases hresult
    rfl
  | ok u =>
    rw [hw] at hresult
    cases hresult

theorem located?_of_conclude {policy : Counting} {declared : Nat} {w : Dot.Writer} {f : Failure}
    (h : (conclude policy declared w).1 = .error f) : f.located? = none := by
  rw [conclude] at h
  dsimp only at h
  split at h
  · cases h
    rfl
  · split at h
    · cases h
      rfl
    · cases h

theorem blames_convert {name : Text} {options : Options} {r : LineReader} {sink : Sink}
    {f : Failure} {e : LocatedError} (h : (convert name options r sink).result = .error f)
    (he : f.located? = some e) : r.Blames (readsOfConversion name options r sink) e := by
  rw [convert] at h
  rw [readsOfConversion]
  cases hcount : r.readCount.result with
  | error cause =>
    rw [hcount] at h
    cases h
    exact LineReader.blames_readCount hcount he
  | ok declared =>
    rw [hcount] at h
    dsimp only at h ⊢
    rcases hbegin : (Dot.Writer.ofSink sink options.spelling).begin name with ⟨cause | u, w⟩
    · rw [hbegin] at h
      cases h
      cases he
    · rw [hbegin] at h
      dsimp only at h ⊢
      cases hwalk : (r.readCount.reader.forEdges writeEdge w).result with
      | error cause =>
        rw [hwalk] at h
        cases h
        exact r.consumes_readCount.blames
          (LineReader.blames_forEdges located?_of_writeEdge hwalk he)
      | ok u =>
        rw [hwalk] at h
        rw [located?_of_conclude h] at he
        cases he

/-! ## sessions -/

namespace LineReader
variable {bytes : Bytes} {ending : Ending} {reads : List (Option Bytes)} {r : LineReader}
  {e : LocatedError}

/-- the reads behind the front of an input take its lines in order, and then none -/
theorem Consumes.nextLine?_eq (h : (ofBytes bytes ending).Consumes reads r) :
    r.nextLine? = (splitLines bytes)[reads.length]? := by
  rw [nextLine?, h.splitLines_eq]
  cases hl : r.source.lines with
  | nil =>
    rw [List.append_nil, List.getElem?_eq_none (List.reduceOption_length_le reads), List.head?_nil]
  | cons line lines =>
    have hsome : ∀ read ∈ reads, read.isSome = true := by
      intro read hread
      cases read with
      | some line => rfl
      | none =>
        have hend := h.atEnd hread
        rw [hl] at hend
        cases hend
    rw [← List.reduceOption_length_eq_iff.2 hsome, List.getElem?_append_right (Nat.le_refl _),
      Nat.sub_self, List.head?_eq_getElem?]

/-- the line that is blamed is the one in the row of the error -/
theorem Blames.of_bytes (h : (ofBytes bytes ending).Blames reads e) :
    e.row = reads.length ∧ reads.getLast? = some (splitLines bytes)[e.row - 1]? ∧
      e.Shows ((splitLines bytes)[e.row - 1]?.getD []) := by
  cases h with
  | @last front r' e before row shows =>
    have hrow : e.row = front.length + 1 := by
      rw [row, before.row]
      exact congrArg (· + 1) (Nat.zero_add _)
    rw [before.nextLine?_eq] at shows ⊢
    rw [hrow, List.length_append, List.getLast?_concat]
    exact ⟨rfl, rfl, shows⟩

end LineReader

namespace Session

/-- the errors with a place in an answer -/
def Answer.errors : Answer → List LocatedError
  | .count result => (errorOf? result).toList
  | .edge result => (errorOf? result).toList
  | .edges items => items.reduceOption.filterMap errorOf?
  | .conversion result _ => (errorOf? result).toList

/-- every call blames the line that it read last -/
theorem blames_run {r : LineReader} {request : Request} {e : LocatedError}
    (he : e ∈ (request.run r).1.answer.errors) : r.Blames (request.reads r) e := by
  cases request with
  | readCount =>
    obtain ⟨f, hresult, hf⟩ := errorOf?_eq_some.1 (Option.mem_toList.1 he)
    exact LineReader.blames_readCount hresult hf
  | readEdge =>
    obtain ⟨f, hresult, hf⟩ := errorOf?_eq_some.1 (Option.mem_toList.1 he)
    exact LineReader.blames_readEdge hresult hf
  | edges calls =>
    obtain ⟨item, hitem, herror⟩ := List.mem_filterMap.1 he
    obtain ⟨f, rfl, hf⟩ := errorOf?_eq_some.1 herror
    have hmem := List.reduceOption_mem_iff.1 hitem
    exact EdgeIterator.blames_nextMany hmem hf
  | convert name options sink =>
    obtain ⟨f, hresult, hf⟩ := errorOf?_eq_some.1 (Option.mem_toList.1 he)
    exact blames_convert hresult hf

theorem allReads_concat (r : LineReader) (earlier : List Request) (request : Request) :
    Request.allReads r (earlier ++ [request]) =
      Request.allReads r earlier ++ request.reads (Request.runAll r earlier).2 := by
  induction earlier generalizing r with
  | nil => exact List.append_nil _
  | cons first earlier ih =>
    rw [List.cons_append, Request.allReads, Request.allReads, ih, List.append_assoc]
    rfl

/-- Every error with a place that a call gives, whatever calls came before it, stands in the row
whose number is that of the last read, counting all of them, and it shows the line of that row of
the input, less the carriage returns and line feeds at its end; behind the last line that is an
empty one.  The column is that of the fault: behind the content if tokens are missing, and then
those on the line are counted, or at the last character of the token that is to blame. -/
theorem errors_point_to_faults (bytes : Bytes) (ending : Ending) (earlier : List Request)
    (request : Request) (e : LocatedError)
    (he : e ∈ (request.run (Request.runAll (.ofBytes bytes ending) earlier).2).1.answer.errors) :
    let reads := Request.allReads (.ofBytes bytes ending) (earlier ++ [request])
    let line? := (splitLines bytes)[e.location.1 - 1]?
    e.location.1 = reads.length ∧ reads.getLast? = some line? ∧
      ∃ text, Text.decode? (line?.getD []) = some text ∧ e.content = lineContent text ∧
        FaultAt text e.cause e.location.2 := by
  have hblames := (consumes_runAll (.ofBytes bytes ending) earlier).blames (blames_run he)
  rw [← allReads_concat] at hblames
  exact hblames.of_bytes

/-- the caret of a numeral that ends in two bytes, on the second line of an input -/
theorem errors_point_to_faults_wide :
    let bytes := Text.encode "1\n  5é\r\n".toList
    let e : LocatedError := ⟨.notACount .invalidDigit, "  5é\r\n".toList, 2, 5⟩
    let reads := Request.allReads (.ofBytes bytes) [.readCount, .readCount]
    let line? := (splitLines bytes)[e.location.1 - 1]?
    e ∈ (Request.readCount.run
        (Request.runAll (.ofBytes bytes) [.readCount]).2).1.answer.errors ∧
      e.location = (2, 4) ∧ e.location.1 = reads.length ∧ reads.getLast? = some line? ∧
      ∃ text, Text.decode? (line?.getD []) = some text ∧ e.content = lineContent text ∧
        FaultAt text e.cause e.location.2 := by
  intro bytes e reads line?
  have he : e ∈ (Request.readCount.run
      (Request.runAll (.ofBytes bytes) [.readCount]).2).1.answer.errors := by
    show e ∈ [e]
    exact List.mem_singleton_self e
  exact ⟨he, rfl, errors_point_to_faults bytes .complete [.readCount] .readCount e he⟩

end Session

end EdgeDot
