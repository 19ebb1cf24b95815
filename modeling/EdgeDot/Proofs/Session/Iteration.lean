import EdgeDot.Proofs.Line.Items
import EdgeDot.Proofs.Session.Restart

/-!
# Iterators and direct calls

An iterator makes direct calls until one of them fails, and none behind that; at the end of the
input it goes on making them.  The reader keeps its place whoever calls it, so iterators and direct
calls in any order give what the lines give, each line once.

* `EdgeIterator.nextMany_of_failed`, `EdgeIterator.nextMany_of_drained`   the two ends
* `Session.upToFailure`, `Session.nextMany_eq_runAll`    an iterator beside direct calls
* `LineReader.StopsAt`, `Session.stopsAt_run`            where a call fails
* `Session.obtains_runAll`                               calls in any order
* `Session.edges_until_failure`                          all of it, from any state of a reader
-/

namespace EdgeDot

/-! ## the calls of an iterator -/

def isFailure : Option (Except Failure Edge) → Bool
  | some (.error _) => true
  | _ => false

theorem any_isFailure_iff {items : List (Option (Except Failure Edge))} :
    items.any isFailure = true ↔ ∃ f, some (.error f) ∈ items := by
  rw [List.any_eq_true]
  constructor
  · rintro ⟨_ | f | e, hitem, h⟩
    · cases h
    · exact ⟨f, hitem⟩
    · cases h
  · rintro ⟨f, hf⟩
    exact ⟨_, hf, rfl⟩

theorem reduceOption_cons {α : Type} (item : Option α) (items : List (Option α)) :
    (item :: items).reduceOption = item.toList ++ items.reduceOption := by
  rw [← List.singleton_append, List.reduceOption_append, List.reduceOption_singleton]

namespace EdgeIterator
variable {it : EdgeIterator} {r : LineReader}

theorem next_of_readEdge (r : LineReader) : (EdgeIterator.mk r false).next =
    (itemOf? r.readEdge.result, r.readEdge.events,
      ⟨r.readEdge.reader, isFailure (itemOf? r.readEdge.result)⟩) := by
  rw [next, if_neg Bool.false_ne_true]
  dsimp only
  rcases r.readEdge.result with f | _ | e <;> rfl

/-- behind its failure an iterator gives nothing and reads nothing -/
theorem nextMany_of_failed (h : it.failed = true) (calls : Nat) :
    it.nextMany calls = (List.replicate calls none, [], it) := by
  induction calls with
  | zero => rfl
  | succ calls ih =>
    rw [nextMany, next_of_failed h]
    dsimp only
    rw [ih]
    rfl

theorem nextMany_succ_of_failure (h : isFailure (itemOf? r.readEdge.result) = true)
    (calls : Nat) : (EdgeIterator.mk r false).nextMany (calls + 1) =
      (itemOf? r.readEdge.result :: List.replicate calls none, r.readEdge.events,
        ⟨r.readEdge.reader, true⟩) := by
  rw [nextMany, next_of_readEdge, h]
  dsimp only
  rw [nextMany_of_failed rfl, List.append_nil]

theorem nextMany_succ_of_not_failure (h : isFailure (itemOf? r.readEdge.result) = false)
    (calls : Nat) : (EdgeIterator.mk r false).nextMany (calls + 1) =
      (itemOf? r.readEdge.result :: ((EdgeIterator.mk r.readEdge.reader false).nextMany calls).1,
        r.readEdge.events ++ ((EdgeIterator.mk r.readEdge.reader false).nextMany calls).2.1,
        ((EdgeIterator.mk r.readEdge.reader false).nextMany calls).2.2) := by
  rw [nextMany, next_of_readEdge, h]

/-- an iterator has failed if one of its calls gave a failure -/
theorem failed_nextMany (r : LineReader) (calls : Nat) :
    ((EdgeIterator.mk r false).nextMany calls).2.2.failed =
      ((EdgeIterator.mk r false).nextMany calls).1.any isFailure := by
  induction calls generalizing r with
  | zero => rfl
  | succ calls ih =>
    cases hitem : isFailure (itemOf? r.readEdge.result) with
    | true =>
      rw [nextMany_succ_of_failure hitem]
      dsimp only
      rw [List.any_cons, hitem]
      rfl
    | false =>
      rw [nextMany_succ_of_not_failure hitem]
      dsimp only
      rw [List.any_cons, hitem, ih]
      rfl

/-- at the end of the input each call gives nothing again, and counts -/
theorem nextMany_of_drained (hs : r.source = ⟨[], .complete⟩) (calls : Nat) :
    ∃ r' : LineReader, r'.source = ⟨[], .complete⟩ ∧ r'.row = r.row + calls ∧
      (EdgeIterator.mk r false).nextMany calls = (List.replicate calls none, [], ⟨r', false⟩) := by
  induction calls generalizing r with
  | zero => exact ⟨r, hs, rfl, rfl⟩
  | succ calls ih =>
    obtain ⟨r', hsource, hrow, hnext⟩ := @ih (.offLine [] .complete (r.row + 1)) rfl
    refine ⟨r', hsource, ?_, ?_⟩
    · rw [hrow]
      show r.row + 1 + calls = _
      omega
    · have hread := LineReader.readEdge_of_nil hs
      have hitem : isFailure (itemOf? r.readEdge.result) = false := by
        rw [hread]
        rfl
      rw [nextMany_succ_of_not_failure hitem, hread]
      dsimp only
      rw [hnext]
      rfl

end EdgeIterator

/-! ## what calls find -/

namespace LineReader
variable {r r₁ r' : LineReader} {reads : Nat} {items : List (Except Failure Edge)} {f : Failure}

/-- an edge that is not there has been looked for at the end of the input -/
theorem Finds.drained (h : r.Finds none r') : r'.source = ⟨[], .complete⟩ := by
  obtain ⟨skipped, last, -, hlast, hend⟩ := h
  have hlines := hend rfl
  have hitems := hlast.items
  rw [hlines, EdgeLine.items_one] at hitems
  rw [hlast.source, hlines]
  cases hending : last.source.ending with
  | complete => rfl
  | broken e =>
    rw [hending] at hitems
    cases hitems

/-- the last of some reads gives a failure -/
def StopsAt (r : LineReader) (f : Failure) (r' : LineReader) : Prop :=
  ∃ (reads : Nat) (items : List (Except Failure Edge)) (last : LineReader),
    r.Obtains reads items last ∧ last.Obtains 1 [.error f] r'

theorem Finds.stopsAt (h : r.Finds (some (.error f)) r') : r.StopsAt f r' := by
  obtain ⟨skipped, last, hskipped, hlast, -⟩ := h
  exact ⟨skipped, [], last, hskipped, hlast⟩

theorem Obtains.stopsAt (h : r.Obtains reads items r₁) (hstop : r₁.StopsAt f r') :
    r.StopsAt f r' := by
  obtain ⟨more, later, last, hbefore, hlast⟩ := hstop
  exact ⟨reads + more, items ++ later, last, h.trans hbefore, hlast⟩

/-- the read that gives the failure, by its number -/
theorem StopsAt.read (h : r.StopsAt f r') :
    ∃ k, r'.row = r.row + k + 1 ∧ r'.source.lines = r.source.lines.drop (k + 1) ∧
      EdgeLine.item? r.source.ending r'.row r.source.lines[k]? = some (.error f) := by
  obtain ⟨k, items, last, hbefore, hlast⟩ := h
  have hrow : r'.row = r.row + k + 1 := by rw [hlast.row, hbefore.row]
  have hfailure := hlast.items
  rw [EdgeLine.items_one, hbefore.source, hbefore.row, List.head?_drop, ← hrow] at hfailure
  refine ⟨k, hrow, ?_, Option.toList_eq_singleton_iff.1 hfailure.symm⟩
  rw [hlast.source, hbefore.source, List.drop_drop]

end LineReader

namespace EdgeIterator
variable {f : Failure}

/-- behind a call that gives nothing without a failure nothing is left -/
theorem nextMany_of_exhausted {it : EdgeIterator} (hrunning : it.failed = false)
    (hnone : it.next.1 = none) (calls : Nat) :
    ∃ r' : LineReader, r'.source = ⟨[], .complete⟩ ∧
      r'.row = it.next.2.2.reader.row + calls ∧
      it.next.2.2.nextMany calls = (List.replicate calls none, [], ⟨r', false⟩) := by
  obtain ⟨r, failed⟩ := it
  cases hrunning
  rw [next_of_readEdge] at hnone ⊢
  have hitem : itemOf? r.readEdge.result = none := hnone
  have hfinds := r.finds_readEdge
  rw [hitem] at hfinds ⊢
  exact nextMany_of_drained hfinds.drained calls

theorem obtains_nextMany (r : LineReader) (calls : Nat) :
    ∃ reads, r.Obtains reads ((EdgeIterator.mk r false).nextMany calls).1.reduceOption
      ((EdgeIterator.mk r false).nextMany calls).2.2.reader := by
  induction calls generalizing r with
  | zero => exact ⟨0, .refl r⟩
  | succ calls ih =>
    obtain ⟨reads, hfirst⟩ := r.finds_readEdge.obtains
    cases hitem : isFailure (itemOf? r.readEdge.result) with
    | true =>
      rw [nextMany_succ_of_failure hitem]
      refine ⟨reads, ?_⟩
      rw [reduceOption_cons, List.reduceOption_replicate_none, List.append_nil]
      exact hfirst
    | false =>
      rw [nextMany_succ_of_not_failure hitem]
      obtain ⟨more, hlater⟩ := ih r.readEdge.reader
      refine ⟨reads + more, ?_⟩
      rw [reduceOption_cons]
      exact hfirst.trans hlater

theorem stopsAt_nextMany {r : LineReader} {calls : Nat}
    (h : some (.error f) ∈ ((EdgeIterator.mk r false).nextMany calls).1) :
    r.StopsAt f ((EdgeIterator.mk r false).nextMany calls).2.2.reader := by
  induction calls generalizing r with
  | zero => cases h
  | succ calls ih =>
    cases hitem : isFailure (itemOf? r.readEdge.result) with
    | true =>
      rw [nextMany_succ_of_failure hitem] at h ⊢
      rcases List.mem_cons.1 h with hfirst | hlater
      · exact (hfirst ▸ r.finds_readEdge).stopsAt
      · cases List.eq_of_mem_replicate hlater
    | false =>
      rw [nextMany_succ_of_not_failure hitem] at h ⊢
      obtain ⟨reads, hfirst⟩ := r.finds_readEdge.obtains
      rcases List.mem_cons.1 h with hfailure | hlater
      · rw [← hfailure] at hitem
        cases hitem
      · exact hfirst.stopsAt (ih hlater)

end EdgeIterator

namespace Session

/-! ## sessions -/

/-- what an answer gives of edges -/
def Answer.items : Answer → List (Option (Except Failure Edge))
  | .edge result => [itemOf? result]
  | .edges items => items
  | .count _ => []
  | .conversion _ _ => []

/-- what answers give of edges, in order -/
def results (entries : List Entry) : List (Option (Except Failure Edge)) :=
  entries.flatMap fun entry => entry.answer.items

/-- a direct call for an edge, or an iterator -/
def Request.asksForEdges : Request → Bool
  | .readEdge => true
  | .edges _ => true
  | .readCount => false
  | .convert _ _ _ => false

/-- up to the first failure, and with it -/
def upToFailure : List (Option (Except Failure Edge)) → List (Option (Except Failure Edge))
  | [] => []
  | item :: items => if isFailure item then [item] else item :: upToFailure items

/-- an iterator makes direct calls up to the first that fails -/
theorem nextMany_eq_runAll (r : LineReader) (n : Nat) :
    let walk := (EdgeIterator.mk r false).nextMany n
    let heard := upToFailure (results (Request.runAll r (List.replicate n .readEdge)).1)
    let direct := Request.runAll r (List.replicate heard.length .readEdge)
    walk.1 = heard ++ List.replicate (n - heard.length) none ∧
      walk.2.1 = direct.1.flatMap Entry.events ∧ walk.2.2.reader = direct.2 := by
  -- the direct calls go on behind a failure, so only the front of their results is compared
  induction n generalizing r with
  | zero => exact ⟨rfl, rfl, rfl⟩
  | succ n ih =>
    have hresults : results (Request.runAll r (List.replicate (n + 1) .readEdge)).1 =
      itemOf? r.readEdge.result ::
        results (Request.runAll r.readEdge.reader (List.replicate n .readEdge)).1 := rfl
    dsimp only
    rw [hresults, upToFailure]
    cases hitem : isFailure (itemOf? r.readEdge.result) with
    | true =>
      rw [EdgeIterator.nextMany_succ_of_failure hitem, if_pos rfl]
      exact ⟨rfl, (List.append_nil _).symm, rfl⟩
    | false =>
      obtain ⟨hitems, hevents, hreader⟩ := ih r.readEdge.reader
      rw [EdgeIterator.nextMany_succ_of_not_failure hitem, if_neg Bool.false_ne_true,
        List.length_cons, Nat.add_sub_add_right]
      dsimp only
      rw [hitems, hevents, hreader]
      exact ⟨rfl, rfl, rfl⟩

theorem obtains_run (r : LineReader) {request : Request} (h : request.asksForEdges = true) :
    ∃ reads, r.Obtains reads (request.run r).1.answer.items.reduceOption (request.run r).2 := by
  cases request with
  | readCount => cases h
  | readEdge =>
    obtain ⟨reads, hreads⟩ := r.finds_readEdge.obtains
    refine ⟨reads, ?_⟩
    show r.Obtains reads [itemOf? r.readEdge.result].reduceOption r.readEdge.reader
    rwa [List.reduceOption_singleton]
  | edges calls => exact EdgeIterator.obtains_nextMany r calls
  | convert => cases h

theorem obtains_runAll (r : LineReader) {calls : List Request}
    (h : ∀ call ∈ calls, call.asksForEdges = true) :
    ∃ reads, r.Obtains reads (results (Request.runAll r calls).1).reduceOption
      (Request.runAll r calls).2 := by
  induction calls generalizing r with
  | nil => exact ⟨0, .refl r⟩
  | cons call calls ih =>
    obtain ⟨hcall, hcalls⟩ := List.forall_mem_cons.1 h
    obtain ⟨reads, hfirst⟩ := obtains_run r hcall
    obtain ⟨more, hlater⟩ := ih (call.run r).2 hcalls
    refine ⟨reads + more, ?_⟩
    rw [Request.runAll, results, List.flatMap_cons, List.reduceOption_append]
    exact hfirst.trans hlater

theorem stopsAt_run {r : LineReader} {request : Request} {f : Failure}
    (h : some (.error f) ∈ (request.run r).1.answer.items) : r.StopsAt f (request.run r).2 := by
  cases request with
  | readCount => cases h
  | readEdge => exact (List.mem_singleton.1 h ▸ r.finds_readEdge).stopsAt
  | edges calls => exact EdgeIterator.stopsAt_nextMany h
  | convert => cases h

/-- From any state that a reader can get to, one iterator gives what as many direct calls would give
up to the first failure, and leaves the reader as these do.  Behind a failure its calls give nothing
and read nothing; behind the end of the input each gives nothing and counts one more row.  A call
that fails stops right behind the line that it failed at, whatever is called next.  So any iterators
and direct calls together give what the lines give, in order, and leave those that they did not
get to. -/
theorem edges_until_failure (bytes : Bytes) (ending : Ending) (earlier : List Request) :
    let r := (Request.runAll (.ofBytes bytes ending) earlier).2
    let lines := splitLines r.rest
    (∀ n, let walk := (EdgeIterator.mk r false).nextMany n
      let heard := upToFailure (results (Request.runAll r (List.replicate n .readEdge)).1)
      let direct := Request.runAll r (List.replicate heard.length .readEdge)
      walk.1 = heard ++ List.replicate (n - heard.length) none ∧
      walk.2.1 = direct.1.flatMap Entry.events ∧ walk.2.2.reader = direct.2) ∧
    (∀ n, let walk := (EdgeIterator.mk r false).nextMany n
      ((∃ f, some (.error f) ∈ walk.1) →
        ∀ m, walk.2.2.nextMany m = (List.replicate m none, [], walk.2.2)) ∧
      ((∀ f, some (.error f) ∉ walk.1) → walk.2.2.next.1 = none →
        ∀ m, let further := walk.2.2.next.2.2.nextMany m
          further.1 = List.replicate m none ∧ further.2.2.reader.rest = [] ∧
          further.2.2.reader.row = walk.2.2.next.2.2.reader.row + m)) ∧
    (∀ (request : Request) (f : Failure), some (.error f) ∈ (request.run r).1.answer.items →
      let r' := (request.run r).2
      ∃ k, r'.row = r.row + k + 1 ∧ splitLines r'.rest = lines.drop (k + 1) ∧
        EdgeLine.item? ending r'.row lines[k]? = some (.error f)) ∧
    (∀ calls : List Request, (∀ call ∈ calls, call.asksForEdges = true) →
      let later := Request.runAll r calls
      ∃ k, later.2.row = r.row + k ∧ splitLines later.2.rest = lines.drop k ∧
        (results later.1).reduceOption = EdgeLine.items ending (r.row + 1) lines k) := by
  intro r lines
  have hr : (LineReader.ofBytes bytes ending).Consumes _ r := consumes_runAll _ earlier
  have hsource : r.source = ⟨lines, ending⟩ := (behind_runAll bytes ending earlier).source
  refine ⟨nextMany_eq_runAll r, fun n => ⟨?_, ?_⟩, fun request f hf => ?_, fun calls hcalls => ?_⟩
  · intro hfailure m
    rw [← any_isFailure_iff, ← EdgeIterator.failed_nextMany] at hfailure
    exact EdgeIterator.nextMany_of_failed hfailure m
  · intro hnone hnext m
    rw [← not_exists, ← any_isFailure_iff, ← EdgeIterator.failed_nextMany] at hnone
    obtain ⟨r', hend, hrow, hmany⟩ :=
      EdgeIterator.nextMany_of_exhausted (Bool.eq_false_iff.2 hnone) hnext m
    dsimp only
    rw [hmany]
    refine ⟨rfl, ?_, hrow⟩
    show r'.source.lines.flatten = []
    rw [hend]
    rfl
  · obtain ⟨k, hrow, hlines, hfailure⟩ := (stopsAt_run hf).read
    rw [hsource] at hlines hfailure
    refine ⟨k, hrow, ?_, hfailure⟩
    rw [(hr.trans (consumes_run r request)).splitLines_rest, hlines]
  · obtain ⟨k, hk⟩ := obtains_runAll r hcalls
    refine ⟨k, hk.row, ?_, ?_⟩
    · rw [(hr.trans (consumes_runAll r calls)).splitLines_rest, hk.source, hsource]
    · rw [hk.items, hsource]

end Session

end EdgeDot
