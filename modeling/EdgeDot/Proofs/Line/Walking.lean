import EdgeDot.Proofs.Line.Reading

/-!
# Walking over edges

A walk meets the lines that are left one after the other, up to the first that is a fault.  The
consumer sees the edges of the lines before it in their order, and the walk tells what is to be
told about them.

* `LineReader.forEdges_eq`       one step of a walk
* `LineReader.forEdges_earlier`  what was told earlier comes first
* `EdgeLine.outcome`, `EdgeLine.allEvents`   how a walk over lines ends, and what it tells
* `LineReader.forEdges_spec`     the whole walk of a consumer that does not fail
-/

namespace EdgeDot

namespace LineReader
variable {σ : Type}

/-- a walk behind some earlier events -/
def Walk.after (earlier : List Event) (w : Walk σ) : Walk σ :=
  { w with events := earlier ++ w.events }

theorem Walk.after_after (first second : List Event) (w : Walk σ) :
    (w.after second).after first = w.after (first ++ second) := by
  rw [Walk.after, Walk.after, Walk.after, List.append_assoc]

variable (consume : σ → Edge → Except Failure Unit × σ)

theorem forEdges_eq_of_earlier (state : σ) (r : LineReader) (earlier : Array Event) :
    r.forEdges consume state earlier =
      match r.readEdge.result with
      | .error f => ⟨.error f, earlier.toList ++ r.readEdge.events, state, r.readEdge.reader⟩
      | .ok none => ⟨.ok (), earlier.toList ++ r.readEdge.events, state, r.readEdge.reader⟩
      | .ok (some e) =>
        match consume state e with
        | (.error f, state) =>
          ⟨.error f, earlier.toList ++ r.readEdge.events, state, r.readEdge.reader⟩
        | (.ok (), state) =>
          r.readEdge.reader.forEdges consume state (earlier ++ r.readEdge.events) := by
  have hlist : (earlier ++ r.readEdge.events).toList = earlier.toList ++ r.readEdge.events :=
    Array.toList_appendList
  rw [forEdges, hlist]
  split
  next h => rw [h]
  next h => rw [h]
  next e h => rcases hc : consume state e with ⟨f | u, state'⟩ <;> simp only [h, hc]

theorem forEdges_earlier (state : σ) (r : LineReader) (earlier : Array Event) :
    r.forEdges consume state earlier = (r.forEdges consume state).after earlier.toList := by
  -- an edge may use up several lines, so the induction is on how many are left
  induction hn : r.source.lines.length using Nat.strongRecOn generalizing state r earlier with
  | _ n ih =>
    rw [forEdges_eq_of_earlier, forEdges_eq_of_earlier consume state r #[]]
    cases hresult : r.readEdge.result with
    | error f => rfl
    | ok e? =>
      cases e? with
      | none => rfl
      | some e =>
        dsimp only
        cases hconsume : consume state e with
        | mk result state' =>
          cases result with
          | error f => rfl
          | ok u =>
            have hlt := length_lines_readEdge_lt hresult
            rw [hn] at hlt
            dsimp only
            rw [ih _ hlt _ _ (earlier ++ r.readEdge.events) rfl,
              ih _ hlt _ _ (#[] ++ r.readEdge.events) rfl, Walk.after_after,
              Array.toList_appendList, Array.toList_appendList]
            rfl

/-- one step of a walk -/
theorem forEdges_eq (state : σ) (r : LineReader) :
    r.forEdges consume state =
      match r.readEdge.result with
      | .error f => ⟨.error f, r.readEdge.events, state, r.readEdge.reader⟩
      | .ok none => ⟨.ok (), r.readEdge.events, state, r.readEdge.reader⟩
      | .ok (some e) =>
        match consume state e with
        | (.error f, state) => ⟨.error f, r.readEdge.events, state, r.readEdge.reader⟩
        | (.ok (), state) =>
          (r.readEdge.reader.forEdges consume state).after r.readEdge.events := by
  rw [forEdges_eq_of_earlier]
  cases r.readEdge.result with
  | error f => rfl
  | ok e? =>
    cases e? with
    | none => rfl
    | some e =>
      dsimp only
      rcases consume state e with ⟨_ | u, state'⟩
      · rfl
      · dsimp only
        rw [forEdges_earlier, Array.toList_appendList]
        rfl

theorem forEdges_of_after {r r' : LineReader} {earlier : List Event}
    (h : r.readEdge = r'.readEdge.after earlier) (state : σ) :
    r.forEdges consume state = (r'.forEdges consume state).after earlier := by
  rw [forEdges_eq, forEdges_eq consume state r', h]
  dsimp only [Reading.after]
  cases r'.readEdge.result with
  | error f => rfl
  | ok e? =>
    cases e? with
    | none => rfl
    | some e =>
      dsimp only
      rcases consume state e with ⟨_ | u, state'⟩
      · rfl
      · exact (Walk.after_after _ _ _).symm

end LineReader

/-! ## walks in terms of lines -/

namespace EdgeLine

/-- how a walk over lines ends, the first of which stands in the given row -/
def outcome (ending : Ending) (row : Nat) (lines : List Bytes) : Except Failure Unit :=
  match lines.dropWhile (isSound ending) with
  | [] => (ending.atEnd ()).mapError .io
  | bad :: _ => .error (failure ending (row + (lines.takeWhile (isSound ending)).length) bad)

/-- what is told about lines, the first of which stands in the given row -/
def allEvents (row : Nat) (lines : List Bytes) : List Event :=
  (lines.zipIdx row).flatMap fun numbered => events numbered.2 numbered.1

theorem allEvents_cons (row : Nat) (line : Bytes) (lines : List Bytes) :
    allEvents row (line :: lines) = events row line ++ allEvents (row + 1) lines := by
  rw [allEvents, List.zipIdx_cons, List.flatMap_cons]
  rfl

variable {ending : Ending} {line : Bytes}

theorem outcome_of_sound (h : isSound ending line = true) (row : Nat) (lines : List Bytes) :
    outcome ending row (line :: lines) = outcome ending (row + 1) lines := by
  rw [outcome, List.dropWhile_cons_of_pos h, List.takeWhile_cons_of_pos h, List.length_cons,
    outcome, Nat.add_comm _ 1, ← Nat.add_assoc]

theorem outcome_of_unsound (h : isSound ending line = false) (row : Nat) (lines : List Bytes) :
    outcome ending row (line :: lines) = .error (failure ending row line) := by
  have hn : ¬ isSound ending line = true := by rw [h]; exact Bool.false_ne_true
  rw [outcome, List.dropWhile_cons_of_neg hn, List.takeWhile_cons_of_neg hn]
  rfl

/-- a sound line that is no edge is empty -/
theorem text_of_sound (h : isSound ending line = true) (he : edge? line = none) :
    isEmptyLine line = true ∧ ∃ text, ending.text line = .ok text := by
  cases ht : ending.text line with
  | error f =>
    rw [isSound_of_error ht] at h
    cases h
  | ok text =>
    have hfew := isSome_edge? line
    rw [he] at hfew
    rw [isSound_of_text ht, ← hfew, Option.isSome_none, Bool.or_false] at h
    exact ⟨h, text, rfl⟩

end EdgeLine

namespace LineReader
variable {σ : Type} {consume : σ → Edge → Except Failure Unit × σ}

/-- a consumer that does not fail as long as `P` holds takes the edges up to the first fault -/
theorem forEdges_spec {P : σ → Prop} {f : σ → Edge → σ}
    (hc : ∀ state e, P state → consume state e = (.ok (), f state e) ∧ P (f state e))
    {state : σ} (hstate : P state) {r : LineReader} {lines : List Bytes} {ending : Ending}
    (hs : r.source = ⟨lines, ending⟩) :
    ∃ r' : LineReader,
      r'.source = ⟨(lines.dropWhile (EdgeLine.isSound ending)).tail, ending⟩ ∧
      r'.row = r.row + 1 + (lines.takeWhile (EdgeLine.isSound ending)).length ∧
      r.forEdges consume state =
        ⟨EdgeLine.outcome ending (r.row + 1) lines,
          EdgeLine.allEvents (r.row + 1) (lines.takeWhile (EdgeLine.isSound ending)),
          ((lines.takeWhile (EdgeLine.isSound ending)).filterMap EdgeLine.edge?).foldl f state,
          r'⟩ := by
  induction lines generalizing r state with
  | nil =>
    refine ⟨offLine [] ending (r.row + 1), rfl, rfl, ?_⟩
    rw [forEdges_eq, readEdge_of_nil hs]
    cases ending <;> rfl
  | cons line lines ih =>
    cases hsound : EdgeLine.isSound ending line with
    | false =>
      have hn : ¬ EdgeLine.isSound ending line = true := by
        rw [hsound]
        exact Bool.false_ne_true
      obtain ⟨r', hsource, hrow, hread⟩ := readEdge_of_unsound hs hsound
      rw [EdgeLine.outcome_of_unsound hsound, List.dropWhile_cons_of_neg hn,
        List.takeWhile_cons_of_neg hn, forEdges_eq, hread]
      exact ⟨r', hsource, hrow, rfl⟩
    | true =>
      rw [EdgeLine.outcome_of_sound hsound, List.dropWhile_cons_of_pos hsound,
        List.takeWhile_cons_of_pos hsound, List.length_cons, EdgeLine.allEvents_cons]
      cases he : EdgeLine.edge? line with
      | none =>
        -- the line belongs to the step of the edge behind it, so the walk is taken up in between
        obtain ⟨hempty, text, ht⟩ := EdgeLine.text_of_sound hsound he
        have hevents : EdgeLine.events (r.row + 1) line = [.skippingEmptyLine (r.row + 1)] := by
          rw [EdgeLine.events, if_pos hempty]
        obtain ⟨r', hsource, hrow, hwalk⟩ := @ih state hstate
          (onLine lines ending (r.row + 1) text) rfl
        refine ⟨r', hsource, ?_, ?_⟩
        · rw [hrow]
          show r.row + 1 + 1 + _ = _
          omega
        · rw [forEdges_of_after consume (readEdge_of_empty hs ht hempty), hwalk,
            List.filterMap_cons_none he, hevents]
          rfl
      | some e =>
        obtain ⟨r₁, hsource₁, hrow₁, hread⟩ := readEdge_of_edge hs hsound he
        obtain ⟨hconsume, hstate'⟩ := hc state e hstate
        obtain ⟨r', hsource, hrow, hwalk⟩ := ih hstate' hsource₁
        refine ⟨r', hsource, ?_, ?_⟩
        · rw [hrow, hrow₁]
          omega
        · rw [forEdges_eq, hread]
          dsimp only
          rw [hconsume, List.filterMap_cons_some he, List.foldl_cons]
          dsimp only
          rw [hwalk, hrow₁]
          rfl

end LineReader

end EdgeDot
