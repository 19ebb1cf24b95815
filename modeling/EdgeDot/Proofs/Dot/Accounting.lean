import EdgeDot.Proofs.Dot.Filling
import EdgeDot.Proofs.Text.Positions

/-!
# What a writer accounts for

The calls of a writer are to write their renderings one after the other, and a sink with a bound
holds as many of these bytes as fit.  A call succeeds if all bytes up to its end fit, so behind
the first that does not every call fails and adds nothing, and the edges that the writer counted
are those whose statements are whole in the output.

* `Sink.Filled.write`            what a sink holds of the bytes that it was to take
* `Dot.Writer.Call.rendering`    the bytes of a call
* `Dot.Writer.Call.run_eq`       every call is one write and what follows it
* `Dot.Writer.Accounts.run`      one call more
* `Dot.Writer.Call.runAll_accounts`   calls in any order, also behind failed ones
-/

namespace EdgeDot

namespace Sink

/-- a sink that was to take some bytes, and holds as many of the first of them as it has room for;
without a bound it holds them all -/
structure Filled (capacity : Option Nat) (all : Bytes) (s : Sink) : Prop where
  capacity_eq : s.capacity = capacity
  output_eq : s.output = all.take (capacity.getD all.length)

namespace Filled
variable {capacity : Option Nat} {all : Bytes} {s : Sink}

theorem write (h : s.Filled capacity all) (bytes : Bytes) :
    (s.write bytes).2.Filled capacity (all ++ bytes) := by
  refine ⟨h.capacity_eq, ?_⟩
  cases capacity with
  | none =>
    have hall : s.output = all := h.output_eq.trans List.take_length
    have hfitting : s.fitting bytes = bytes := by rw [fitting, h.capacity_eq]
    rw [output_write, hall, hfitting]
    exact List.take_length.symm
  | some c => exact (Took.write ⟨h.capacity_eq, h.output_eq⟩ bytes).output

/-- a write of some bytes succeeds if they fit behind all that was to be taken before -/
theorem write_fst (h : s.Filled capacity all) {bytes : Bytes} (hne : bytes ≠ []) :
    (s.write bytes).1 =
      if (all ++ bytes).length ≤ capacity.getD (all ++ bytes).length then .ok ()
      else .error s.fullError := by
  cases capacity with
  | none =>
    have hfits : (all ++ bytes).length ≤ (none : Option Nat).getD (all ++ bytes).length :=
      Nat.le_refl _
    rw [if_pos hfits, write_eq h.capacity_eq]
  | some c =>
    have htook : s.Took c all := ⟨h.capacity_eq, h.output_eq⟩
    by_cases hroom : all.length ≤ c
    · exact htook.write_fst hroom bytes
    · have hnothing : s.fitting bytes = [] := by
        rw [htook.fitting, Nat.sub_eq_zero_of_le (Nat.le_of_not_le hroom), List.take_zero]
      have hover : ¬ (all ++ bytes).length ≤ c := by
        rw [List.length_append]
        omega
      rw [write_of_not_fitting (by rw [hnothing]; exact hne.symm)]
      exact (if_neg hover).symm

/-- what was to be taken first is there as a whole if it fits -/
theorem prefix_output_iff (h : s.Filled capacity all) {front : Bytes} (hfront : front <+: all) :
    front <+: s.output ↔ front.length ≤ capacity.getD front.length := by
  rw [h.output_eq]
  cases capacity with
  | none =>
    have hall : all.take ((none : Option Nat).getD all.length) = all := List.take_length
    rw [hall]
    exact iff_of_true hfront (Nat.le_refl _)
  | some c =>
    rw [List.prefix_take_iff]
    exact and_iff_right hfront

/-- where what was to be taken first does not fit, the rest is lost -/
theorem output_eq_of_overrun {front : Bytes} {s' : Sink} (h : s.Filled capacity front)
    (h' : s'.Filled capacity all) (hfront : front <+: all)
    (hover : ¬ front.length ≤ capacity.getD front.length) : s'.output = s.output := by
  cases capacity with
  | none => exact absurd (Nat.le_refl _) hover
  | some c =>
    obtain ⟨later, hlater⟩ := hfront
    have hle : c ≤ front.length := Nat.le_of_not_le hover
    rw [h.output_eq, h'.output_eq, ← hlater]
    exact List.take_append_of_le_length hle

end Filled

end Sink

namespace Dot.Writer

namespace Call

/-! ## calls and their bytes -/

/-- the text that a call writes -/
def text (spelling : Spelling) : Call → Text
  | .begin name => header spelling name
  | .edge e => statement spelling e
  | .finish => footer

/-- what a call does behind its text -/
def settle (w : Writer) : Call → Except IoError Unit × Writer
  | .begin _ => (.ok (), w)
  | .edge _ => (.ok (), { w with edgeCount := w.edgeCount + 1 })
  | .finish => (w.sink.flush, w)

theorem run_eq (w : Writer) (call : Call) :
    call.run w =
      match w.write (call.text w.spelling) with
      | (.ok (), w) => call.settle w
      | (.error e, w) => (.error e, w) := by
  cases call with
  | begin name =>
    show w.write (header w.spelling name) = _
    rw [text]
    rcases w.write (header w.spelling name) with ⟨e | u, w'⟩ <;> rfl
  | edge e => rfl
  | finish => rfl

/-- calls go on behind any that does not finish -/
theorem runAll_cons {first : Call} {calls : List Call} (h : calls ≠ [] → first ≠ .finish)
    (w : Writer) : runAll w (first :: calls) = first.run w :: runAll (first.run w).2 calls := by
  cases first with
  | begin name => rfl
  | edge e => rfl
  | finish =>
    cases calls with
    | nil => rfl
    | cons second calls => exact absurd rfl (h (List.cons_ne_nil second calls))

/-- if only the last of some calls may finish, so it is with those behind the first -/
theorem finish_not_mem_dropLast {first : Call} {calls : List Call}
    (h : .finish ∉ (first :: calls).dropLast) :
    (calls ≠ [] → first ≠ .finish) ∧ .finish ∉ calls.dropLast := by
  cases calls with
  | nil => exact ⟨fun hne => absurd rfl hne, List.not_mem_nil⟩
  | cons second calls =>
    rw [List.dropLast_cons_of_ne_nil (List.cons_ne_nil second calls), List.mem_cons, not_or] at h
    exact ⟨fun _ e => h.1 e.symm, h.2⟩

theorem ne_finish_of_getElem? {calls : List Call} (hlast : .finish ∉ calls.dropLast) {j : Nat}
    {call : Call} (hcall : calls[j]? = some call) (hj : j + 1 < calls.length) :
    call ≠ .finish := by
  rintro rfl
  have hget : calls.dropLast[j]? = some .finish := by
    rw [List.getElem?_dropLast, if_pos (by omega), hcall]
  exact hlast (List.mem_of_getElem? hget)

/-- the bytes that a call writes where there is room for all of them -/
def rendering (spelling : Spelling) (call : Call) : Bytes :=
  (call.run (.ofSink .unlimited spelling)).2.sink.output

theorem rendering_eq (spelling : Spelling) (call : Call) :
    call.rendering spelling = (call.text spelling).encode := by
  have hfresh : (Writer.ofSink .unlimited spelling).sink.capacity = none := rfl
  have hwritten : ∀ s, ((Writer.ofSink .unlimited spelling).wrote s).sink.output = s.encode := by
    intro s
    rw [output_wrote]
    rfl
  rw [rendering, run_eq, write_eq hfresh]
  cases call <;> exact hwritten _

theorem rendering_ne_nil (spelling : Spelling) (call : Call) : call.rendering spelling ≠ [] := by
  have hne : call.text spelling ≠ [] := by cases call <;> exact List.cons_ne_nil _ _
  rw [rendering_eq, ← List.length_pos_iff, Text.length_encode]
  exact Text.byteLength_pos hne

/-- the bytes of calls one after the other -/
def renderings (spelling : Spelling) (calls : List Call) : Bytes :=
  calls.flatMap (rendering spelling)

theorem renderings_concat (spelling : Spelling) (calls : List Call) (call : Call) :
    renderings spelling (calls ++ [call]) =
      renderings spelling calls ++ call.rendering spelling := by
  rw [renderings, List.flatMap_append, List.flatMap_singleton]
  rfl

theorem renderings_take_of_le (spelling : Spelling) (calls : List Call) {i k : Nat} (h : i ≤ k) :
    renderings spelling (calls.take i) <+: renderings spelling (calls.take k) := by
  obtain ⟨later, hlater⟩ : calls.take i <+: calls.take k := List.take_prefix_take_left h
  rw [← hlater, renderings, renderings, List.flatMap_append]
  exact List.prefix_append _ _

def isEdge : Call → Bool
  | .edge _ => true
  | _ => false

/-- whether all bytes of some calls fit into a sink -/
def fit (sink : Sink) (spelling : Spelling) (calls : List Call) : Bool :=
  (renderings spelling calls).length ≤ sink.capacity.getD (renderings spelling calls).length

/-- if some calls fit, so do the first of them -/
theorem fit_of_le {sink : Sink} {spelling : Spelling} {calls : List Call} {i k : Nat} (h : i ≤ k)
    (hfit : fit sink spelling (calls.take k) = true) :
    fit sink spelling (calls.take i) = true := by
  have hle := (renderings_take_of_le spelling calls h).length_le
  have hfit := of_decide_eq_true hfit
  refine decide_eq_true ?_
  cases hcapacity : sink.capacity with
  | none => exact Nat.le_refl _
  | some c =>
    rw [hcapacity] at hfit
    exact Nat.le_trans hle hfit

/-- what comes of a call, by whether all bytes up to its end fit -/
def outcome (sink : Sink) (fits : Bool) : Call → Except IoError Unit
  | .finish => if fits then sink.flush else .error sink.fullError
  | _ => if fits then .ok () else .error sink.fullError

theorem outcome_of_overrun (sink : Sink) (call : Call) :
    call.outcome sink false = .error sink.fullError := by
  cases call <;> rfl

theorem outcome_eq_ok_iff (sink : Sink) (fits : Bool) (call : Call) :
    call.outcome sink fits = .ok () ↔
      fits = true ∧ (call = .finish → sink.flushError = none) := by
  cases fits with
  | false =>
    rw [outcome_of_overrun]
    exact iff_of_false nofun fun h => absurd h.1 nofun
  | true =>
    cases call with
    | begin name => exact iff_of_true rfl ⟨rfl, nofun⟩
    | edge e => exact iff_of_true rfl ⟨rfl, nofun⟩
    | finish =>
      show sink.flush = .ok () ↔ _
      rw [Sink.flush]
      cases sink.flushError with
      | none => exact iff_of_true rfl ⟨rfl, fun _ => rfl⟩
      | some e => exact iff_of_false nofun fun h => nomatch h.2 rfl

/-- an edge counts if it was written whole, and not otherwise -/
theorem isEdge_and_isOk (sink : Sink) (fits : Bool) (call : Call) :
    (call.isEdge && (call.outcome sink fits).isOk) = (call.isEdge && fits) := by
  cases call with
  | begin name => rfl
  | edge e => cases fits <;> rfl
  | finish => rfl

/-- how many of some calls write an edge whose bytes fit with all that is in front of them -/
def edgesWhole (sink : Sink) (spelling : Spelling) (calls : List Call) : Nat :=
  (List.range calls.length).countP fun i =>
    (calls[i]?).any isEdge && fit sink spelling (calls.take (i + 1))

theorem edgesWhole_concat (sink : Sink) (spelling : Spelling) (calls : List Call) (call : Call) :
    edgesWhole sink spelling (calls ++ [call]) =
      edgesWhole sink spelling calls +
        if call.isEdge && fit sink spelling (calls ++ [call]) then 1 else 0 := by
  have hfront : ∀ i ∈ List.range calls.length,
      ((((calls ++ [call])[i]?).any isEdge &&
          fit sink spelling ((calls ++ [call]).take (i + 1))) = true ↔
        ((calls[i]?).any isEdge && fit sink spelling (calls.take (i + 1))) = true) := by
    intro i hi
    have hlt : i < calls.length := List.mem_range.1 hi
    rw [List.getElem?_append_left hlt, List.take_append_of_le_length hlt]
  have hlast : (calls ++ [call]).take (calls.length + 1) = calls ++ [call] :=
    List.take_of_length_le (by simp)
  rw [edgesWhole, List.length_append, List.length_singleton, List.range_succ, List.countP_append,
    List.countP_congr hfront, List.countP_singleton, List.getElem?_concat_length, hlast]
  rfl

theorem edgesWhole_take (sink : Sink) (spelling : Spelling) {calls : List Call} {k : Nat}
    (h : k ≤ calls.length) :
    edgesWhole sink spelling (calls.take k) = (List.range k).countP fun i =>
      (calls[i]?).any isEdge && fit sink spelling (calls.take (i + 1)) := by
  rw [edgesWhole, List.length_take_of_le h]
  refine List.countP_congr fun i hi => ?_
  have hlt : i < k := List.mem_range.1 hi
  rw [List.getElem?_take_of_lt hlt, List.take_take, Nat.min_eq_left hlt]

end Call

/-! ## what a writer holds and counts -/

/-- a writer that has made some calls: its sink holds the bytes of these that fit, and it has
counted the edges that are whole -/
structure Accounts (sink : Sink) (spelling : Spelling) (made : List Call) (w : Writer) :
    Prop where
  spelling_eq : w.spelling = spelling
  filled : w.sink.Filled sink.capacity (Call.renderings spelling made)
  fullError_eq : w.sink.fullError = sink.fullError
  flushError_eq : w.sink.flushError = sink.flushError
  edgeCount_eq : w.edgeCount = Call.edgesWhole sink spelling made

namespace Accounts
variable {sink : Sink} {spelling : Spelling} {made : List Call} {w : Writer}

theorem ofSink (h : sink.output = []) : Accounts sink spelling [] (.ofSink sink spelling) where
  spelling_eq := rfl
  filled := ⟨rfl, h.trans List.take_nil.symm⟩
  fullError_eq := rfl
  flushError_eq := rfl
  edgeCount_eq := rfl

/-- behind one call more, and what came of it -/
theorem run (h : Accounts sink spelling made w) (call : Call) :
    Accounts sink spelling (made ++ [call]) (call.run w).2 ∧
      (call.run w).1 = call.outcome sink (Call.fit sink spelling (made ++ [call])) := by
  have hfilled := h.filled.write (call.rendering spelling)
  have hresult := h.filled.write_fst (call.rendering_ne_nil spelling)
  rw [← Call.renderings_concat] at hfilled hresult
  have hcount := Call.edgesWhole_concat sink spelling made call
  rw [Call.run_eq, h.spelling_eq, write, ← Call.rendering_eq]
  by_cases hfits : Call.fit sink spelling (made ++ [call]) = true
  · rw [if_pos (of_decide_eq_true hfits)] at hresult
    rw [hfits] at hcount ⊢
    rw [hresult]
    have hflush : (w.sink.write (call.rendering spelling)).2.flush = sink.flush := by
      show w.sink.flush = sink.flush
      rw [Sink.flush, h.flushError_eq]
      rfl
    cases call with
    | begin name =>
      refine ⟨⟨h.spelling_eq, hfilled, h.fullError_eq, h.flushError_eq, ?_⟩, rfl⟩
      exact h.edgeCount_eq.trans hcount.symm
    | edge e =>
      refine ⟨⟨h.spelling_eq, hfilled, h.fullError_eq, h.flushError_eq, ?_⟩, rfl⟩
      exact (congrArg (· + 1) h.edgeCount_eq).trans hcount.symm
    | finish =>
      refine ⟨⟨h.spelling_eq, hfilled, h.fullError_eq, h.flushError_eq, ?_⟩, hflush⟩
      exact h.edgeCount_eq.trans hcount.symm
  · rw [if_neg fun hle => hfits (decide_eq_true hle), h.fullError_eq] at hresult
    rw [Bool.eq_false_iff.2 hfits, Bool.and_false] at hcount
    rw [Bool.eq_false_iff.2 hfits, hresult]
    refine ⟨⟨h.spelling_eq, hfilled, h.fullError_eq, h.flushError_eq, ?_⟩, ?_⟩
    · exact h.edgeCount_eq.trans hcount.symm
    · cases call <;> rfl

/-- calls one after the other, of which only the last may finish -/
theorem runAll (h : Accounts sink spelling made w) {calls : List Call}
    (hlast : .finish ∉ calls.dropLast) :
    (Call.runAll w calls).length = calls.length ∧
      ∀ k call, calls[k]? = some call →
        ∃ w', (Call.runAll w calls)[k]? =
            some (call.outcome sink (Call.fit sink spelling (made ++ calls.take (k + 1))), w') ∧
          Accounts sink spelling (made ++ calls.take (k + 1)) w' := by
  induction calls generalizing made w with
  | nil => exact ⟨rfl, fun k call hcall => by cases hcall⟩
  | cons first calls ih =>
    obtain ⟨hfirst, hresult⟩ := h.run first
    obtain ⟨hgoes, hlast⟩ := Call.finish_not_mem_dropLast hlast
    obtain ⟨hlen, hlater⟩ := ih hfirst hlast
    rw [Call.runAll_cons hgoes]
    refine ⟨congrArg (· + 1) hlen, fun k call hcall => ?_⟩
    cases k with
    | zero =>
      cases hcall
      exact ⟨_, congrArg some (Prod.ext hresult rfl), hfirst⟩
    | succ k =>
      obtain ⟨w', hget, hw'⟩ := hlater k call hcall
      rw [List.append_assoc] at hget hw'
      exact ⟨w', hget, hw'⟩

end Accounts

/-- Calls of a writer into an empty sink, in any order and also behind failed ones, of which only
the last may finish.  With `bytes k` for what the first `k` calls write where there is room, and
`room k` for how many of these fit, the sink holds the first `room (k + 1)` of `bytes (k + 1)` behind
call `k`, and the call succeeds if and only if that is all of them, and flushing succeeds in case it
finishes.  Behind a failed call every call fails and adds nothing.  The edges counted are the calls
for edges that succeeded, and those whose bytes are whole in the output, in their place. -/
theorem Call.runAll_accounts (spelling : Spelling) (capacity : Option Nat) (fullError : IoError)
    (flushError : Option IoError) (calls : List Call) (hlast : .finish ∉ calls.dropLast) :
    let made := runAll (.ofSink { capacity, fullError, flushError } spelling) calls
    let bytes := fun k => (calls.take k).flatMap (rendering spelling)
    let room := fun k => capacity.getD (bytes k).length
    made.length = calls.length ∧
    ∀ k call, calls[k]? = some call → ∃ result w, made[k]? = some (result, w) ∧
      w.sink.output = (bytes (k + 1)).take (room (k + 1)) ∧
      (result = .ok () ↔
        (bytes (k + 1)).length ≤ room (k + 1) ∧ (call = .finish → flushError = none)) ∧
      (∀ j result' w', j < k → made[j]? = some (result', w') → result' ≠ .ok () →
        result = .error fullError ∧ w.sink.output = w'.sink.output) ∧
      (w.edgeCount = (List.range (k + 1)).countP fun i =>
        (calls[i]?).any isEdge && (made[i]?).any fun m => m.1.isOk) ∧
      w.edgeCount = (List.range (k + 1)).countP fun i =>
        (calls[i]?).any isEdge && (bytes (i + 1)).isPrefixOf w.sink.output := by
  intro made bytes room
  let sink : Sink := { capacity, fullError, flushError }
  have hstart : Accounts sink spelling [] (.ofSink sink spelling) := .ofSink rfl
  obtain ⟨hlen, hall⟩ := hstart.runAll hlast
  simp only [List.nil_append] at hall
  have hfit (i : Nat) :
      fit sink spelling (calls.take i) = true ↔ (bytes i).length ≤ room i := decide_eq_true_iff
  refine ⟨hlen, fun k call hcall => ?_⟩
  obtain ⟨hk, -⟩ := List.getElem?_eq_some_iff.1 hcall
  obtain ⟨w, hget, hw⟩ := hall k call hcall
  have hcount := hw.edgeCount_eq
  rw [edgesWhole_take sink spelling hk] at hcount
  refine ⟨_, w, hget, hw.filled.output_eq, ?_, ?_, ?_, ?_⟩
  · rw [outcome_eq_ok_iff, hfit]
  · intro j result' w' hj hget' hfailed
    have hcall' := List.getElem?_eq_getElem (Nat.lt_trans hj hk)
    obtain ⟨w'', hget'', hw'⟩ := hall j _ hcall'
    obtain ⟨rfl, rfl⟩ := Prod.mk.inj (Option.some.inj (hget'.symm.trans hget''))
    have hgoes := ne_finish_of_getElem? hlast hcall' (by omega)
    -- a call that does not finish fails only because its bytes do not fit
    have hover : ¬ fit sink spelling (calls.take (j + 1)) = true := by
      intro hfits
      exact hfailed ((outcome_eq_ok_iff sink _ _).2 ⟨hfits, fun e => absurd e hgoes⟩)
    have hover' : ¬ fit sink spelling (calls.take (k + 1)) = true :=
      fun hfits => hover (fit_of_le (by omega) hfits)
    rw [Bool.eq_false_iff.2 hover', outcome_of_overrun]
    refine ⟨rfl, hw'.filled.output_eq_of_overrun hw.filled ?_ fun hle => hover ((hfit _).2 hle)⟩
    exact renderings_take_of_le spelling calls (by omega)
  · rw [hcount]
    refine List.countP_congr fun i hi => ?_
    have hi : i < calls.length := Nat.lt_of_lt_of_le (List.mem_range.1 hi) hk
    obtain ⟨w', hget', -⟩ := hall i calls[i] (List.getElem?_eq_getElem hi)
    rw [hget', List.getElem?_eq_getElem hi, Option.any_some, Option.any_some, isEdge_and_isOk]
  · rw [hcount]
    refine List.countP_congr fun i hi => ?_
    have hi : i + 1 ≤ k + 1 := List.mem_range.1 hi
    have hplace : bytes (i + 1) <+: w.sink.output ↔ (bytes (i + 1)).length ≤ room (i + 1) :=
      hw.filled.prefix_output_iff (renderings_take_of_le spelling calls hi)
    rw [Bool.and_eq_true, Bool.and_eq_true, hfit, List.isPrefixOf_iff_prefix, hplace]

/-- an edge in front of the header, and a name in whose quotes the room ends -/
theorem Call.runAll_accounts_overrun :
    let calls : List Call := [.edge ⟨"a".toList, "b".toList⟩, .begin "g".toList,
      .edge ⟨"a b".toList, "c".toList⟩, .edge ⟨"a".toList, "b".toList⟩, .finish]
    let made := runAll (.ofSink { capacity := some 24 } .quoted) calls
    .finish ∉ calls.dropLast ∧ made.length = 5 ∧
      (∃ w, made[1]? = some (.ok (), w) ∧ w.edgeCount = 1) ∧
      ∃ w, made[3]? = some (.error .writeZero, w) ∧ w.edgeCount = 1 ∧
        w.sink.output = Text.encode "\ta -> b;\ndigraph g \x7b\n\t\"a".toList := by
  intro calls made
  have hlast : .finish ∉ calls.dropLast := by
    show .finish ∉ [Call.edge _, .begin _, .edge _, .edge _]
    simp
  obtain ⟨hlen, hall⟩ := runAll_accounts .quoted (some 24) .writeZero none calls hlast
  obtain ⟨result₁, w₁, hget₁, houtput₁, hok₁, -, -, hwhole₁⟩ := hall 1 _ rfl
  obtain ⟨result₂, w₂, hget₂, -, hok₂, -⟩ := hall 2 _ rfl
  obtain ⟨result₃, w₃, hget₃, houtput₃, -, hafter₃, -, hwhole₃⟩ := hall 3 _ rfl
  have hresult₁ : result₁ = .ok () := hok₁.2 ⟨by decide +kernel, nofun⟩
  have hresult₂ : result₂ ≠ .ok () := fun h => absurd (hok₂.1 h).1 (by decide +kernel)
  obtain ⟨hresult₃, -⟩ := hafter₃ 2 result₂ w₂ (by omega) hget₂ hresult₂
  rw [hresult₁] at hget₁
  rw [hresult₃] at hget₃
  refine ⟨hlast, hlen, ⟨w₁, hget₁, ?_⟩, w₃, hget₃, ?_, ?_⟩
  · rw [hwhole₁, houtput₁]
    decide +kernel
  · rw [hwhole₃, houtput₃]
    decide +kernel
  · rw [houtput₃]
    decide +kernel

end Dot.Writer

end EdgeDot
