import EdgeDot.Proofs.Dot.Writing

/-!
# Writing with a bound

A sink with a bound has at any time taken the front of what it was to take, however that was cut
into writes.  A writer into such a sink keeps pace with one that has all the room it wants, up to
the write that does not fit; from then on it holds what it can hold.

* `Sink.write_append`          writes one after the other are one write
* `Dot.Writer.begin_eq_writeEach`, `Dot.Writer.edge_eq_writeEach`   statements written in pieces
* `Sink.Took.write`            what a sink has taken behind a further write
* `Dot.Writer.Paced.write`, `Dot.Writer.Paced.edge`   a write fits, or it is the first that does not
* `Dot.Writer.Overrun.wrote`   what is written behind that makes no difference
-/

namespace EdgeDot

namespace Sink

/-! ## writes one after the other -/

/-- a sink behind bytes that it took -/
def append (s : Sink) (bytes : Bytes) : Sink := { s with written := s.written ++ bytes }

theorem output_append (s : Sink) (bytes : Bytes) : (s.append bytes).output = s.output ++ bytes :=
  Array.toList_appendList

theorem append_append (s : Sink) (first later : Bytes) :
    (s.append first).append later = s.append (first ++ later) := by
  have h : s.written ++ first ++ later = s.written ++ (first ++ later) := by
    apply Array.toList_inj.1
    rw [Array.toList_appendList, Array.toList_appendList, Array.toList_appendList,
      List.append_assoc]
  rw [append, append, append, h]

theorem fitting_prefix (s : Sink) (bytes : Bytes) : s.fitting bytes <+: bytes := by
  unfold fitting
  split
  · exact List.prefix_rfl
  · exact List.take_prefix _ _

theorem write_of_fitting {s : Sink} {bytes : Bytes} (h : s.fitting bytes = bytes) :
    s.write bytes = (.ok (), s.append bytes) := by
  rw [write, h, if_pos rfl]
  rfl

theorem write_of_not_fitting {s : Sink} {bytes : Bytes} (h : s.fitting bytes ≠ bytes) :
    s.write bytes = (.error s.fullError, s.append (s.fitting bytes)) := by
  have hne : (s.fitting bytes).length ≠ bytes.length := by
    intro same
    refine h ((s.write_ok_iff bytes).1 ?_)
    rw [write, if_pos same]
  rw [write, if_neg hne]
  rfl

theorem fitting_of_capacity {s : Sink} {c : Nat} (h : s.capacity = some c) (bytes : Bytes) :
    s.fitting bytes = bytes.take (c - s.output.length) := by
  rw [fitting, h, output, Array.length_toList]

/-- bytes fit if their front does, and what follows it fits behind it -/
theorem fitting_append (s : Sink) (first later : Bytes) :
    s.fitting (first ++ later) =
      if s.fitting first = first then first ++ (s.append first).fitting later
      else s.fitting first := by
  cases hc : s.capacity with
  | none =>
    have hall : ∀ bytes, s.fitting bytes = bytes := fun bytes => by rw [fitting, hc]
    have hafter : (s.append first).fitting later = later := by
      rw [fitting, append, hc]
    rw [hall, hall, if_pos rfl, hafter]
  | some c =>
    have hafter : (s.append first).fitting later =
        later.take (c - s.output.length - first.length) := by
      have hcap : (s.append first).capacity = some c := hc
      rw [fitting_of_capacity hcap, output_append, List.length_append, Nat.sub_sub]
    rw [fitting_of_capacity hc, fitting_of_capacity hc, hafter, List.take_append]
    by_cases hfit : first.length ≤ c - s.output.length
    · rw [List.take_of_length_le hfit, if_pos rfl]
    · have hshort : first.take (c - s.output.length) ≠ first := by
        intro h
        have hlen := congrArg List.length h
        rw [List.length_take] at hlen
        omega
      have hnone : c - s.output.length - first.length = 0 := by omega
      rw [if_neg hshort, hnone, List.take_zero, List.append_nil]

/-- a write is the writes of its parts, up to the first that does not fit -/
theorem write_append (s : Sink) (first later : Bytes) :
    s.write (first ++ later) =
      match s.write first with
      | (.ok (), s) => s.write later
      | (.error e, s) => (.error e, s) := by
  have hfitting := s.fitting_append first later
  by_cases hfirst : s.fitting first = first
  · rw [if_pos hfirst] at hfitting
    rw [write_of_fitting hfirst]
    dsimp only
    by_cases hlater : (s.append first).fitting later = later
    · rw [hlater] at hfitting
      rw [write_of_fitting hfitting, write_of_fitting hlater, append_append]
    · have hall : s.fitting (first ++ later) ≠ first ++ later := by
        rw [hfitting]
        exact fun h => hlater (List.append_cancel_left h)
      rw [write_of_not_fitting hall, write_of_not_fitting hlater, hfitting, append_append]
      rfl
  · rw [if_neg hfirst] at hfitting
    have hall : s.fitting (first ++ later) ≠ first ++ later := by
      intro h
      rw [hfitting] at h
      have hle := (s.fitting_prefix first).length_le
      rw [h, List.length_append] at hle
      have hnil : later = [] := List.length_eq_zero_iff.1 (by omega)
      rw [hnil, List.append_nil] at h
      exact hfirst h
    rw [write_of_not_fitting hall, write_of_not_fitting hfirst, hfitting]

/-! ## what a bounded sink has taken -/

/-- a sink with room for `c` bytes that was to take some bytes, and took the first `c` of them -/
structure Took (c : Nat) (all : Bytes) (s : Sink) : Prop where
  capacity : s.capacity = some c
  output : s.output = all.take c

namespace Took
variable {c : Nat} {all : Bytes} {s : Sink}

theorem fitting (h : s.Took c all) (bytes : Bytes) :
    s.fitting bytes = bytes.take (c - all.length) := by
  have hroom : c - (all.take c).length = c - all.length := by
    rw [List.length_take]
    omega
  rw [fitting_of_capacity h.capacity, h.output, hroom]

/-- also behind a write that did not fit, since then there is no room for a later one -/
theorem write (h : s.Took c all) (bytes : Bytes) : (s.write bytes).2.Took c (all ++ bytes) where
  capacity := h.capacity
  output := by rw [output_write, h.output, h.fitting, List.take_append]

theorem write_fst (h : s.Took c all) (hfits : all.length ≤ c) (bytes : Bytes) :
    (s.write bytes).1 =
      if (all ++ bytes).length ≤ c then .ok () else .error s.fullError := by
  have hroom : (all ++ bytes).length ≤ c ↔ bytes.length ≤ c - all.length := by
    rw [List.length_append]
    omega
  by_cases hfit : bytes.length ≤ c - all.length
  · have hall : s.fitting bytes = bytes := by rw [h.fitting, List.take_of_length_le hfit]
    rw [write_of_fitting hall, if_pos (hroom.2 hfit)]
  · have hshort : s.fitting bytes ≠ bytes := by
      intro heq
      have hlen := congrArg List.length heq
      rw [h.fitting, List.length_take] at hlen
      omega
    rw [write_of_not_fitting hshort, if_neg fun hle => hfit (hroom.1 hle)]

end Took

end Sink

namespace Dot.Writer

/-! ## statements in pieces -/

/-- writes texts one after the other, up to the first that does not fit -/
def writeEach (w : Writer) : List Text → Except IoError Unit × Writer
  | [] => (.ok (), w)
  | s :: later =>
    match w.write s with
    | (.ok (), w) => w.writeEach later
    | (.error e, w) => (.error e, w)

theorem write_nil (w : Writer) : w.write [] = (.ok (), w) := by
  have hsink : w.sink.append [] = w.sink := by
    rw [Sink.append, Array.appendList_nil]
  rw [write, Text.encode_nil, Sink.write_of_fitting w.sink.fitting_nil, hsink]

theorem write_append (w : Writer) (first later : Text) :
    w.write (first ++ later) =
      match w.write first with
      | (.ok (), w) => w.write later
      | (.error e, w) => (.error e, w) := by
  rw [write, write, Text.encode_append, Sink.write_append]
  rcases w.sink.write first.encode with ⟨e | u, sink⟩ <;> rfl

/-- it does not matter into which pieces a text is cut to be written -/
theorem writeEach_eq (w : Writer) (pieces : List Text) :
    w.writeEach pieces = w.write pieces.flatten := by
  induction pieces generalizing w with
  | nil => exact w.write_nil.symm
  | cons s later ih =>
    rw [writeEach, List.flatten_cons, write_append]
    rcases w.write s with ⟨e | u, w'⟩
    · rfl
    · exact ih w'

theorem begin_eq_writeEach (w : Writer) (name : Text) :
    w.begin name =
      w.writeEach ["digraph ".toList, w.spelling.render name, " \x7b\n".toList] := by
  have hpieces : header w.spelling name =
      ["digraph ".toList, w.spelling.render name, " \x7b\n".toList].flatten := by
    unfold header
    simp only [List.flatten_cons, List.flatten_nil, List.append_nil]
    exact List.append_assoc _ _ _
  rw [begin, writeEach_eq, hpieces]

theorem edge_eq_writeEach (w : Writer) (e : Edge) :
    w.edge e =
      match w.writeEach ["\t".toList, w.spelling.render e.source, " -> ".toList,
        w.spelling.render e.target, ";\n".toList] with
      | (.ok (), w) => (.ok (), { w with edgeCount := w.edgeCount + 1 })
      | (.error e, w) => (.error e, w) := by
  have hpieces : statement w.spelling e = ["\t".toList, w.spelling.render e.source,
      " -> ".toList, w.spelling.render e.target, ";\n".toList].flatten := by
    simp only [statement, List.flatten_cons, List.flatten_nil, List.append_nil, List.append_assoc]
  rw [writeEach_eq, ← hpieces]
  unfold edge
  rcases w.write (statement w.spelling e) with ⟨failure | u, w'⟩ <;> rfl

/-! ## keeping pace -/

/-- a writer into a sink with room for `c` bytes that has written all that another one has, whose
sink has no bound -/
structure Paced (c : Nat) (fullError : IoError) (flushError : Option IoError)
    (v w : Writer) : Prop where
  unbounded : v.sink.capacity = none
  neverFails : v.sink.flushError = none
  took : w.sink.Took c v.sink.output
  fits : v.sink.output.length ≤ c
  full : w.sink.fullError = fullError
  flush : w.sink.flushError = flushError
  spelling : w.spelling = v.spelling
  edgeCount : w.edgeCount = v.edgeCount

/-- a writer that has written as much as fits of what another one has written, which is more -/
structure Overrun (c : Nat) (v w : Writer) : Prop where
  unbounded : v.sink.capacity = none
  neverFails : v.sink.flushError = none
  output : w.sink.output = v.sink.output.take c
  exceeds : c < v.sink.output.length

variable {c : Nat} {fullError : IoError} {flushError : Option IoError} {v w : Writer}

theorem Overrun.wrote (h : Overrun c v w) (s : Text) : Overrun c (v.wrote s) w where
  unbounded := h.unbounded
  neverFails := h.neverFails
  output := by
    rw [h.output, output_wrote, List.take_append_of_le_length (Nat.le_of_lt h.exceeds)]
  exceeds := by
    rw [output_wrote, List.length_append]
    exact Nat.lt_of_lt_of_le h.exceeds (Nat.le_add_right _ _)

theorem Overrun.wroteEdge (h : Overrun c v w) (e : Edge) : Overrun c (v.wroteEdge e) w :=
  have hstatement := h.wrote (statement v.spelling e)
  ⟨h.unbounded, h.neverFails, hstatement.output, hstatement.exceeds⟩

namespace Paced

/-- what is written next fits, or it is the first that does not -/
theorem write (h : Paced c fullError flushError v w) (s : Text) :
    (∃ w', w.write s = (.ok (), w') ∧ Paced c fullError flushError (v.wrote s) w') ∨
      ∃ w', w.write s = (.error fullError, w') ∧ Overrun c (v.wrote s) w' := by
  have htook := h.took.write s.encode
  have hresult := h.took.write_fst h.fits s.encode
  rw [← output_wrote] at htook hresult
  rw [h.full] at hresult
  by_cases hfits : (v.wrote s).sink.output.length ≤ c
  · rw [if_pos hfits] at hresult
    refine .inl ⟨{ w with sink := (w.sink.write s.encode).2 }, by rw [Writer.write, hresult], ?_⟩
    exact ⟨h.unbounded, h.neverFails, htook, hfits, h.full, h.flush, h.spelling, h.edgeCount⟩
  · rw [if_neg hfits] at hresult
    refine .inr ⟨{ w with sink := (w.sink.write s.encode).2 }, by rw [Writer.write, hresult], ?_⟩
    exact ⟨h.unbounded, h.neverFails, htook.output, Nat.not_le.1 hfits⟩

theorem edge (h : Paced c fullError flushError v w) (e : Edge) :
    (∃ w', w.edge e = (.ok (), w') ∧ Paced c fullError flushError (v.wroteEdge e) w') ∨
      ∃ w', w.edge e = (.error fullError, w') ∧ Overrun c (v.wroteEdge e) w' := by
  rw [Writer.edge, h.spelling]
  rcases h.write (statement v.spelling e) with ⟨w', hw, h'⟩ | ⟨w', hw, h'⟩
  · refine .inl ⟨{ w' with edgeCount := w'.edgeCount + 1 }, by rw [hw], ?_⟩
    have hcount : w'.edgeCount + 1 = v.edgeCount + 1 := congrArg (· + 1) h'.edgeCount
    exact ⟨h'.unbounded, h'.neverFails, h'.took, h'.fits, h'.full, h'.flush, h'.spelling, hcount⟩
  · exact .inr ⟨w', by rw [hw], h'.unbounded, h'.neverFails, h'.output, h'.exceeds⟩

end Paced

end Dot.Writer

end EdgeDot
