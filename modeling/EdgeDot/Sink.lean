import EdgeDot.IoError

/-!
# Sinks

A sink collects the bytes that are written.  It may have room for only so many: it then takes
what fits, also a part of a write, and reports its failure.  Writing nothing never fails.

* `Sink.output_write`   a write appends the bytes that fit
* `Sink.write_ok_iff`   a write succeeds if and only if all bytes fit
-/

namespace EdgeDot

/-- an output: the bytes taken so far, how many it can take, and how it fails -/
structure Sink where
  written : Array UInt8 := #[]
  /-- the most bytes that are ever taken; no bound if absent -/
  capacity : Option Nat := none
  fullError : IoError := .writeZero
  /-- the failure of each flush, if flushing fails -/
  flushError : Option IoError := none

namespace Sink

def unlimited : Sink := {}

def output (s : Sink) : Bytes := s.written.toList

/-- the part of a write that still fits -/
def fitting (s : Sink) (bytes : Bytes) : Bytes :=
  match s.capacity with
  | none => bytes
  | some capacity => bytes.take (capacity - s.written.size)

/-- writes as much as fits, and fails if that is not all -/
def write (s : Sink) (bytes : Bytes) : Except IoError Unit × Sink :=
  let taken := s.fitting bytes
  (if taken.length = bytes.length then .ok () else .error s.fullError,
    { s with written := s.written ++ taken })

def flush (s : Sink) : Except IoError Unit :=
  match s.flushError with
  | none => .ok ()
  | some e => .error e

theorem fitting_nil (s : Sink) : s.fitting [] = [] := by
  unfold fitting
  split <;> simp

theorem output_write (s : Sink) (bytes : Bytes) :
    (s.write bytes).2.output = s.output ++ s.fitting bytes := by
  simp [write, output]

theorem write_ok_iff (s : Sink) (bytes : Bytes) :
    (s.write bytes).1 = .ok () ↔ s.fitting bytes = bytes := by
  have prefixed : s.fitting bytes <+: bytes := by
    unfold fitting
    split
    · exact List.prefix_rfl
    · exact List.take_prefix _ _
  simp only [write]
  constructor
  · intro h
    split at h
    next same => exact prefixed.eq_of_length same
    next => cases h
  · intro h
    rw [h, if_pos rfl]

end Sink

end EdgeDot
