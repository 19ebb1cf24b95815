import EdgeDot.Line.Error
import EdgeDot.Proofs.Text.Positions

/-!
# Marking with checks

The place of an error is found by going back from its column, and the line is sliced there to be
shown.  Here that is done with every subtraction and every slice checked.  No check ever fails,
whatever the error, its line and its column are.

* `LocatedError.isBoundary_marker`   the marker is a good position of the line
* `LocatedError.marker?_eq`, `LocatedError.location?_eq`, `LocatedError.display?_eq`
-/

namespace EdgeDot.LocatedError

/-- the byte that the caret marks, found by going back from the column; none below zero -/
def marker? (e : LocatedError) : Option Nat :=
  let column := min e.column e.content.byteLength
  if e.cause.blamesToken = true ∧ 0 < column then
    match column with
    | 0 => none
    | column + 1 => e.content.stepBack? column
  else e.content.stepBack? column

def location? (e : LocatedError) : Option (Nat × Nat) :=
  e.marker?.map fun marker => (e.row, marker + 1)

/-- the error in words, with the front of its line sliced off at the marker -/
def display? (e : LocatedError) : Option Text :=
  e.marker?.bind fun marker =>
    if e.content.byteLength ≤ longest then
      (e.content.slice? 0 marker).map fun before =>
        let label := Text.ofNat e.row ++ "| ".toList
        e.cause.message ++ " at\n".toList ++ label ++ e.content ++ "\n".toList ++
          List.replicate label.length ' ' ++ blankOut before ++ "^".toList
    else
      some (e.cause.message ++ " at line ".toList ++ Text.ofNat e.row ++ ", column ".toList ++
        Text.ofNat (marker + 1))

theorem isBoundary_marker (e : LocatedError) : e.content.isBoundary e.marker = true :=
  Text.isBoundary_takeBytes _ _

theorem marker?_eq (e : LocatedError) : e.marker? = some e.marker := by
  rw [marker?, marker, before]
  generalize min e.column e.content.byteLength = column
  cases e.cause.blamesToken with
  | false =>
    rw [if_neg fun h => Bool.false_ne_true h.1]
    exact Text.stepBack?_eq _ _
  | true =>
    cases column with
    | zero =>
      rw [if_neg fun h => Nat.lt_irrefl 0 h.2]
      exact Text.stepBack?_eq _ _
    | succ column =>
      rw [if_pos ⟨rfl, Nat.succ_pos column⟩]
      exact Text.stepBack?_eq _ _

theorem location?_eq (e : LocatedError) : e.location? = some e.location := by
  rw [location?, marker?_eq]
  rfl

theorem slice?_marker (e : LocatedError) : e.content.slice? 0 e.marker = some e.before := by
  obtain ⟨after, hcontent⟩ := e.before_prefix
  have hslice := Text.slice?_append [] e.before after
  rw [List.nil_append, hcontent, Text.byteLength_nil, Nat.zero_add] at hslice
  exact hslice

theorem display?_eq (e : LocatedError) : e.display? = some e.display := by
  rw [display?, marker?_eq, Option.bind_some, slice?_marker, display]
  split <;> rfl

end EdgeDot.LocatedError
