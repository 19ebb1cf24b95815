import EdgeDot.Text.Basic

/-!
# Declared counts

A count is written in decimal, with an optional plus sign and any number of leading zeros, and
is below `2 ^ 64`.  Of the faults of a numeral the first from the left is reported: a character
that is no digit, or the digit with which the value leaves the range.

* `Count.readDigits`   digits, as far as their value is in range
* `Count.parse`        a whole numeral
-/

namespace EdgeDot

inductive CountError where
  /-- no text at all -/
  | empty
  /-- something other than a digit, or a sign without a digit -/
  | invalidDigit
  /-- the value does not fit 64 bits -/
  | tooLarge
deriving DecidableEq

def CountError.message : CountError → Text
  | .empty => "cannot parse integer from empty string".toList
  | .invalidDigit => "invalid digit found in string".toList
  | .tooLarge => "number too large to fit in target type".toList

namespace Count

/-- the first number that is no count -/
def limit : Nat := Nat.pow 2 64

def digit? (c : Char) : Option Nat := if c.isDigit then some (c.toNat - '0'.toNat) else none

/-- reads further digits behind those that gave `n` -/
def readDigits (n : Nat) : Text → Except CountError Nat
  | [] => .ok n
  | c :: s =>
    match digit? c with
    | none => .error .invalidDigit
    | some d => if 10 * n + d < limit then readDigits (10 * n + d) s else .error .tooLarge

/-- reads a count; a sign needs a digit after it -/
def parse : Text → Except CountError Nat
  | [] => .error .empty
  | ['+'] => .error .invalidDigit
  | '+' :: digits => readDigits 0 digits
  | digits => readDigits 0 digits

end Count

end EdgeDot
