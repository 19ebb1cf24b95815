import EdgeDot.IoError
import EdgeDot.Text.Decoding

/-!
# Sources

A source hands out its bytes line by line; a line ends with its line feed.  Behind the last byte
lies the end of the input or a failure.  A failing source never gives a line that it did not
get to the end of, and a line that is not UTF-8 is passed over with an error.

* `flatten_splitLines`     cutting into lines loses nothing
* `Source.ofBytes`         the source of some bytes
* `Source.next`            the next line
-/

namespace EdgeDot

def lineFeed : UInt8 := 10

/-- the lines of some bytes, each with its line feed, which only the last may lack -/
def splitLines (bytes : Bytes) : List Bytes :=
  bytes.foldr (fun b lines =>
    if b = lineFeed then [b] :: lines
    else match lines with
      | [] => [[b]]
      | line :: lines => (b :: line) :: lines) []

theorem splitLines_nil : splitLines [] = [] := rfl

theorem splitLines_cons_lineFeed (bytes : Bytes) :
    splitLines (lineFeed :: bytes) = [lineFeed] :: splitLines bytes := rfl

theorem flatten_splitLines (bytes : Bytes) : (splitLines bytes).flatten = bytes := by
  induction bytes with
  | nil => rfl
  | cons b bytes ih =>
    simp only [splitLines, List.foldr_cons] at ih ⊢
    split
    · simp [ih]
    · split
      next none => rw [none] at ih; simp [← ih]
      next line lines some => rw [some] at ih; simp [← ih]

/-- what lies behind the last byte of a source -/
inductive Ending where
  | complete
  /-- a failure, which each read that gets there meets again -/
  | broken (e : IoError)

/-- the failure behind a line: a source that breaks before the line feed does not give the line -/
def Ending.breaks? (ending : Ending) (line : Bytes) : Option IoError :=
  match ending with
  | .complete => none
  | .broken e => if line.getLast? = some lineFeed then none else some e

/-- an input: the lines that were not read yet, and what lies behind them -/
structure Source where
  lines : List Bytes
  ending : Ending := .complete

namespace Source

def ofBytes (bytes : Bytes) (ending : Ending := .complete) : Source := ⟨splitLines bytes, ending⟩

def bytes (s : Source) : Bytes := s.lines.flatten

/-- the next line, if one is left, and the source after it -/
def next (s : Source) : Except IoError (Option Text) × Source :=
  match s.lines with
  | [] =>
    (match s.ending with
      | .complete => .ok none
      | .broken e => .error e, s)
  | line :: lines =>
    (match s.ending.breaks? line with
      | some e => .error e
      | none =>
        match Text.decode? line with
        | none => .error .invalidText
        | some text => .ok (some text), { s with lines })

theorem lines_next (s : Source) : s.next.2.lines = s.lines.tail := by
  unfold next
  split
  next none => simp [none]
  next line lines some => simp [some]

theorem ending_next (s : Source) : s.next.2.ending = s.ending := by
  unfold next
  split <;> rfl

/-- a source that gave a line has fewer left -/
theorem length_lines_next_lt {s : Source} {line : Text} (h : s.next.1 = .ok (some line)) :
    s.next.2.lines.length < s.lines.length := by
  rw [lines_next]
  cases some : s.lines with
  | nil =>
    unfold next at h
    rw [some] at h
    cases ending : s.ending <;> simp [ending] at h
  | cons first lines => exact Nat.lt_succ_self _

end Source

end EdgeDot
