import EdgeDot.Record

/-!
# Errors with a place

A fault of a line comes with the line, its number, and the byte position that had been reached
in it.  It is shown under the line by a caret, as long as the line is not too long.

* `LocatedError.marker`    the byte that the caret marks; a character begins there, or the line ends
* `LocatedError.location`  row and column, both counted from one
* `LocatedError.display`   the wording of the error with its place
-/

namespace EdgeDot

/-- a line without the carriage returns and line feeds at its end -/
def lineContent (line : Text) : Text := (line.reverse.dropWhile isLineEnd).reverse

structure LocatedError where
  cause : RecordError
  /-- the line, with what ends it -/
  line : Text
  row : Nat
  /-- the bytes of the line that had been read -/
  column : Nat
deriving DecidableEq

namespace LocatedError

def content (e : LocatedError) : Text := lineContent e.line

/-- what precedes the place of the error in its line: all that was read, less the last character
of a token that is to blame -/
def before (e : LocatedError) : Text :=
  let read := min e.column e.content.byteLength
  e.content.takeBytes (if e.cause.blamesToken then read - 1 else read)

def marker (e : LocatedError) : Nat := e.before.byteLength

def location (e : LocatedError) : Nat × Nat := (e.row, e.marker + 1)

/-- lines of more bytes than this are not shown -/
def longest : Nat := 120

/-- blank space as wide as a text: its separators are kept, so that tabs stay tabs -/
def blankOut (s : Text) : Text := s.map fun c => if isSeparator c then c else ' '

/-- the error in words: with its line and a caret under the place, or with row and column -/
def display (e : LocatedError) : Text :=
  if e.content.byteLength ≤ longest then
    let label := Text.ofNat e.row ++ "| ".toList
    e.cause.message ++ " at\n".toList ++ label ++ e.content ++ "\n".toList ++
      List.replicate label.length ' ' ++ blankOut e.before ++ "^".toList
  else
    e.cause.message ++ " at line ".toList ++ Text.ofNat e.row ++ ", column ".toList ++
      Text.ofNat (e.marker + 1)

theorem before_prefix (e : LocatedError) : e.before <+: e.content := Text.takeBytes_prefix _ _

theorem marker_le (e : LocatedError) : e.marker ≤ e.content.byteLength := by
  refine Nat.le_trans (Text.byteLength_takeBytes_le _ _) ?_
  split
  · omega
  · exact Nat.min_le_right _ _

theorem length_blankOut (s : Text) : (blankOut s).length = s.length := List.length_map ..

end LocatedError

end EdgeDot
