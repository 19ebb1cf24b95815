import EdgeDot.Text.Basic

/-!
# Names in DOT

DOT takes three kinds of names: words, numerals, and anything at all between double quotes.  A
name is written bare where it is a word or a numeral, and quoted otherwise, unless names are to
be copied as they are.

* `Dot.quote`             a name between quotes
* `Dot.Spelling.render`   a name as it is written
-/

namespace EdgeDot.Dot

inductive Spelling where
  /-- as DOT demands -/
  | quoted
  /-- as they are, even where that is not DOT -/
  | verbatim
deriving DecidableEq

/-- the words with a meaning of their own, in any case of letters -/
def keywords : List Text :=
  ["graph".toList, "digraph".toList, "subgraph".toList, "node".toList, "edge".toList,
    "strict".toList]

/-- a character with which a word may begin: a letter, an underscore, anything beyond ASCII -/
def isWordStart (c : Char) : Bool := c.isAlpha || c = '_' || 0x80 ≤ c.toNat

def isWordPart (c : Char) : Bool := isWordStart c || c.isDigit

/-- whether a text is one of the keywords, whatever the case of its ASCII letters -/
def isKeyword (s : Text) : Bool := (s.map Char.toLower) ∈ keywords

def isPlain : Text → Bool
  | [] => false
  | c :: s => isWordStart c && s.all isWordPart && !isKeyword (c :: s)

def unsigned : Text → Text
  | '-' :: s => s
  | s => s

/-- whether a name is a numeral: an optional minus sign, digits, and at most one point among or
around them -/
def isNumeral (s : Text) : Bool :=
  let whole := (unsigned s).takeWhile (· ≠ '.')
  let fraction := ((unsigned s).dropWhile (· ≠ '.')).drop 1
  (!whole.isEmpty || !fraction.isEmpty) && whole.all Char.isDigit && fraction.all Char.isDigit

def escape : Char → Text
  | '"' => ['\\', '"']
  | '\\' => ['\\', '\\']
  | '\n' => ['\\', 'n']
  | c => [c]

def quote (s : Text) : Text := '"' :: (s.flatMap escape ++ ['"'])

/-- whether DOT takes a name without quotes -/
def isBare (s : Text) : Bool := isPlain s || isNumeral s

def Spelling.render (spelling : Spelling) (name : Text) : Text :=
  match spelling with
  | .quoted => if isBare name then name else quote name
  | .verbatim => name

theorem render_verbatim (name : Text) : Spelling.verbatim.render name = name := rfl
theorem render_of_isBare {name : Text} (h : isBare name = true) (spelling : Spelling) :
    spelling.render name = name := by
  cases spelling
  · exact if_pos h
  · rfl

end EdgeDot.Dot
