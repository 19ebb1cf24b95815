import EdgeDot.Dot.Writer
import EdgeDot.Text.Blank

/-!
# Reading a digraph back

A reader of the digraphs `digraph ID { (ID -> ID ;)* }`.  The lexemes are the longest that match,
with white space of ASCII between them; a name is a word that is no keyword, a numeral, or
anything between double quotes, up to the first that is not escaped.

* `Dot.Lexeme.read?`      the lexeme that a text begins with
* `Dot.Lexeme.readAll?`   the lexemes of a text
* `Dot.Document.parse?`   the digraph that a text describes
-/

namespace EdgeDot.Dot

structure Document where
  name : Text
  edges : List Edge
deriving DecidableEq

def Document.render (spelling : Spelling) (d : Document) : Text := document spelling d.name d.edges

inductive Lexeme where
  | digraph
  | opening
  | closing
  | arrow
  | semicolon
  | name (name : Text)
deriving DecidableEq

/-! ## names -/

/-- the text up to the closing quote, its escapes undone, and what follows the quote -/
def unquote? : Text → Option (Text × Text)
  | [] => none
  | '"' :: s => some ([], s)
  | '\\' :: '"' :: s => (unquote? s).map fun r => ('"' :: r.1, r.2)
  | '\\' :: '\\' :: s => (unquote? s).map fun r => ('\\' :: r.1, r.2)
  | '\\' :: 'n' :: s => (unquote? s).map fun r => ('\n' :: r.1, r.2)
  | c :: s => (unquote? s).map fun r => (c :: r.1, r.2)

/-- the word that a text begins with, possibly empty, and what follows it -/
def word (s : Text) : Text × Text := (s.takeWhile isWordPart, s.dropWhile isWordPart)

/-- the digits that a text begins with, possibly none, and what follows them -/
def digits (s : Text) : Text × Text := (s.takeWhile Char.isDigit, s.dropWhile Char.isDigit)

def unsignedNumeral? (s : Text) : Option (Text × Text) :=
  let whole := digits s
  match whole.2 with
  | '.' :: s =>
    let fraction := digits s
    if whole.1.isEmpty && fraction.1.isEmpty then none
    else some (whole.1 ++ '.' :: fraction.1, fraction.2)
  | s => if whole.1.isEmpty then none else some (whole.1, s)

/-- the longest numeral that a text begins with, and what follows it -/
def numeral? : Text → Option (Text × Text)
  | '-' :: s => (unsignedNumeral? s).map fun r => ('-' :: r.1, r.2)
  | s => unsignedNumeral? s

/-! ## lexemes -/

def isGap (c : Char) : Bool := isBlank c && c.toNat < 0x80

namespace Lexeme

/-- a word as a lexeme: the keyword that begins a digraph, or a name; no other keyword is either -/
def ofWord? (w : Text) : Option Lexeme :=
  if w.map Char.toLower = "digraph".toList then some .digraph
  else if isKeyword w then none
  else some (.name w)

/-- the longest lexeme that a text begins with, and what follows it -/
def read? : Text → Option (Lexeme × Text)
  | [] => none
  | '\x7b' :: s => some (.opening, s)
  | '\x7d' :: s => some (.closing, s)
  | ';' :: s => some (.semicolon, s)
  | '-' :: '>' :: s => some (.arrow, s)
  | '"' :: s => (unquote? s).map fun r => (.name r.1, r.2)
  | c :: s =>
    if isWordStart c then
      let w := word (c :: s)
      (ofWord? w.1).map fun lexeme => (lexeme, w.2)
    else (numeral? (c :: s)).map fun r => (.name r.1, r.2)

theorem length_unquote?_le {s name rest : Text} (h : unquote? s = some (name, rest)) :
    rest.length ≤ s.length := by
  fun_induction unquote? s generalizing name rest with
  | case1 => cases h
  | case2 s =>
    cases h
    exact Nat.le_succ _
  | case3 s ih | case4 s ih | case5 s ih =>
    obtain ⟨r, found, equal⟩ := Option.map_eq_some_iff.1 h
    cases equal
    have := ih found
    simp only [List.length_cons]
    omega
  | case6 c s _ _ _ _ ih =>
    obtain ⟨r, found, equal⟩ := Option.map_eq_some_iff.1 h
    cases equal
    exact Nat.le_succ_of_le (ih found)

theorem length_digits_le (s : Text) : (digits s).2.length ≤ s.length :=
  (List.dropWhile_suffix _).length_le

theorem length_digits_lt {s : Text} (h : (digits s).1 ≠ []) : (digits s).2.length < s.length := by
  have whole := congrArg List.length (List.takeWhile_append_dropWhile (p := Char.isDigit) (l := s))
  have := List.length_pos_iff.2 h
  simp only [List.length_append, digits] at whole this ⊢
  omega

theorem length_unsignedNumeral?_lt {s number rest : Text}
    (h : unsignedNumeral? s = some (number, rest)) : rest.length < s.length := by
  simp only [unsignedNumeral?] at h
  have shorter := length_digits_le s
  split at h
  next t point =>
    rw [point] at shorter
    have := length_digits_le t
    split at h
    · cases h
    · cases h
      simp only [List.length_cons] at shorter
      omega
  next =>
    split at h
    · cases h
    next digit =>
      cases h
      exact length_digits_lt (by simpa using digit)

theorem length_numeral?_lt {s number rest : Text} (h : numeral? s = some (number, rest)) :
    rest.length < s.length := by
  unfold numeral? at h
  split at h
  · obtain ⟨r, found, equal⟩ := Option.map_eq_some_iff.1 h
    cases equal
    exact Nat.lt_succ_of_lt (length_unsignedNumeral?_lt found)
  · exact length_unsignedNumeral?_lt h

theorem length_read?_lt {s rest : Text} {lexeme : Lexeme} (h : read? s = some (lexeme, rest)) :
    rest.length < s.length := by
  unfold read? at h
  split at h
  · cases h
  · cases h; exact Nat.lt_succ_self _
  · cases h; exact Nat.lt_succ_self _
  · cases h; exact Nat.lt_succ_self _
  · cases h
    simp only [List.length_cons]
    omega
  · obtain ⟨r, found, equal⟩ := Option.map_eq_some_iff.1 h
    cases equal
    exact Nat.lt_succ_of_le (length_unquote?_le found)
  next c s _ _ _ _ _ =>
    split at h
    next start =>
      obtain ⟨r, found, equal⟩ := Option.map_eq_some_iff.1 h
      cases equal
      have part : isWordPart c = true := by simp [isWordPart, start]
      simp only [word, List.dropWhile_cons_of_pos part]
      exact Nat.lt_succ_of_le (List.dropWhile_suffix _).length_le
    · obtain ⟨r, found, equal⟩ := Option.map_eq_some_iff.1 h
      cases equal
      exact length_numeral?_lt found

/-- the lexemes of a text, if it consists of lexemes -/
def readAll? (s : Text) : Option (List Lexeme) :=
  match _gap : s.dropWhile isGap with
  | [] => some []
  | c :: t =>
    match _h : read? (c :: t) with
    | none => none
    | some (lexeme, rest) => (readAll? rest).map (lexeme :: ·)
termination_by s.length
decreasing_by
  have := length_read?_lt _h
  have := (List.dropWhile_suffix isGap (l := s)).length_le
  rw [_gap] at this
  omega

end Lexeme

/-! ## digraphs -/

namespace Document

/-- the edges up to the closing brace, which ends the document -/
def edges? : List Lexeme → Option (List Edge)
  | [.closing] => some []
  | .name source :: .arrow :: .name target :: .semicolon :: lexemes =>
    (edges? lexemes).map (⟨source, target⟩ :: ·)
  | _ => none

def ofLexemes? : List Lexeme → Option Document
  | .digraph :: .name name :: .opening :: lexemes => (edges? lexemes).map fun edges => ⟨name, edges⟩
  | _ => none

/-- the digraph that a text describes -/
def parse? (s : Text) : Option Document := (Lexeme.readAll? s).bind ofLexemes?

end Document

end EdgeDot.Dot
