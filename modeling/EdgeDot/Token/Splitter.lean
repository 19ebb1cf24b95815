import EdgeDot.Token.Stream

/-!
# The splitter of edge lists

A splitter yields the maximal runs of characters above the space and knows the position that it
has reached, so a line can be taken up again where it was left, and an error can point at it.

* `Splitter.at?`     a splitter rebuilt from its text and its position
* `Splitter.next`    the next token
* `Splitter.drain`   all tokens that are left
-/

namespace EdgeDot

/-- a text that is split into tokens: the byte position reached and the text from there on -/
structure Splitter where
  position : Nat
  rest : Text

namespace Splitter

def ofText (s : Text) : Splitter := ⟨0, s⟩

/-- a splitter at a byte position of a text; none if the position is inside a character -/
def at? (s : Text) (position : Nat) : Option Splitter :=
  (s.dropBytes? position).map fun rest => ⟨position, rest⟩

/-- the next token; the position moves to its end, or to the end of the text if none is left -/
def next (t : Splitter) : Option Text × Splitter :=
  let cut := Cut.of isSeparator t.rest
  (cut.token?, ⟨t.position + Text.byteLength cut.gap + Text.byteLength cut.token, cut.rest⟩)

instance : TokenStream Splitter := ⟨next⟩

def isAtEnd (t : Splitter) : Bool := t.next.1.isNone

/-- all tokens that are left, each with the splitter after it, and the splitter at the end -/
def drain (t : Splitter) : List (Text × Splitter) × Splitter :=
  match _h : t.next.1 with
  | none => ([], t.next.2)
  | some token =>
    let later := drain t.next.2
    ((token, t.next.2) :: later.1, later.2)
termination_by t.rest.length
decreasing_by exact Cut.length_rest_lt _h

end Splitter

end EdgeDot
