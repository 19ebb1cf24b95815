import EdgeDot.Token.Stream

/-!
# The words of a text

Words are separated by white space in the sense of Unicode.  They serve as tokens where no
position has to be known.
-/

namespace EdgeDot

/-- a text that is split into words: what is left of it -/
structure Words where
  rest : Text

namespace Words

def ofText (s : Text) : Words := ⟨s⟩

/-- the next word -/
def next (w : Words) : Option Text × Words :=
  let cut := Cut.of isBlank w.rest
  (cut.token?, ⟨cut.rest⟩)

instance : TokenStream Words := ⟨next⟩

end Words

end EdgeDot
