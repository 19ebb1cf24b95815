import EdgeDot.Count
import EdgeDot.Edge
import EdgeDot.Token.Stream

/-!
# Records

A record is read off the front of a stream of tokens: an edge takes two, a count takes one.
Tokens after a record are left in the stream, and a record that fails keeps those that it took.

* `Edge.read`, `Count.read`   the two records
* `Record.Request.runAll`     several records one after the other, also behind failures
-/

namespace EdgeDot

open TokenStream

inductive RecordError where
  /-- the tokens ended too early -/
  | tooFew (expected found : Nat)
  /-- tokens follow where none may -/
  | surplus
  /-- the token of a count is not one -/
  | notACount (cause : CountError)
deriving DecidableEq

namespace RecordError

def message : RecordError → Text
  | .tooFew expected found =>
    "expected ".toList ++ Text.ofNat expected ++ " tokens, found ".toList ++ Text.ofNat found
  | .surplus => "unexpected input after the edge count".toList
  | .notACount _ => "edge count is not a non-negative integer".toList

def isTooFew : RecordError → Bool
  | .tooFew _ _ => true
  | _ => false

/-- whether a token is to blame; otherwise the end of the line is -/
def blamesToken : RecordError → Bool
  | .tooFew _ _ => false
  | _ => true

end RecordError

section
variable {σ : Type} [TokenStream σ]

/-- an edge of the next two tokens -/
def Edge.read (stream : σ) : Except RecordError Edge × σ :=
  match next stream with
  | (none, stream) => (.error (.tooFew 2 0), stream)
  | (some source, stream) =>
    match next stream with
    | (none, stream) => (.error (.tooFew 2 1), stream)
    | (some target, stream) => (.ok ⟨source, target⟩, stream)

/-- a count of the next token, which is taken even if it is none -/
def Count.read (stream : σ) : Except RecordError Nat × σ :=
  match next stream with
  | (none, stream) => (.error (.tooFew 1 0), stream)
  | (some token, stream) => ((parse token).mapError .notACount, stream)

namespace Record

inductive Request where
  | edge
  | count
  | token

inductive Answer where
  | edge (result : Except RecordError Edge)
  | count (result : Except RecordError Nat)
  | token (token : Option Text)

def Request.run (stream : σ) : Request → Answer × σ
  | .edge => let read := Edge.read stream; (.edge read.1, read.2)
  | .count => let read := Count.read stream; (.count read.1, read.2)
  | .token => let read := next stream; (.token read.1, read.2)

/-- answers requests in order on one stream -/
def Request.runAll (stream : σ) : List Request → List Answer × σ
  | [] => ([], stream)
  | request :: requests =>
    let first := request.run stream
    let later := runAll first.2 requests
    (first.1 :: later.1, later.2)

end Record

end

end EdgeDot
