import EdgeDot.IoError
import EdgeDot.Line.Error

/-!
# What can stop a conversion

A conversion stops at its first failure.  `Failure.sources` lists the failures behind one, the
nearest first.
-/

namespace EdgeDot

inductive Failure where
  | noSuchFile (path : Text)
  | permissionDenied (path : Text)
  | notOpened (path : Text) (cause : IoError)
  /-- the first line is not a count -/
  | malformedCount (e : LocatedError)
  /-- a later line is not an edge -/
  | malformedEdge (e : LocatedError)
  | wrongCount (declared found : Nat)
  | io (cause : IoError)
deriving DecidableEq

namespace Failure

/-- the failure to open a file, told apart by the kind of its cause -/
def opening (path : Text) (cause : IoError) : Failure :=
  match cause.kind with
  | .notFound => .noSuchFile path
  | .permissionDenied => .permissionDenied path
  | _ => .notOpened path cause

def message : Failure → Text
  | .noSuchFile path => path ++ ": file not found".toList
  | .permissionDenied path => path ++ ": permission denied".toList
  | .notOpened path cause => path ++ ": ".toList ++ cause.message
  | .malformedCount e => "malformed edge count: ".toList ++ e.display
  | .malformedEdge e => "malformed edge line: ".toList ++ e.display
  | .wrongCount declared found =>
    "declared ".toList ++ Text.ofNat declared ++ " edges, found ".toList ++ Text.ofNat found
  | .io cause => cause.message

def located? : Failure → Option LocatedError
  | .malformedCount e => some e
  | .malformedEdge e => some e
  | _ => none

/-- the wordings of what is behind a fault of a record: the fault and, for a count, its cause -/
def recordSources (e : RecordError) : List Text :=
  match e with
  | .notACount cause => [e.message, cause.message]
  | _ => [e.message]

def sources : Failure → List Text
  | .malformedCount e => e.display :: recordSources e.cause
  | .malformedEdge e => e.display :: recordSources e.cause
  | .notOpened _ cause => [cause.message]
  | _ => []

end Failure

end EdgeDot
