import EdgeDot.Text.Basic

/-!
# Failures of input and output

A failure has a kind, by which it is told apart, and a wording.  The ones that the library itself
comes upon are listed here; a source or a sink may bring its own.
-/

namespace EdgeDot

inductive IoKind where
  | notFound
  | permissionDenied
  | invalidData
  | writeZero
  | isADirectory
  | notADirectory
  | invalidFilename
  | invalidInput
  | other
deriving DecidableEq

structure IoError where
  kind : IoKind
  message : Text
deriving DecidableEq

namespace IoError

def invalidText : IoError := ⟨.invalidData, "stream did not contain valid UTF-8".toList⟩

def writeZero : IoError := ⟨.writeZero, "failed to write whole buffer".toList⟩

def notFound : IoError := ⟨.notFound, "No such file or directory (os error 2)".toList⟩

def isADirectory : IoError := ⟨.isADirectory, "Is a directory (os error 21)".toList⟩

def notADirectory : IoError := ⟨.notADirectory, "Not a directory (os error 20)".toList⟩

def invalidFilename : IoError := ⟨.invalidFilename, "File name too long (os error 36)".toList⟩

/-- a path with a NUL byte -/
def invalidPath : IoError := ⟨.invalidInput, "file name contained an unexpected NUL byte".toList⟩

end IoError

end EdgeDot
