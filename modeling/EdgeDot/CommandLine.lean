import EdgeDot.FileConversion

/-!
# The command line

Arguments are looked at from left to right and the first that decides, decides: a request for
help or for the version, or one that is out of place.  Flags may stand anywhere before `--`.

* `Command.ofArguments`   what the arguments ask for
* `CommandLine.run`       what comes of it
-/

namespace EdgeDot

/-- what the arguments ask for -/
inductive Command where
  | convert (input output : Text) (options : Options)
  | help
  | version
  | misuse
deriving DecidableEq

inductive Argument where
  | path (path : Text)
  | strictCount
  | verbatimIds
  | help
  | version
  | endOfFlags
  | unknown
deriving DecidableEq

/-- the meaning of an argument; joined short flags mean what the first of them means -/
def Argument.of : Text → Argument
  | ['-'] => .path ['-']
  | '-' :: '-' :: name =>
    if name = [] then .endOfFlags
    else if name = "strict-count".toList then .strictCount
    else if name = "verbatim-ids".toList then .verbatimIds
    else if name = "help".toList then .help
    else if name = "version".toList then .version
    else .unknown
  | '-' :: 'h' :: _ => .help
  | '-' :: 'V' :: _ => .version
  | '-' :: _ => .unknown
  | other => .path other

structure Gathered where
  paths : List Text := []
  strictCount : Bool := false
  verbatimIds : Bool := false

namespace Gathered

/-- takes another path, of which there may be two and none empty -/
def addPath? (g : Gathered) (path : Text) : Option Gathered :=
  if path = [] ∨ 2 ≤ g.paths.length then none else some { g with paths := g.paths ++ [path] }

def options (g : Gathered) : Options where
  counting := if g.strictCount then .strict else .lenient
  spelling := if g.verbatimIds then .verbatim else .quoted

/-- what is asked for when no argument is left -/
def command (g : Gathered) : Command :=
  match g.paths with
  | [input, output] => .convert input output g.options
  | _ => .misuse

def readPaths (g : Gathered) : List Text → Command
  | [] => g.command
  | path :: arguments =>
    match g.addPath? path with
    | none => .misuse
    | some g => g.readPaths arguments

def read (g : Gathered) : List Text → Command
  | [] => g.command
  | argument :: arguments =>
    match Argument.of argument with
    | .path path =>
      match g.addPath? path with
      | none => .misuse
      | some g => g.read arguments
    | .strictCount =>
      if g.strictCount then .misuse else { g with strictCount := true }.read arguments
    | .verbatimIds =>
      if g.verbatimIds then .misuse else { g with verbatimIds := true }.read arguments
    | .help => .help
    | .version => .version
    | .endOfFlags => g.readPaths arguments
    | .unknown => .misuse

end Gathered

/-- what the arguments ask for -/
def Command.ofArguments (arguments : List Text) : Command := Gathered.read {} arguments

namespace CommandLine

def helpText : Text :=
  ("Converts an edge list into a Graphviz DOT digraph\n\n" ++
    "Usage: edgelist2dot [OPTIONS] <INPUT> <OUTPUT>\n\n" ++
    "Arguments:\n" ++
    "  <INPUT>   Edge list: a count line followed by `source target` lines\n" ++
    "  <OUTPUT>  Where to write the digraph (created or truncated)\n\n" ++
    "Options:\n" ++
    "      --strict-count  Fail when the number of edges differs from the declared count\n" ++
    "      --verbatim-ids  Copy names into the output as they are, without quoting\n" ++
    "  -h, --help          Print help\n" ++
    "  -V, --version       Print version\n").toList

def versionText : Text := "edgelist2dot 0.1.0\n".toList

def defaultVerbosity : Verbosity := some .warn

/-- the verbosity that is asked for by a name, if there is one and it names any -/
def verbosityOf (name : Option Text) : Verbosity :=
  (name.bind Verbosity.ofName?).getD defaultVerbosity

/-- the log and the failure of a conversion, each line with its end -/
def diagnostics (verbosity : Verbosity) (events : List Event) (result : Except Failure Totals) :
    Text :=
  let log := (verbosity.filter events).flatMap fun e => e.line ++ "\n".toList
  match result with
  | .ok _ => log
  | .error f => log ++ "error: ".toList ++ f.message ++ "\n".toList

def exitCode (result : Except Failure Totals) : Nat :=
  match result with
  | .ok _ => 0
  | .error _ => 1

def misuseCode : Nat := 2

/-- what came of a command: exit code, both outputs, and the tree after it; the wording for a
misuse is left open -/
structure Report where
  code : Nat
  stdout : Text
  stderr : Option Text
  tree : FileTree

def run (arguments : List Text) (verbosity : Verbosity) (t : FileTree) : Report :=
  match Command.ofArguments arguments with
  | .misuse => ⟨misuseCode, [], none, t⟩
  | .help => ⟨0, helpText, some [], t⟩
  | .version => ⟨0, versionText, some [], t⟩
  | .convert input output options =>
    let c := convertFiles input output options t
    ⟨exitCode c.result, [], some (diagnostics verbosity c.events c.result), c.tree⟩

end CommandLine

end EdgeDot
