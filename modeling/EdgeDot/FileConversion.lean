import EdgeDot.Conversion
import EdgeDot.FileTree

/-!
# Converting files

The input is opened before the output is created, and read after that: an output that is the
input itself is empty when it is read.  The digraph has the name of the input's path, and the
output keeps what was written before a failure.

* `convertSource`   from what one file gives to what the other takes
* `convertFiles`    the same within a tree of files
-/

namespace EdgeDot

/-- converts what is read from the input: the result, what was told, and what to write -/
def convertSource (input output : Text) (options : Options) (source : Source) :
    Except Failure Totals × List Event × Bytes :=
  let t := convert input options { source } .unlimited
  let done :=
    match t.result with
    | .error _ => []
    | .ok totals => [.converted input output totals.edges]
  (t.result, t.events ++ done, t.sink.output)

/-- what came of a conversion of files: its result, what it told, and the tree after it -/
structure FileConversion where
  result : Except Failure Totals
  events : List Event
  tree : FileTree

/-- converts the file at one path into the file at another -/
def convertFiles (input output : Text) (options : Options) (t : FileTree) : FileConversion :=
  match t.locate input with
  | .error e => ⟨.error (.opening input e), [], t⟩
  | .ok fromPlace =>
    match t.create output with
    | .error e => ⟨.error (.opening output e), [], t⟩
    | .ok (toPlace, t) =>
      let converted := convertSource input output options (t.source fromPlace)
      ⟨converted.1, converted.2.1, t.put toPlace (.file converted.2.2)⟩

end EdgeDot
