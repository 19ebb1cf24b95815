import Mathlib.Control.Monad.Basic
import EdgeDot.FileConversion
import EdgeDot.Proofs.Files.Paths

/-!
# Converting one file into another

A conversion between two files is the conversion of the one's bytes in memory, and leaves in the
other exactly what is written there.  What the other file held before makes no difference, so the
conversion can be repeated.

* `convertFiles_of_open`      the tree that a conversion leaves, in one change
* `convertFiles_of_create`    the same between two files
* `convertFiles_idempotent`   a conversion repeated on this tree
* `convertFiles_eq_convert`   the conversion in memory
-/

namespace EdgeDot

/-- what was converted, with a tree in which it was put at a place -/
def FileConversion.into (t : FileTree) (place : Place)
    (converted : Except Failure Totals × List Event × Bytes) : FileConversion :=
  ⟨converted.1, converted.2.1, t.put place (.file converted.2.2)⟩

theorem FileConversion.into_into (t : FileTree) (place : Place)
    (converted : Except Failure Totals × List Event × Bytes) :
    into (into t place converted).tree place converted = into t place converted := by
  show FileConversion.mk _ _ ((t.put place _).put place _) = _
  rw [FileTree.put_put]
  rfl

variable {input output : Text} {options : Options} {t changed : FileTree}
  {fromPlace toPlace : Place} {x : Bytes}

/-- with both paths open, what is read is read in the tree in which the output is empty -/
theorem convertFiles_of_open (hin : t.locate input = .ok fromPlace)
    (hout : t.create output = .ok (toPlace, changed)) :
    convertFiles input output options t =
      .into t toPlace (convertSource input output options (changed.source fromPlace)) := by
  obtain ⟨directory, name, -, -, hchanged⟩ := FileTree.create_eq_ok_iff.1 hout
  unfold convertFiles
  rw [hin, hout]
  dsimp only
  rw [FileConversion.into, hchanged, FileTree.put_put]

/-- between two files a conversion changes one place, whatever it held -/
theorem convertFiles_of_create (hin : t.locate input = .ok fromPlace)
    (hfile : t.node? fromPlace = some (.file x)) (hout : t.create output = .ok (toPlace, changed))
    (hne : toPlace ≠ fromPlace) :
    convertFiles input output options t =
      .into t toPlace (convertSource input output options (.ofBytes x)) := by
  obtain ⟨directory, name, -, -, hchanged⟩ := FileTree.create_eq_ok_iff.1 hout
  have hkept : changed.node? fromPlace = some (.file x) := by
    rw [hchanged, t.node?_put_of_ne _ hne.symm, hfile]
  rw [convertFiles_of_open hin hout, FileTree.source_of_file hkept]

theorem convertFiles_idempotent (hin : t.locate input = .ok fromPlace)
    (hfile : t.node? fromPlace = some (.file x)) (hout : t.create output = .ok (toPlace, changed))
    (hne : toPlace ≠ fromPlace) :
    convertFiles input output options (convertFiles input output options t).tree =
      convertFiles input output options t := by
  obtain ⟨directory, name, hcreates, hplace, -⟩ := FileTree.create_eq_ok_iff.1 hout
  have hfree : t.node? toPlace ≠ some .directory := hplace ▸ hcreates.free
  -- both paths still lead where they led, and the file that is read is the same
  have hkeeps := FileTree.keeps_put hfree (convertSource input output options (.ofBytes x)).2.2
  have hsame := (t.node?_put_of_ne
    (.file (convertSource input output options (.ofBytes x)).2.2) hne.symm).trans hfile
  rw [convertFiles_of_create hin hfile hout hne]
  exact (convertFiles_of_create (hkeeps.locate hin) hsame (hkeeps.create hout) hne).trans
    (FileConversion.into_into _ _ _)

/-- Between two files a conversion comes to what the conversion of the one's bytes in memory comes
to, under the name of the one's path and into a sink that does not fail, and the other then holds
exactly what was written, also if the conversion failed.  Repeated on the tree that it left, it
comes to the same and leaves the same. -/
theorem convertFiles_eq_convert (hin : t.locate input = .ok fromPlace)
    (hfile : t.node? fromPlace = some (.file x)) (hout : t.create output = .ok (toPlace, changed))
    (hne : toPlace ≠ fromPlace) :
    let inMemory := convert input options (.ofBytes x) .unlimited
    let converted := convertFiles input output options t
    converted.result = inMemory.result ∧
    converted.events = inMemory.events ++ (match inMemory.result with
      | .error _ => []
      | .ok totals => [.converted input output totals.edges]) ∧
    converted.tree.node? toPlace = some (.file inMemory.sink.output) ∧
    convertFiles input output options converted.tree = converted := by
  intro inMemory converted
  obtain ⟨directory, name, -, hplace, -⟩ := FileTree.create_eq_ok_iff.1 hout
  have hroot : toPlace ≠ [] := by
    rw [hplace]
    exact List.append_ne_nil_of_right_ne_nil _ (List.cons_ne_nil _ _)
  have honce : converted = .into t toPlace (convertSource input output options (.ofBytes x)) :=
    convertFiles_of_create hin hfile hout hne
  refine ⟨?_, ?_, ?_, convertFiles_idempotent hin hfile hout hne⟩
  · rw [honce]
    rfl
  · rw [honce]
    rfl
  · rw [honce]
    exact t.node?_put_self _ hroot

/-- a conversion that fails at its third line, into a file that held more than is written: the file
holds the statements written before, and again after a repetition -/
theorem convertFiles_eq_convert_overwriting :
    let t : FileTree := { nodes :=
      [(["in".toList], .file (Text.encode "1\na b\nc\n".toList)),
        (["out".toList], .file (Text.encode "what was here before, and more of it".toList))] }
    let converted := convertFiles "in".toList "./out".toList {} t
    t.locate "in".toList = .ok ["in".toList] ∧
    t.node? ["in".toList] = some (.file (Text.encode "1\na b\nc\n".toList)) ∧
    t.create "./out".toList = .ok (["out".toList], t.put ["out".toList] (.file [])) ∧
    ["out".toList] ≠ ["in".toList] ∧
    converted.result =
      .error (.malformedEdge ⟨.tooFew 2 1, "c\n".toList, 3, 2⟩) ∧
    converted.tree.node? ["out".toList] =
      some (.file (Text.encode "digraph in \x7b\n\ta -> b;\n".toList)) ∧
    convertFiles "in".toList "./out".toList {} converted.tree = converted := by
  intro t converted
  have hin : t.locate "in".toList = .ok ["in".toList] := by decide +kernel
  have hfile : t.node? ["in".toList] =
      some (.file (Text.encode "1\na b\nc\n".toList)) := by decide +kernel
  have hout : t.create "./out".toList = .ok (["out".toList], t.put ["out".toList] (.file [])) := rfl
  have hne : ["out".toList] ≠ ["in".toList] := by decide
  obtain ⟨hresult, -, hwritten, hagain⟩ :=
    @convertFiles_eq_convert _ _ {} t _ _ _ _ hin hfile hout hne
  refine ⟨hin, hfile, hout, hne, hresult.trans ?_, hwritten.trans ?_, hagain⟩
  · decide +kernel
  · decide +kernel

end EdgeDot
