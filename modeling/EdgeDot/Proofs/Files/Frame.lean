import EdgeDot.Proofs.Files.Conversion
import EdgeDot.Proofs.Line.Reading

/-!
# What a conversion of files leaves alone

A conversion changes at most the place that the output's path leads to, and that only if both
paths could be opened.  What it cannot open it names.  A directory in place of the input, or the
output itself, is found out only when the output is already empty.

* `Failure.names_opening`         a failure to open a file names its path
* `convertSource_of_nil`          nothing to read, or nothing that can be read
* `convertFiles_frame`            with both paths open, the one place that changes
* `convertFiles_touches_output`   what each outcome leaves of the tree
-/

namespace EdgeDot

/-! ## failures that name a file -/

namespace Failure

/-- the path of the file that could not be opened -/
def path? : Failure → Option Text
  | .noSuchFile path => some path
  | .permissionDenied path => some path
  | .notOpened path _ => some path
  | _ => none

theorem path_prefix_message {f : Failure} {path : Text} (h : f.path? = some path) :
    path ++ ": ".toList <+: f.message := by
  have hwords (rest : Text) : path ++ ": ".toList <+: path ++ (": ".toList ++ rest) := by
    rw [← List.append_assoc]
    exact List.prefix_append _ _
  cases f with
  | noSuchFile other =>
    cases h
    exact hwords "file not found".toList
  | permissionDenied other =>
    cases h
    exact hwords "permission denied".toList
  | notOpened other cause =>
    cases h
    show path ++ ": ".toList <+: path ++ ": ".toList ++ cause.message
    rw [List.append_assoc]
    exact hwords cause.message
  | malformedCount e => cases h
  | malformedEdge e => cases h
  | wrongCount declared found => cases h
  | io cause => cases h

/-- a failure names a file: its path comes first in the wording too -/
def Names (f : Failure) (path : Text) : Prop :=
  f.path? = some path ∧ path ++ ": ".toList <+: f.message

theorem names_opening (path : Text) (cause : IoError) : (opening path cause).Names path := by
  have hpath : (opening path cause).path? = some path := by
    unfold opening
    split <;> rfl
  exact ⟨hpath, path_prefix_message hpath⟩

end Failure

/-! ## what a path leads to -/

/-- the bytes of the file that a path leads to -/
def FileTree.content? (t : FileTree) (path : Text) : Option Bytes :=
  match t.locate path with
  | .error _ => none
  | .ok place =>
    match t.node? place with
    | some (.file content) => some content
    | _ => none

theorem FileTree.content?_of_locate {t : FileTree} {path : Text} {place : Place} {content : Bytes}
    (h : t.locate path = .ok place) (hfile : t.node? place = some (.file content)) :
    t.content? path = some content := by
  rw [content?, h]
  dsimp only
  rw [hfile]

/-! ## inputs without a count -/

/-- nothing is written if there is no first line, or none that can be read -/
theorem convertSource_of_nil (input output : Text) (options : Options) (ending : Ending) :
    convertSource input output options (.ofBytes [] ending) =
      (.error (match ending with
        | .complete => .malformedCount ⟨.tooFew 1 0, [], 1, 0⟩
        | .broken e => .io e), [], []) := by
  unfold convertSource convert
  rw [LineReader.readCount_of_nil (show Source.ofBytes [] ending = ⟨[], ending⟩ from rfl)]
  cases ending <;> rfl

/-! ## the frame -/

section
variable {input output : Text} {t changed : FileTree} {fromPlace toPlace : Place}

/-- with both paths open, the output's leads to the one place that changes -/
theorem convertFiles_frame (options : Options) (hin : t.locate input = .ok fromPlace)
    (hout : t.create output = .ok (toPlace, changed)) :
    let converted := convertFiles input output options t
    let written := (convertSource input output options (changed.source fromPlace)).2.2
    FileTree.Keeps t converted.tree ∧
    converted.tree.locate output = .ok toPlace ∧
    converted.tree.node? toPlace = some (.file written) ∧
    ∀ place, place ≠ toPlace → converted.tree.node? place = t.node? place := by
  intro converted written
  obtain ⟨directory, name, hcreates, hplace, -⟩ := FileTree.create_eq_ok_iff.1 hout
  have hfree : t.node? toPlace ≠ some .directory := hplace ▸ hcreates.free
  have htree : converted.tree = t.put toPlace (.file written) :=
    congrArg FileConversion.tree (convertFiles_of_open hin hout)
  have hkeeps := FileTree.keeps_put hfree written
  have hwritten := t.node?_put_self (.file written) (FileTree.ne_root_of_not_directory hfree)
  rw [htree]
  refine ⟨hkeeps, hkeeps.locate_of_create hout ?_, hwritten, fun place hne => ?_⟩
  · rw [hwritten]
    exact nofun
  · exact t.node?_put_of_ne _ hne

/-- a directory in place of the input is still one when it is read -/
theorem source_of_directory (hdirectory : t.node? fromPlace = some .directory)
    (hout : t.create output = .ok (toPlace, changed)) :
    changed.source fromPlace = .ofBytes [] (.broken .isADirectory) := by
  obtain ⟨directory, name, hcreates, hplace, hchanged⟩ := FileTree.create_eq_ok_iff.1 hout
  have hne : fromPlace ≠ toPlace := by
    rintro rfl
    exact hcreates.free (hplace ▸ hdirectory)
  rw [FileTree.source, hchanged, t.node?_put_of_ne _ hne, hdirectory]

/-- an output that is the input is empty when it is read -/
theorem source_of_created (hout : t.create output = .ok (toPlace, changed)) :
    changed.source toPlace = .ofBytes [] := by
  obtain ⟨directory, name, hcreates, hplace, hchanged⟩ := FileTree.create_eq_ok_iff.1 hout
  have hfree : t.node? toPlace ≠ some .directory := hplace ▸ hcreates.free
  rw [hchanged]
  exact FileTree.source_of_file (t.node?_put_self _ (FileTree.ne_root_of_not_directory hfree))

end

/-- Whatever comes of a conversion, every place keeps its node but the one to which the output's
path leads afterwards.  If the input cannot be opened, or it can and the output cannot be created,
the failure names that path and the tree stays as it was.  Otherwise a directory in place of the
input ends the conversion with a failure to read, and a path to the input, however it is spelled,
in place of the output with the fault that there is no count; both leave the output empty. -/
theorem convertFiles_touches_output (input output : Text) (options : Options) (t : FileTree) :
    let converted := convertFiles input output options t
    (∀ place, converted.tree.locate output ≠ .ok place →
      converted.tree.node? place = t.node? place) ∧
    match t.locate input, t.create output with
    | .error cause, _ =>
      converted.result = .error (.opening input cause) ∧
      (Failure.opening input cause).Names input ∧ converted.tree = t
    | .ok _, .error cause =>
      converted.result = .error (.opening output cause) ∧
      (Failure.opening output cause).Names output ∧ converted.tree = t
    | .ok fromPlace, .ok _ =>
      (t.node? fromPlace = some .directory →
        converted.result = .error (.io .isADirectory) ∧
        converted.tree.content? output = some []) ∧
      (t.locate output = .ok fromPlace →
        (∃ e, converted.result = .error (.malformedCount e) ∧ e.cause = .tooFew 1 0 ∧
          e.location = (1, 1)) ∧
        converted.tree.content? output = some [] ∧ converted.tree.content? input = some []) := by
  intro converted
  cases hin : t.locate input with
  | error cause =>
    have hconverted : converted = ⟨.error (.opening input cause), [], t⟩ := by
      show convertFiles input output options t = _
      unfold convertFiles
      rw [hin]
    rw [hconverted]
    exact ⟨fun _ _ => rfl, rfl, Failure.names_opening input cause, rfl⟩
  | ok fromPlace =>
    cases hout : t.create output with
    | error cause =>
      have hconverted : converted = ⟨.error (.opening output cause), [], t⟩ := by
        show convertFiles input output options t = _
        unfold convertFiles
        rw [hin, hout]
      rw [hconverted]
      exact ⟨fun _ _ => rfl, rfl, Failure.names_opening output cause, rfl⟩
    | ok created =>
      obtain ⟨toPlace, changed⟩ := created
      obtain ⟨hkeeps, hlocate, hwritten, hframe⟩ := convertFiles_frame options hin hout
      have hresult : converted.result =
          (convertSource input output options (changed.source fromPlace)).1 :=
        congrArg FileConversion.result (convertFiles_of_open hin hout)
      refine ⟨fun place hne => hframe place ?_, fun hdirectory => ?_, fun hsame => ?_⟩
      · rintro rfl
        exact hne hlocate
      · rw [source_of_directory hdirectory hout, convertSource_of_nil] at hresult hwritten
        exact ⟨hresult, FileTree.content?_of_locate hlocate hwritten⟩
      · -- the paths still lead where they led, so they lead to the place that was emptied
        have hplace := hkeeps.locate hsame
        rw [hlocate] at hplace
        obtain rfl := Except.ok.inj hplace
        rw [source_of_created hout, convertSource_of_nil] at hresult hwritten
        exact ⟨⟨_, hresult, rfl, rfl⟩, FileTree.content?_of_locate hlocate hwritten,
          FileTree.content?_of_locate (hkeeps.locate hin) hwritten⟩

/-- a path to the input by way of another directory, in place of the output: the input is lost -/
theorem convertFiles_touches_output_same_file :
    let t : FileTree := { nodes :=
      [(["d".toList], .directory), (["in".toList], .file (Text.encode "1\na b\n".toList))] }
    let converted := convertFiles "in".toList "d/../in".toList {} t
    t.locate "in".toList = .ok ["in".toList] ∧
    t.locate "d/../in".toList = .ok ["in".toList] ∧
    (∃ e, converted.result = .error (.malformedCount e) ∧ e.cause = .tooFew 1 0 ∧
      e.location = (1, 1)) ∧
    converted.tree.content? "in".toList = some [] := by
  intro t converted
  have hin : t.locate "in".toList = .ok ["in".toList] := by decide +kernel
  have hsame : t.locate "d/../in".toList = .ok ["in".toList] := by decide +kernel
  have hout : t.create "d/../in".toList =
      .ok (["in".toList], t.put ["in".toList] (.file [])) := rfl
  obtain ⟨-, hcases⟩ := convertFiles_touches_output "in".toList "d/../in".toList {} t
  rw [hin, hout] at hcases
  obtain ⟨hresult, -, hempty⟩ := hcases.2 hsame
  exact ⟨hin, hsame, hresult, hempty⟩

end EdgeDot
