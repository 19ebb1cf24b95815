import EdgeDot.CommandLine

/-!
# What the arguments give

Flags stand before the first `--`, and all other arguments are paths.  A conversion is of the two
paths, in their order, and its options are the flags that are there.

* `Argument.written_of`                 how an argument of each meaning is written
* `Arguments.early`, `Arguments.late`   what stands before the first `--` and behind it
* `Arguments.paths`, `Arguments.options`   the paths and the options that the arguments give
* `Command.eq_of_convert`               a conversion is what the arguments give
-/

namespace EdgeDot

/-! ## one argument -/

namespace Argument

def endText : Text := "--".toList

def strictCountText : Text := "--strict-count".toList

def verbatimIdsText : Text := "--verbatim-ids".toList

/-- a path and not a flag: `-` alone is one -/
def isPath (argument : Text) : Bool := argument.head? ≠ some '-' || argument = "-".toList

/-- how an argument of a meaning is written -/
def Written (argument : Text) : Argument → Prop
  | .path text => text = argument ∧ isPath argument = true
  | .strictCount => argument = strictCountText
  | .verbatimIds => argument = verbatimIdsText
  | .endOfFlags => argument = endText
  | _ => isPath argument = false

theorem written_of (argument : Text) : Written argument (.of argument) := by
  unfold of
  split
  next => exact ⟨rfl, rfl⟩
  next name =>
    split
    next h => exact congrArg (fun s : Text => '-' :: '-' :: s) h
    split
    next h => exact congrArg (fun s : Text => '-' :: '-' :: s) h
    split
    next h => exact congrArg (fun s : Text => '-' :: '-' :: s) h
    split
    next => exact (rfl : isPath ('-' :: '-' :: name) = false)
    split
    next => exact (rfl : isPath ('-' :: '-' :: name) = false)
    next => exact (rfl : isPath ('-' :: '-' :: name) = false)
  next tail => exact (rfl : isPath ('-' :: 'h' :: tail) = false)
  next tail => exact (rfl : isPath ('-' :: 'V' :: tail) = false)
  next rest hdash _ _ _ =>
    cases rest with
    | nil => exact absurd rfl hdash
    | cons c rest => exact (rfl : isPath ('-' :: c :: rest) = false)
  next _ _ _ _ hother =>
    refine ⟨rfl, ?_⟩
    cases argument with
    | nil => rfl
    | cons c rest =>
      have hc : c ≠ '-' := by
        rintro rfl
        exact hother rest rfl
      simp [isPath, hc]

end Argument

/-! ## all arguments -/

namespace Arguments

/-- the arguments before the first `--`: flags and paths -/
def early (arguments : List Text) : List Text := arguments.takeWhile (· ≠ Argument.endText)

/-- the arguments behind the first `--`: paths only -/
def late (arguments : List Text) : List Text :=
  (arguments.dropWhile (· ≠ Argument.endText)).tail

def paths (arguments : List Text) : List Text :=
  (early arguments).filter Argument.isPath ++ late arguments

/-- the options that the flags stand for -/
def options (arguments : List Text) : Options where
  counting := if (early arguments).contains Argument.strictCountText then .strict else .lenient
  spelling := if (early arguments).contains Argument.verbatimIdsText then .verbatim else .quoted

theorem counting_eq_strict_iff (arguments : List Text) :
    (options arguments).counting = .strict ↔ Argument.strictCountText ∈ early arguments := by
  rw [← List.contains_iff_mem]
  unfold options
  split
  next h => exact ⟨fun _ => h, fun _ => rfl⟩
  next h => exact ⟨nofun, fun hmem => absurd hmem h⟩

theorem spelling_eq_verbatim_iff (arguments : List Text) :
    (options arguments).spelling = .verbatim ↔ Argument.verbatimIdsText ∈ early arguments := by
  rw [← List.contains_iff_mem]
  unfold options
  dsimp only
  split
  next h => exact ⟨fun _ => h, fun _ => rfl⟩
  next h => exact ⟨nofun, fun hmem => absurd hmem h⟩

theorem early_end (later : List Text) : early (Argument.endText :: later) = [] := rfl

section
variable {argument : Text} (h : argument ≠ Argument.endText) (later : List Text)
include h

theorem early_cons : early (argument :: later) = argument :: early later :=
  List.takeWhile_cons_of_pos (decide_eq_true h)

theorem late_cons : late (argument :: later) = late later := by
  unfold late
  rw [List.dropWhile_cons_of_pos (p := (· ≠ Argument.endText)) (decide_eq_true h)]

theorem paths_of_path (hpath : Argument.isPath argument = true) :
    paths (argument :: later) = argument :: paths later := by
  rw [paths, early_cons h, late_cons h, List.filter_cons_of_pos hpath]
  rfl

theorem paths_of_flag (hflag : Argument.isPath argument = false) :
    paths (argument :: later) = paths later := by
  rw [paths, early_cons h, late_cons h, List.filter_cons_of_neg (by rw [hflag]; exact nofun)]
  rfl

end

end Arguments

namespace Gathered
variable {g g' : Gathered} {input output : Text} {options : Options}

theorem command_eq_convert (h : g.command = .convert input output options) :
    g.paths = [input, output] ∧ options = g.options := by
  unfold command at h
  split at h
  next first second hpaths =>
    cases h
    exact ⟨hpaths, rfl⟩
  next => cases h

theorem addPath?_eq_some {path : Text} (h : g.addPath? path = some g') :
    g' = { g with paths := g.paths ++ [path] } := by
  unfold addPath? at h
  split at h
  · cases h
  · exact (Option.some.inj h).symm

/-- behind the flags only paths are added -/
theorem readPaths_eq_convert {later : List Text}
    (h : g.readPaths later = .convert input output options) :
    g.paths ++ later = [input, output] ∧ options = g.options := by
  induction later generalizing g with
  | nil =>
    rw [List.append_nil]
    exact command_eq_convert h
  | cons path later ih =>
    rw [readPaths] at h
    split at h
    next => cases h
    next g' hadd =>
      obtain ⟨hpaths, hoptions⟩ := ih h
      rw [addPath?_eq_some hadd] at hpaths hoptions
      rw [List.append_assoc] at hpaths
      exact ⟨hpaths, hoptions⟩

/-- what was gathered, with the flags of further arguments -/
def withFlags (g : Gathered) (arguments : List Text) : Gathered where
  paths := g.paths
  strictCount := g.strictCount || (Arguments.early arguments).contains Argument.strictCountText
  verbatimIds := g.verbatimIds || (Arguments.early arguments).contains Argument.verbatimIdsText

theorem withFlags_cons {argument : Text} (h : argument ≠ Argument.endText) (later : List Text) :
    g.withFlags (argument :: later) =
      { g with
        strictCount := g.strictCount || argument = Argument.strictCountText
        verbatimIds := g.verbatimIds || argument = Argument.verbatimIdsText
        : Gathered }.withFlags later := by
  have hbeq (text : Text) : (text == argument) = decide (argument = text) := by
    rw [Bool.eq_iff_iff, beq_iff_eq, decide_eq_true_iff, eq_comm]
  unfold withFlags
  rw [Arguments.early_cons h]
  simp only [List.contains_cons, hbeq, Bool.or_assoc]

theorem read_eq_convert {arguments : List Text}
    (h : g.read arguments = .convert input output options) :
    g.paths ++ Arguments.paths arguments = [input, output] ∧
      options = (g.withFlags arguments).options := by
  induction arguments generalizing g with
  | nil =>
    obtain ⟨hpaths, hoptions⟩ := command_eq_convert h
    refine ⟨(List.append_nil _).trans hpaths, ?_⟩
    rw [hoptions]
    simp [withFlags, Gathered.options, Arguments.early]
  | cons argument arguments ih =>
    have hwritten := Argument.written_of argument
    rw [read] at h
    cases hof : Argument.of argument with
    | path text =>
      rw [hof] at h hwritten
      obtain ⟨rfl, hpath⟩ := hwritten
      have hapart {other : Text} (hother : Argument.isPath other = false) : text ≠ other := by
        rintro rfl
        rw [hother] at hpath
        cases hpath
      dsimp only at h
      cases hadd : g.addPath? text with
      | none =>
        rw [hadd] at h
        cases h
      | some g' =>
        rw [hadd] at h
        obtain ⟨hpaths, hoptions⟩ := ih h
        rw [addPath?_eq_some hadd] at hpaths hoptions
        rw [Arguments.paths_of_path (hapart rfl) arguments hpath, withFlags_cons (hapart rfl),
          decide_eq_false (hapart rfl), decide_eq_false (hapart rfl), Bool.or_false,
          Bool.or_false]
        exact ⟨List.append_cons .. ▸ hpaths, hoptions⟩
    | strictCount =>
      rw [hof] at h hwritten
      obtain rfl := hwritten
      dsimp only at h
      split at h
      · cases h
      obtain ⟨hpaths, hoptions⟩ := ih h
      rw [Arguments.paths_of_flag (by decide) arguments rfl, withFlags_cons (by decide),
        decide_eq_true rfl, Bool.or_true, decide_eq_false (by decide), Bool.or_false]
      exact ⟨hpaths, hoptions⟩
    | verbatimIds =>
      rw [hof] at h hwritten
      obtain rfl := hwritten
      dsimp only at h
      split at h
      · cases h
      obtain ⟨hpaths, hoptions⟩ := ih h
      rw [Arguments.paths_of_flag (by decide) arguments rfl, withFlags_cons (by decide),
        decide_eq_false (by decide), Bool.or_false, decide_eq_true rfl, Bool.or_true]
      exact ⟨hpaths, hoptions⟩
    | help =>
      rw [hof] at h
      cases h
    | version =>
      rw [hof] at h
      cases h
    | endOfFlags =>
      rw [hof] at h hwritten
      obtain rfl := hwritten
      obtain ⟨hpaths, hoptions⟩ := readPaths_eq_convert h
      refine ⟨hpaths, ?_⟩
      rw [hoptions]
      simp [withFlags, Gathered.options, Arguments.early_end]
    | unknown =>
      rw [hof] at h
      cases h

end Gathered

/-- a conversion is of the paths that the arguments give, with the options that their flags give -/
theorem Command.eq_of_convert {arguments : List Text} {input output : Text} {options : Options}
    (h : ofArguments arguments = .convert input output options) :
    Arguments.paths arguments = [input, output] ∧ options = Arguments.options arguments := by
  obtain ⟨hpaths, hoptions⟩ := Gathered.read_eq_convert h
  refine ⟨hpaths, hoptions.trans ?_⟩
  simp [Gathered.withFlags, Gathered.options, Arguments.options]

end EdgeDot
