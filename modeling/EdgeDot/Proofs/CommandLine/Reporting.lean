import EdgeDot.Proofs.CommandLine.Arguments

/-!
# What a run reports

A run converts the files that its arguments name and reports what came of it: by its exit code,
and by the log and the failure on the error output.  How much of the log is shown makes no
difference to anything else.

* `Verbosity.shows_eq`           a verbosity as a bound on the rank of the levels
* `Event.line_eq`                the lines of the log
* `CommandLine.diagnostics_eq`   the error output: the log, then the failure
* `CommandLine.Trims`            error outputs of which one lacks some lines of the log
* `CommandLine.run_reports`      a run, and the same run under another verbosity
-/

namespace EdgeDot

/-! ## verbosities -/

namespace Verbosity

/-- the rank of the least grave level that is shown; below all levels if none is -/
def rank : Verbosity → Nat
  | none => 0
  | some least => least.rank

/-- the name by which a verbosity is asked for -/
def name : Verbosity → Text
  | none => "off".toList
  | some .error => "error".toList
  | some .warn => "warn".toList
  | some .info => "info".toList
  | some .debug => "debug".toList
  | some .trace => "trace".toList

theorem ofName?_name (v : Verbosity) : ofName? v.name = some v := by
  rcases v with _ | level
  · rfl
  · cases level <;> rfl

theorem shows_eq (v : Verbosity) (l : Level) : v.shows l = decide (l.rank ≤ v.rank) := by
  rcases v with _ | least
  · cases l <;> rfl
  · rfl

/-- a quieter log shows what it shows of a louder one -/
theorem filter_filter {v w : Verbosity} (h : v.rank ≤ w.rank) (events : List Event) :
    v.filter (w.filter events) = v.filter events := by
  unfold filter
  rw [List.filter_filter]
  refine List.filter_congr fun e _ => ?_
  rw [shows_eq, shows_eq, Bool.and_eq_left_iff_imp]
  intro hshown
  exact decide_eq_true (Nat.le_trans (of_decide_eq_true hshown) h)

end Verbosity

/-! ## events -/

/-- a line of the log: the level of an event, its words, and its fields by their names -/
theorem Event.line_eq (e : Event) : e.line =
    match e with
    | .skippingEmptyLine row => "DEBUG skipping empty line line=".toList ++ Text.ofNat row
    | .ignoringTokens row =>
      "DEBUG ignoring tokens after the edge target line=".toList ++ Text.ofNat row
    | .countDiffers declared found =>
      "WARN edge count differs from the declared count declared=".toList ++ Text.ofNat declared ++
        " found=".toList ++ Text.ofNat found
    | .converted input output edges =>
      "INFO converted edge list input=".toList ++ input ++ " output=".toList ++ output ++
        " edges=".toList ++ Text.ofNat edges := by
  cases e with
  | skippingEmptyLine row =>
    show "DEBUG".toList ++ " ".toList ++ (_ ++ _) = _
    simp only [← List.append_assoc, ← String.toList_append, String.reduceAppend]
  | ignoringTokens row =>
    show "DEBUG".toList ++ " ".toList ++ (_ ++ _) = _
    simp only [← List.append_assoc, ← String.toList_append, String.reduceAppend]
  | countDiffers declared found =>
    show "WARN".toList ++ " ".toList ++ (_ ++ _ ++ _ ++ _) = _
    simp only [← List.append_assoc, ← String.toList_append, String.reduceAppend]
  | converted input output edges =>
    show "INFO".toList ++ " ".toList ++ (_ ++ _ ++ _ ++ _ ++ _ ++ _) = _
    simp only [← List.append_assoc, ← String.toList_append, String.reduceAppend]

/-! ## runs -/

namespace CommandLine

/-- events as the lines of a log -/
def logText (events : List Event) : Text := events.flatMap fun e => e.line ++ "\n".toList

/-- the last words of a run that failed -/
def failureText : Except Failure Totals → Text
  | .ok _ => []
  | .error f => "error: ".toList ++ f.message ++ "\n".toList

theorem diagnostics_eq (v : Verbosity) (events : List Event) (result : Except Failure Totals) :
    diagnostics v events result = logText (v.filter events) ++ failureText result := by
  cases result with
  | ok totals => exact (List.append_nil _).symm
  | error f =>
    show logText (v.filter events) ++ "error: ".toList ++ f.message ++ "\n".toList = _
    rw [List.append_assoc, List.append_assoc, ← List.append_assoc "error: ".toList]
    rfl

theorem exitCode_eq_zero_iff (result : Except Failure Totals) :
    exitCode result = 0 ↔ ∃ totals, result = .ok totals := by
  cases result with
  | ok totals => exact ⟨fun _ => ⟨totals, rfl⟩, fun _ => rfl⟩
  | error f => exact ⟨nofun, nofun⟩

theorem exitCode_eq_one_iff (result : Except Failure Totals) :
    exitCode result = 1 ↔ ∃ f, result = .error f := by
  cases result with
  | ok totals => exact ⟨nofun, nofun⟩
  | error f => exact ⟨fun _ => ⟨f, rfl⟩, fun _ => rfl⟩

theorem verbosityOf_name (asked : Option Verbosity) :
    verbosityOf (asked.map Verbosity.name) = asked.getD defaultVerbosity := by
  cases asked with
  | none => rfl
  | some v => exact congrArg (·.getD defaultVerbosity) v.ofName?_name

/-- one error output is the other less some lines of the log, if not the same -/
def Trims (shorter longer : Option Text) : Prop :=
  shorter = longer ∨ ∃ (kept shown : List Event) (last : Text), kept.Sublist shown ∧
    shorter = some (logText kept ++ last) ∧ longer = some (logText shown ++ last)

variable (arguments : List Text) (t : FileTree)

/-- only the error output depends on the verbosity -/
theorem run_of_verbosity (v w : Verbosity) :
    (run arguments v t).code = (run arguments w t).code ∧
      (run arguments v t).stdout = (run arguments w t).stdout ∧
      (run arguments v t).tree = (run arguments w t).tree := by
  unfold run
  cases Command.ofArguments arguments <;> exact ⟨rfl, rfl, rfl⟩

theorem trims_run {v w : Verbosity} (h : v.rank ≤ w.rank) :
    Trims (run arguments v t).stderr (run arguments w t).stderr := by
  unfold run
  cases Command.ofArguments arguments with
  | misuse => exact .inl rfl
  | help => exact .inl rfl
  | version => exact .inl rfl
  | convert input output options =>
    let c := convertFiles input output options t
    refine .inr ⟨v.filter c.events, w.filter c.events, failureText c.result, ?_,
      congrArg some (diagnostics_eq v c.events c.result),
      congrArg some (diagnostics_eq w c.events c.result)⟩
    rw [← Verbosity.filter_filter h]
    exact List.filter_sublist

/-- what comes of the arguments when a verbosity is asked for by its name, or none is -/
def runAs (arguments : List Text) (asked : Option Verbosity) (t : FileTree) : Report :=
  run arguments (verbosityOf (asked.map Verbosity.name)) t

/-- Misuse ends with 2, and a request for help or for the version with 0, and no file changes.
Otherwise the two paths that the arguments give are converted, with the options that their flags
give: the run ends with 0 or 1 as the conversion succeeds or fails, leaves the files as it leaves
them, prints nothing, and tells on the error output the events that are grave enough, warnings
if nothing is asked for, and then the failure.  Asked for another verbosity, the same run differs
in nothing but the lines of the log that it shows. -/
theorem run_reports (arguments : List Text) (asked other : Option Verbosity) (t : FileTree) :
    let report := runAs arguments asked t
    let least := asked.getD (some .warn)
    (match Command.ofArguments arguments with
    | .misuse => report.code = 2 ∧ report.tree = t
    | .help => report.code = 0 ∧ report.tree = t
    | .version => report.code = 0 ∧ report.tree = t
    | .convert input output options =>
      let converted := convertFiles input output options t
      Arguments.paths arguments = [input, output] ∧
      (options.counting = .strict ↔ "--strict-count".toList ∈ Arguments.early arguments) ∧
      (options.spelling = .verbatim ↔ "--verbatim-ids".toList ∈ Arguments.early arguments) ∧
      (report.code = 0 ↔ ∃ totals, converted.result = .ok totals) ∧
      (report.code = 1 ↔ ∃ f, converted.result = .error f) ∧
      report.tree = converted.tree ∧ report.stdout = [] ∧
      report.stderr = some (logText (converted.events.filter fun e =>
        e.level.rank ≤ least.rank) ++ failureText converted.result)) ∧
    (runAs arguments other t).code = report.code ∧
    (runAs arguments other t).stdout = report.stdout ∧
    (runAs arguments other t).tree = report.tree ∧
    ((other.getD (some .warn)).rank ≤ least.rank →
      Trims (runAs arguments other t).stderr report.stderr) := by
  intro report least
  have hreport : report = run arguments least t := by
    show run arguments _ t = _
    rw [verbosityOf_name]
    rfl
  have hother : runAs arguments other t = run arguments (other.getD (some .warn)) t := by
    unfold runAs
    rw [verbosityOf_name]
    rfl
  obtain ⟨hcode, hstdout, htree⟩ := run_of_verbosity arguments t (other.getD (some .warn)) least
  rw [hreport, hother]
  refine ⟨?_, hcode, hstdout, htree, trims_run arguments t⟩
  unfold run
  cases hcommand : Command.ofArguments arguments with
  | misuse => exact ⟨rfl, rfl⟩
  | help => exact ⟨rfl, rfl⟩
  | version => exact ⟨rfl, rfl⟩
  | convert input output options =>
    obtain ⟨hpaths, rfl⟩ := Command.eq_of_convert hcommand
    refine ⟨hpaths, ?_, ?_, exitCode_eq_zero_iff _, exitCode_eq_one_iff _, rfl, rfl, ?_⟩
    · exact Arguments.counting_eq_strict_iff arguments
    · exact Arguments.spelling_eq_verbatim_iff arguments
    · dsimp only
      rw [diagnostics_eq]
      simp only [Verbosity.filter, Verbosity.shows_eq]

end CommandLine

end EdgeDot
