import Mathlib.Data.List.TakeWhile
import EdgeDot.Line.Reader
import EdgeDot.Proofs.Text.AsciiClass
import EdgeDot.Proofs.Token.Listing

/-!
# What a line means

A line of an edge list is nothing, an edge, or a fault, and which of them does not depend on the
lines around it.  All of this is said of the bytes of a line, without a reader.

* `Ending.text`        a line as a text, if it can be read at all
* `lineTokens`         its tokens, and `lineTokens_encode` for a line that is UTF-8
* `EdgeLine.edge?`, `EdgeLine.failure`, `EdgeLine.events`   what a line behind the first gives
* `EdgeLine.isSound`   whether it is not a fault
-/

namespace EdgeDot

/-! ## lines as texts -/

/-- a line as a text: the source may break before it ends, and it may not be UTF-8 -/
def Ending.text (ending : Ending) (line : Bytes) : Except IoError Text :=
  match ending.breaks? line with
  | some e => .error e
  | none =>
    match Text.decode? line with
    | none => .error .invalidText
    | some text => .ok text

/-- what a source gives behind its last line -/
def Ending.atEnd {α : Type} (ending : Ending) (a : α) : Except IoError α :=
  match ending with
  | .complete => .ok a
  | .broken e => .error e

theorem Ending.text_complete (line : Bytes) : Ending.complete.text line =
    match Text.decode? line with
    | none => .error .invalidText
    | some text => .ok text := rfl

theorem Ending.text_encode (s : Text) : Ending.complete.text s.encode = .ok s := by
  rw [text_complete, Text.decode?_encode]

theorem Ending.eq_encode_of_text {ending : Ending} {line : Bytes} {text : Text}
    (h : ending.text line = .ok text) : line = text.encode := by
  rw [Ending.text] at h
  split at h
  · cases h
  · split at h
    · cases h
    next found => exact Text.eq_encode_of_decode? ((Except.ok.inj h) ▸ found)

theorem Source.next_of_cons (line : Bytes) (lines : List Bytes) (ending : Ending) :
    (Source.mk (line :: lines) ending).next =
      ((ending.text line).map some, ⟨lines, ending⟩) := by
  rw [Source.next, Ending.text]
  dsimp only
  cases ending.breaks? line with
  | some e => rfl
  | none => cases Text.decode? line <;> rfl

theorem Source.next_of_nil (ending : Ending) :
    (Source.mk [] ending).next = (ending.atEnd none, ⟨[], ending⟩) := by
  cases ending <;> rfl

/-- a source that gives a line has it in front -/
theorem Source.eq_of_next {s : Source} {text : Text} (h : s.next.1 = .ok (some text)) :
    ∃ (line : Bytes) (lines : List Bytes) (ending : Ending),
      s = ⟨line :: lines, ending⟩ ∧ ending.text line = .ok text := by
  rcases s with ⟨_ | ⟨line, lines⟩, ending⟩
  · rw [next_of_nil] at h
    cases ending <;> cases h
  · rw [next_of_cons] at h
    refine ⟨line, lines, ending, rfl, ?_⟩
    cases ht : ending.text line with
    | error e =>
      rw [ht] at h
      cases h
    | ok found =>
      rw [ht] at h
      cases h
      rfl

/-! ## tokens -/

/-- the tokens of a line: its maximal runs of bytes above the space -/
def lineTokens (line : Bytes) : List Text := (runs isSeparatorByte line).filterMap Text.decode?

theorem lineTokens_encode (s : Text) : lineTokens s.encode = runs isSeparator s := by
  have hdecode : Text.decode? ∘ Text.encode = some := funext Text.decode?_encode
  rw [lineTokens, separatorClass.runs_encode, List.filterMap_map, hdecode, List.filterMap_some]

/-- no byte of a token separates -/
theorem not_separates_of_mem_lineTokens {line : Bytes} {token : Text} (h : token ∈ lineTokens line) :
    ∀ b ∈ token.encode, isSeparatorByte b = false := by
  obtain ⟨run, hrun, htoken⟩ := List.mem_filterMap.1 h
  rw [← Text.eq_encode_of_decode? htoken]
  exact not_separates_of_mem_runs hrun

/-- whether a line holds nothing but carriage returns and line feeds -/
def isEmptyLine (line : Bytes) : Bool := line.all isLineEndByte

theorem isEmpty_lineContent (s : Text) : (lineContent s).isEmpty = s.all isLineEnd := by
  rw [Bool.eq_iff_iff, List.isEmpty_iff, lineContent, List.reverse_eq_nil_iff,
    List.dropWhile_eq_nil_iff, List.all_eq_true]
  constructor
  · intro h c hc
    exact h c (List.mem_reverse.2 hc)
  · intro h c hc
    exact h c (List.mem_reverse.1 hc)

theorem isEmptyLine_encode (s : Text) : isEmptyLine s.encode = (lineContent s).isEmpty := by
  rw [isEmptyLine, lineEndClass.all_encode, isEmpty_lineContent]

theorem lineTokens_of_isEmptyLine {line : Bytes} (h : isEmptyLine line = true) :
    lineTokens line = [] := by
  have hsep : ∀ b ∈ line, isSeparatorByte b = true := by
    intro b hb
    have := List.all_eq_true.1 h b hb
    simp only [isLineEndByte, Bool.or_eq_true, decide_eq_true_eq] at this
    rcases this with rfl | rfl <;> rfl
  rw [lineTokens, runs_eq_nil_of_separates hsep]
  rfl

/-! ## lines behind the first -/

namespace EdgeLine

/-- the edge of a line: its first two tokens -/
def edge? (line : Bytes) : Option Edge := (Edge.ofTokens (lineTokens line)).toOption

/-- whether a line can be read and is empty or an edge -/
def isSound (ending : Ending) (line : Bytes) : Bool :=
  (ending.text line).isOk && (isEmptyLine line || decide (2 ≤ (lineTokens line).length))

/-- the failure at a line that is not sound -/
def failure (ending : Ending) (row : Nat) (line : Bytes) : Failure :=
  match ending.text line with
  | .error e => .io e
  | .ok text =>
    .malformedEdge ⟨.tooFew 2 (lineTokens line).length, text, row, text.byteLength⟩

/-- what is told about a line -/
def events (row : Nat) (line : Bytes) : List Event :=
  if isEmptyLine line then [.skippingEmptyLine row]
  else if 2 < (lineTokens line).length then [.ignoringTokens row]
  else []

variable {ending : Ending} {line : Bytes} {text : Text}

theorem isSound_of_text (h : ending.text line = .ok text) :
    isSound ending line = (isEmptyLine line || decide (2 ≤ (lineTokens line).length)) := by
  rw [isSound, h]
  exact Bool.true_and _

theorem isSound_of_error {e : IoError} (h : ending.text line = .error e) :
    isSound ending line = false := by
  rw [isSound, h]
  exact Bool.false_and _

theorem mem_lineTokens_of_edge? {e : Edge} (h : edge? line = some e) :
    e.source ∈ lineTokens line ∧ e.target ∈ lineTokens line := by
  rw [edge?] at h
  generalize lineTokens line = tokens at h ⊢
  rcases tokens with _ | ⟨source, _ | ⟨target, more⟩⟩
  · cases h
  · cases h
  · rw [← Option.some.inj h]
    exact ⟨List.mem_cons_self, List.mem_cons_of_mem _ List.mem_cons_self⟩

theorem edge?_of_isEmptyLine (h : isEmptyLine line = true) : edge? line = none := by
  rw [edge?, lineTokens_of_isEmptyLine h]
  rfl

theorem isSome_edge? (line : Bytes) :
    (edge? line).isSome = decide (2 ≤ (lineTokens line).length) := by
  rw [edge?]
  cases lineTokens line with
  | nil => rfl
  | cons source later =>
    cases later with
    | nil => rfl
    | cons target more => exact (decide_eq_true (Nat.le_add_left 2 more.length)).symm

end EdgeLine

end EdgeDot
