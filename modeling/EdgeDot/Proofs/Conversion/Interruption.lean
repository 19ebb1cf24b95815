import EdgeDot.Proofs.Conversion.Grammar
import EdgeDot.Proofs.Line.Broken

/-!
# Converting from a source that breaks

A source that breaks gives a conversion its complete lines.  If one of them is a fault the
conversion fails there, as it would if the source had gone on; otherwise it fails with the break,
however the source might have gone on, and never takes the break for the end.

* `isSoundFront`                  complete lines without a fault
* `Conversion.frontText`, `Conversion.frontEvents`   what is written and told because of them
* `settles_of_unsoundFront`       a fault among them settles the conversion
* `convert_of_soundFront`, `convert_of_break`   otherwise it goes on behind them, or breaks there
* `convert_broken`                the whole conversion
-/

namespace EdgeDot

open Dot

/-! ## complete lines without a fault -/

/-- whether a line is a count and nothing else -/
def isCountLine (line : Bytes) : Bool :=
  (Text.decode? line).isSome && (Count.ofLine (lineTokens line)).isOk

/-- whether lines are the front of an edge list: a count, then edges and empty lines -/
def isSoundFront : List Bytes → Bool
  | [] => true
  | first :: later => isCountLine first && later.all (EdgeLine.isSound .complete)

namespace Conversion

/-- what is written because of lines: the header and the edges before the first fault -/
def frontText (spelling : Spelling) (name : Text) : List Bytes → Text
  | [] => []
  | first :: later =>
    if isCountLine first then
      body spelling name ((later.takeWhile (EdgeLine.isSound .complete)).filterMap EdgeLine.edge?)
    else []

/-- what is told because of lines -/
def frontEvents : List Bytes → List Event
  | [] => []
  | first :: later =>
    if isCountLine first then
      EdgeLine.allEvents 2 (later.takeWhile (EdgeLine.isSound .complete))
    else []

theorem body_append (spelling : Spelling) (name : Text) (edges more : List Edge) :
    body spelling name (edges ++ more) =
      body spelling name edges ++ more.flatMap (statement spelling) := by
  rw [body, List.flatMap_append, ← List.append_assoc, body]

/-- more edges and a closing brace are written behind what is there -/
theorem body_prefix_written (spelling : Spelling) (name : Text) (edges more : List Edge)
    (result : Except Failure Totals) :
    (body spelling name edges).encode <+:
      (written spelling name (edges ++ more) result).encode := by
  have hbody : (body spelling name edges).encode <+:
      (body spelling name (edges ++ more)).encode := by
    rw [body_append, Text.encode_append]
    exact List.prefix_append _ _
  cases result with
  | error f => exact hbody
  | ok totals =>
    have hdocument : document spelling name (edges ++ more) =
        body spelling name (edges ++ more) ++ footer := rfl
    rw [written, hdocument, Text.encode_append]
    exact hbody.trans (List.prefix_append _ _)

end Conversion

open Conversion

variable {first : Bytes} {later : List Bytes} {text : Text}

theorem isCountLine_of_text (ht : Ending.complete.text first = .ok text) :
    isCountLine first = (Count.ofLine (lineTokens first)).isOk := by
  have hdecode : Text.decode? first = some text := by
    rw [Ending.eq_encode_of_text ht, Text.decode?_encode]
  rw [isCountLine, hdecode]
  exact Bool.true_and _

theorem isCountLine_of_error {e : IoError} (ht : Ending.complete.text first = .error e) :
    isCountLine first = false := by
  cases hdecode : Text.decode? first with
  | none =>
    rw [isCountLine, hdecode]
    rfl
  | some text =>
    rw [Ending.text_complete, hdecode] at ht
    cases ht

/-- a conversion whose first line is a count and complete -/
theorem convert_of_isCountLine (hfirst : isComplete first = true)
    (hcount : isCountLine first = true) {r : LineReader} (hrow : r.row = 0) {lines : List Bytes}
    {ending : Ending} (hs : r.source = ⟨first :: lines, ending⟩) (name : Text) (options : Options) :
    ∃ declared : Nat,
      let good := lines.takeWhile (EdgeLine.isSound ending)
      let edges := good.filterMap EdgeLine.edge?
      let t := convert name options r .unlimited
      let result := verdict options.counting declared edges.length
        (EdgeLine.outcome ending 2 lines)
      t.result = result ∧
        t.sink.output = (written options.spelling name edges result).encode ∧
        t.events = EdgeLine.allEvents 2 good ++ lastEvents result := by
  cases ht : Ending.complete.text first with
  | error e =>
    rw [isCountLine_of_error ht] at hcount
    cases hcount
  | ok text =>
    obtain ⟨column, r', hsource, hrow', hread⟩ :=
      LineReader.readCount_of_text hs ((Ending.text_of_complete hfirst).trans ht)
    rw [isCountLine_of_text ht] at hcount
    cases hparsed : Count.ofLine (lineTokens first) with
    | error cause =>
      rw [hparsed] at hcount
      cases hcount
    | ok declared =>
      rw [hparsed] at hread
      obtain ⟨hresult, hout, hevents, -, -⟩ := convert_of_count hread hsource name options
      have hsecond : r'.row + 1 = 2 := by rw [hrow', hrow]
      rw [hsecond] at hresult hout hevents
      exact ⟨declared, hresult, hout, hevents⟩

/-! ## behind the complete lines -/

/-- what every conversion from lines with the given front comes to, whatever is behind it -/
structure Settles (name : Text) (options : Options) (front : List Bytes) (f : Failure) : Prop where
  notWrongCount : ∀ declared found, f ≠ .wrongCount declared found
  convert : ∀ (r : LineReader) (back : List Bytes) (ending : Ending), r.row = 0 →
    r.source = ⟨front ++ back, ending⟩ →
    let t := convert name options r .unlimited
    t.result = .error f ∧ t.sink.output = (frontText options.spelling name front).encode ∧
      t.events = frontEvents front

theorem frontText_of_notCount (later : List Bytes) (h : isCountLine first = false)
    (spelling : Spelling) (name : Text) :
    frontText spelling name (first :: later) = [] ∧ frontEvents (first :: later) = [] := by
  rw [frontText, frontEvents, h]
  exact ⟨rfl, rfl⟩

/-- a first line that is no count -/
theorem settles_of_notCount (hfirst : isComplete first = true) (hcount : isCountLine first = false)
    (name : Text) (options : Options) : ∃ f, Settles name options (first :: later) f := by
  obtain ⟨htext, hevents⟩ := frontText_of_notCount later hcount options.spelling name
  cases ht : Ending.complete.text first with
  | error e =>
    refine ⟨.io e, nofun, ?_⟩
    intro r back ending _ hs t
    have hread := LineReader.readCount_of_error hs ((Ending.text_of_complete hfirst).trans ht)
    have hconvert : t = _ := convert_of_count_error hread name options .unlimited
    rw [hconvert, htext, hevents]
    exact ⟨rfl, rfl, rfl⟩
  | ok text =>
    rw [isCountLine_of_text ht] at hcount
    cases hparsed : Count.ofLine (lineTokens first) with
    | ok declared =>
      rw [hparsed] at hcount
      cases hcount
    | error cause =>
      -- the place of the fault is the one that a reader finds with nothing behind the line
      let r₀ : LineReader := { source := ⟨[first], .complete⟩ }
      obtain ⟨column, r₁, -, -, hread₀⟩ := @LineReader.readCount_of_text r₀ _ _ _ _ rfl ht
      rw [hparsed] at hread₀
      refine ⟨.malformedCount ⟨cause, text, 1, column⟩, nofun, ?_⟩
      intro r back ending hrow hs t
      have hread := LineReader.readCount_of_result
        (@LineReader.readCount_congr _ _ _ r₀ _ _ _ _ hs rfl
          ((Ending.text_of_complete hfirst).trans ht) ht hrow)
      rw [hread₀] at hread
      have hconvert : t = _ := convert_of_count_error hread name options .unlimited
      rw [hconvert, htext, hevents]
      exact ⟨rfl, rfl, rfl⟩

/-- a fault among complete lines settles the conversion -/
theorem settles_of_unsoundFront {front : List Bytes}
    (hfront : ∀ line ∈ front, isComplete line = true)
    (hunsound : isSoundFront front = false) (name : Text) (options : Options) :
    ∃ f, Settles name options front f := by
  cases front with
  | nil => cases hunsound
  | cons first later =>
    obtain ⟨hfirst, hlater⟩ := List.forall_mem_cons.1 hfront
    rw [isSoundFront] at hunsound
    cases hcount : isCountLine first with
    | false => exact settles_of_notCount hfirst hcount name options
    | true =>
      rw [hcount, Bool.true_and] at hunsound
      obtain ⟨f, hf, hfault⟩ := EdgeLine.outcome_of_fault hunsound 2
      refine ⟨f, hf, ?_⟩
      intro r back ending hrow hs t
      obtain ⟨declared, hresult, hout, hevents⟩ :=
        convert_of_isCountLine hfirst hcount hrow hs name options
      have hgood : (later ++ back).takeWhile (EdgeLine.isSound ending) = _ :=
        EdgeLine.takeWhile_append hlater back
      have houtcome : EdgeLine.outcome ending 2 (later ++ back) = _ :=
        EdgeLine.outcome_append hlater 2 back
      rw [hunsound, if_neg Bool.false_ne_true] at hgood houtcome
      rw [List.append_eq, houtcome, hfault] at hresult hout hevents
      rw [hgood] at hout hevents
      rw [frontText, frontEvents, if_pos hcount, if_pos hcount]
      exact ⟨hresult, hout, hevents.trans (List.append_nil _)⟩

/-- complete lines without a fault: what is behind them is written and told behind them -/
theorem convert_of_soundFront {front : List Bytes} (hfront : ∀ line ∈ front, isComplete line = true)
    (hsound : isSoundFront front = true) {r : LineReader} {back : List Bytes} {ending : Ending}
    (hrow : r.row = 0) (hs : r.source = ⟨front ++ back, ending⟩) (name : Text) (options : Options) :
    let t := convert name options r .unlimited
    (frontText options.spelling name front).encode <+: t.sink.output ∧
      frontEvents front <+: t.events := by
  intro t
  cases front with
  | nil => exact ⟨List.nil_prefix, List.nil_prefix⟩
  | cons first later =>
    obtain ⟨hfirst, hlater⟩ := List.forall_mem_cons.1 hfront
    obtain ⟨hcount, hall⟩ := (Bool.and_eq_true _ _).mp hsound
    obtain ⟨declared, -, hout, hevents⟩ :=
      convert_of_isCountLine hfirst hcount hrow hs name options
    have hgood : (later ++ back).takeWhile (EdgeLine.isSound ending) = _ :=
      EdgeLine.takeWhile_append hlater back
    have hself : later.takeWhile (EdgeLine.isSound .complete) = later :=
      List.takeWhile_eq_self_iff.2 (List.all_eq_true.1 hall)
    rw [if_pos hall] at hgood
    rw [List.append_eq, hgood] at hout hevents
    rw [List.filterMap_append] at hout
    rw [EdgeLine.allEvents_append, List.append_assoc] at hevents
    rw [frontText, frontEvents, if_pos hcount, if_pos hcount, hself]
    refine ⟨?_, ?_⟩
    · rw [hout]
      exact body_prefix_written _ _ _ _ _
    · rw [hevents]
      exact List.prefix_append _ _

/-! ## the break -/

/-- complete lines without a fault, and then the break -/
theorem convert_of_break {front : List Bytes} (hfront : ∀ line ∈ front, isComplete line = true)
    (hsound : isSoundFront front = true) {tail : Bytes} (htail : lineFeed ∉ tail) {cause : IoError}
    {r : LineReader} (hrow : r.row = 0) (hs : r.source = ⟨front ++ splitLines tail, .broken cause⟩)
    (name : Text) (options : Options) :
    let t := convert name options r .unlimited
    t.result = .error (.io cause) ∧
      t.sink.output = (frontText options.spelling name front).encode ∧
      t.events = frontEvents front := by
  intro t
  cases front with
  | nil =>
    obtain ⟨r', hread⟩ := LineReader.readCount_of_broken hs htail
    have hconvert : t = _ := convert_of_count_error hread name options .unlimited
    rw [hconvert]
    exact ⟨rfl, rfl, rfl⟩
  | cons first later =>
    obtain ⟨hfirst, hlater⟩ := List.forall_mem_cons.1 hfront
    obtain ⟨hcount, hall⟩ := (Bool.and_eq_true _ _).mp hsound
    obtain ⟨declared, hresult, hout, hevents⟩ :=
      convert_of_isCountLine hfirst hcount hrow hs name options
    have hgood : (later ++ splitLines tail).takeWhile (EdgeLine.isSound (.broken cause)) = _ :=
      EdgeLine.takeWhile_append hlater (splitLines tail)
    have houtcome : EdgeLine.outcome (.broken cause) 2 (later ++ splitLines tail) = _ :=
      EdgeLine.outcome_append hlater 2 (splitLines tail)
    have hself : later.takeWhile (EdgeLine.isSound .complete) = later :=
      List.takeWhile_eq_self_iff.2 (List.all_eq_true.1 hall)
    obtain ⟨hbreak, hnone⟩ := EdgeLine.outcome_of_broken htail (2 + later.length)
    rw [if_pos hall, hnone, List.append_nil] at hgood
    rw [if_pos hall, hbreak] at houtcome
    rw [List.append_eq, houtcome, hgood] at hresult hout hevents
    rw [frontText, frontEvents, if_pos hcount, if_pos hcount, hself]
    exact ⟨hresult, hout, hevents.trans (List.append_nil _)⟩

/-- A conversion of bytes behind which the source breaks, beside one of the same bytes and more.
If the complete lines hold a fault, both fail with it; otherwise the former fails with the break.
It never succeeds and never finds a wrong number of edges.  What it writes and tells is because
of the complete lines only, and a part of what the latter writes and tells. -/
theorem convert_broken (bytes more : Bytes) (cause : IoError) (ending : Ending) (name : Text)
    (options : Options) :
    let front := completeLines bytes
    let short := convert name options (.ofBytes bytes (.broken cause)) .unlimited
    let long := convert name options (.ofBytes (bytes ++ more) ending) .unlimited
    short.result = (if isSoundFront front then .error (.io cause) else long.result) ∧
      (∃ f, short.result = .error f ∧ ∀ declared found, f ≠ .wrongCount declared found) ∧
      short.sink.output = (frontText options.spelling name front).encode ∧
      short.sink.output <+: long.sink.output ∧
      short.events <+: long.events := by
  intro front short long
  have hfront : ∀ line ∈ front, isComplete line = true := fun line h => isComplete_of_mem h
  obtain ⟨tail, htail, hsplit⟩ := splitLines_front bytes
  have hshort : (LineReader.ofBytes bytes (.broken cause)).source =
      ⟨front ++ splitLines tail, .broken cause⟩ := by
    have hlines := hsplit []
    rw [List.append_nil, List.append_nil] at hlines
    exact congrArg (Source.mk · (.broken cause)) hlines
  have hlong : (LineReader.ofBytes (bytes ++ more) ending).source =
      ⟨front ++ splitLines (tail ++ more), ending⟩ :=
    congrArg (Source.mk · ending) (hsplit more)
  cases hsound : isSoundFront front with
  | true =>
    obtain ⟨hresult, hout, hevents⟩ :=
      convert_of_break hfront hsound htail rfl hshort name options
    obtain ⟨hlongout, hlongevents⟩ :=
      convert_of_soundFront hfront hsound rfl hlong name options
    exact ⟨hresult, ⟨_, hresult, nofun⟩, hout, hout ▸ hlongout, hevents ▸ hlongevents⟩
  | false =>
    obtain ⟨f, hf, hsettles⟩ := settles_of_unsoundFront hfront hsound name options
    obtain ⟨hresult, hout, hevents⟩ := hsettles _ _ _ rfl hshort
    obtain ⟨hlongresult, hlongout, hlongevents⟩ := hsettles _ _ _ rfl hlong
    have hsameout : short.sink.output = long.sink.output := hout.trans hlongout.symm
    have hsameevents : short.events = long.events := hevents.trans hlongevents.symm
    exact ⟨hresult.trans hlongresult.symm, ⟨f, hresult, hf⟩, hout,
      hsameout ▸ List.prefix_rfl, hsameevents ▸ List.prefix_rfl⟩

end EdgeDot
