import EdgeDot.Proofs.Line.Reads
import EdgeDot.Proofs.Text.Positions
import EdgeDot.Proofs.Token.Places

/-!
# Where a line is at fault

A fault has a column by its kind: a line that lacks tokens is at fault behind its content, and a
token that is to blame at its last character.  The columns that a reader gives are those, although
it counts what it has read in the line with its end, and goes back from there.

* `Text.HasToken.content`             a token stands in the content where it stands in the line
* `FaultAt`, `FaultAt.unique`         the column of a fault by its kind
* `LocatedError.column_of_token`, `LocatedError.column_of_end`   the column of an error
* `LineReader.Blames`                 a call blames the line of its last read
* `LineReader.blames_readCount`, `LineReader.blames_readEdge`    counts and edges do
-/

namespace EdgeDot

/-! ## the content of a line -/

theorem lineContent_prefix (s : Text) : lineContent s <+: s := by
  have hsuffix : s.reverse.dropWhile isLineEnd <:+ s.reverse := List.dropWhile_suffix _
  rw [← List.reverse_prefix, List.reverse_reverse] at hsuffix
  exact hsuffix

/-- what ends with something other than a line end is kept, whatever follows -/
theorem lineContent_append_of_last {front : Text}
    (h : ∀ c, front.getLast? = some c → isLineEnd c = false) (rest : Text) :
    lineContent (front ++ rest) = front ++ lineContent rest := by
  have hfront : front.reverse.dropWhile isLineEnd = front.reverse := by
    rcases List.eq_nil_or_concat front with rfl | ⟨init, c, rfl⟩
    · rfl
    · have hc : isLineEnd c = false := h c (by rw [List.concat_eq_append, List.getLast?_concat])
      rw [List.concat_eq_append, List.reverse_concat]
      exact List.dropWhile_cons_of_neg (by rw [hc]; exact Bool.false_ne_true)
  rw [lineContent, List.reverse_append, List.dropWhile_append, hfront, lineContent]
  cases hrest : rest.reverse.dropWhile isLineEnd with
  | nil =>
    rw [List.isEmpty_nil, if_pos rfl, List.reverse_reverse, List.reverse_nil, List.append_nil]
  | cons c more =>
    rw [List.isEmpty_cons, if_neg Bool.false_ne_true, List.reverse_append, List.reverse_reverse]

theorem Text.HasToken.content {s before token after : Text} {n : Nat}
    (h : s.HasToken n before token after) :
    (lineContent s).HasToken n before token (lineContent after) where
  text := by
    have hlast : ∀ c, (before ++ token).getLast? = some c → isLineEnd c = false := by
      intro c hc
      rw [List.getLast?_append_of_ne_nil _ h.nonempty] at hc
      have hin := h.inside c (List.mem_of_getLast? hc)
      exact Bool.eq_false_iff.2 fun hend => by
        rw [isSeparator_of_isLineEnd hend] at hin
        cases hin
    rw [h.text, ← List.append_assoc, lineContent_append_of_last hlast, List.append_assoc]
  number := h.number
  nonempty := h.nonempty
  inside := h.inside
  left := h.left
  right c hc := by
    obtain ⟨ending, hafter⟩ := lineContent_prefix after
    refine h.right c ?_
    rw [← hafter, List.head?_append, hc, Option.some_or]

/-! ## the columns of faults -/

/-- the last character of the token of a number begins at a column; if it is a single byte, that
is the last byte of the token -/
def Text.TokenEndsAt (s : Text) (n : Nat) (token : Text) (column : Nat) : Prop :=
  ∃ (before init after : Text) (last : Char), token = init ++ [last] ∧
    s.HasToken n before token after ∧ column = (before ++ init).byteLength + 1 ∧
    (last.toNat < 0x80 → column = (before ++ token).byteLength)

/-- the column at which the line of a text is at fault, by the kind of its fault -/
inductive FaultAt (s : Text) : RecordError → Nat → Prop where
  /-- behind the content, however much white space is there -/
  | tooFew {expected : Nat} (h : (runs isSeparator s).length < expected) :
    FaultAt s (.tooFew expected (runs isSeparator s).length) ((lineContent s).byteLength + 1)
  /-- at the end of the first token -/
  | notACount {token : Text} {column : Nat} {cause : CountError} (h : s.TokenEndsAt 0 token column)
    (hparse : Count.parse token = .error cause) : FaultAt s (.notACount cause) column
  /-- at the end of the second token -/
  | surplus {token : Text} {column : Nat} (h : s.TokenEndsAt 1 token column) :
    FaultAt s .surplus column

theorem Text.TokenEndsAt.unique {s token token' : Text} {n column column' : Nat}
    (h : s.TokenEndsAt n token column) (h' : s.TokenEndsAt n token' column') :
    column = column' := by
  obtain ⟨before, init, after, last, rfl, hplace, rfl, -⟩ := h
  obtain ⟨before', init', after', last', rfl, hplace', rfl, -⟩ := h'
  obtain ⟨hbefore, htoken, -⟩ := hplace.unique hplace'
  have hinit : init = init' := (List.append_inj' htoken rfl).1
  rw [hbefore, hinit]

/-- a fault of a kind has one column -/
theorem FaultAt.unique {s : Text} {cause : RecordError} {column column' : Nat}
    (h : FaultAt s cause column) (h' : FaultAt s cause column') : column = column' := by
  cases h with
  | tooFew _ =>
    cases h'
    rfl
  | notACount hends _ =>
    cases h' with
    | notACount hends' _ => exact hends.unique hends'
  | surplus hends =>
    cases h' with
    | surplus hends' => exact hends.unique hends'

namespace LocatedError
variable {e : LocatedError}

theorem column_of_end (hb : e.cause.blamesToken = false) (hc : e.line.byteLength ≤ e.column) :
    e.location.2 = e.content.byteLength + 1 := by
  obtain ⟨ending, hline⟩ := lineContent_prefix e.line
  have hle : e.content.byteLength ≤ e.column := by
    rw [← hline, Text.byteLength_append] at hc
    exact Nat.le_of_add_right_le hc
  have hbefore : e.before = e.content := by
    have hwhole := Text.takeBytes_append e.content []
    rw [List.append_nil] at hwhole
    rw [before, hb, Nat.min_eq_right hle]
    exact hwhole
  rw [location, marker, hbefore]

theorem column_of_token {n : Nat} {before token after : Text} (hb : e.cause.blamesToken = true)
    (h : e.line.HasToken n before token after) (hc : e.column = (before ++ token).byteLength) :
    e.line.TokenEndsAt n token e.location.2 := by
  obtain ⟨init, last, htoken⟩ := (List.eq_nil_or_concat token).resolve_left h.nonempty
  rw [List.concat_eq_append] at htoken
  have hsize := last.utf8Size_pos
  have hlen : (before ++ token).byteLength = (before ++ init).byteLength + last.utf8Size := by
    rw [htoken, ← List.append_assoc, Text.byteLength_append _ [last]]
    rfl
  have hcontent : e.content = before ++ init ++ last :: lineContent after := by
    rw [content, h.content.text, htoken]
    simp only [List.append_assoc, List.singleton_append]
  have hle : e.column ≤ e.content.byteLength := by
    rw [content, h.content.text, ← List.append_assoc, Text.byteLength_append _ (lineContent after),
      hc]
    exact Nat.le_add_right _ _
  have hback : e.column - 1 = (before ++ init).byteLength + (last.utf8Size - 1) := by omega
  have hbefore : e.before = before ++ init := by
    rw [LocatedError.before, hb, Nat.min_eq_left hle, if_pos rfl, hback, hcontent]
    exact Text.takeBytes_inside _ _ (Nat.sub_lt hsize Nat.one_pos)
  have hcolumn : e.location.2 = (before ++ init).byteLength + 1 := by
    rw [location, marker, hbefore]
  refine ⟨before, init, after, last, htoken, h, hcolumn, fun hascii => ?_⟩
  have hone : last.utf8Size = 1 :=
    Char.utf8Size_eq_one_iff.2 (UInt32.le_iff_toNat_le.2 (Nat.le_of_lt_succ hascii))
  rw [hcolumn, hlen, hone]

/-- an error shows a line that was read and points to its fault -/
def Shows (e : LocatedError) (line : Bytes) : Prop :=
  ∃ text, Text.decode? line = some text ∧ e.content = lineContent text ∧
    FaultAt text e.cause e.location.2

end LocatedError

/-- a count finds no token and runs to the end, or it takes the first one and stops behind it -/
theorem Count.read_cases (s : Text) :
    let read := Count.read (Splitter.ofText s)
    (runs isSeparator s = [] ∧ read.1 = .error (.tooFew 1 0) ∧
        read.2.position = s.byteLength) ∨
      ∃ before token : Text, s.HasToken 0 before token read.2.rest ∧
        read.2.position = (before ++ token).byteLength ∧
        read.1 = (Count.parse token).mapError .notACount := by
  intro read
  cases hnext : TokenStream.next (Splitter.ofText s) with
  | mk token cursor =>
    have hfirst : (Splitter.ofText s).next.1 = token := congrArg Prod.fst hnext
    have hlater : (Splitter.ofText s).next.2 = cursor := congrArg Prod.snd hnext
    cases token with
    | none =>
      have hread : read = (.error (.tooFew 1 0), cursor) := by
        show Count.read (Splitter.ofText s) = _
        rw [Count.read, hnext]
      have hempty : runs isSeparator s = [] :=
        List.head?_eq_none_iff.1 ((Splitter.next_fst _).symm.trans hfirst)
      have hposition := Splitter.position_next_snd_of_none hfirst
      rw [hlater] at hposition
      rw [hread]
      exact .inl ⟨hempty, rfl, hposition.trans (Nat.zero_add _)⟩
    | some token =>
      have hread : read = ((Count.parse token).mapError .notACount, cursor) := by
        show Count.read (Splitter.ofText s) = _
        rw [Count.read, hnext]
      obtain ⟨before, hplace, hposition⟩ := (Splitter.Passed.ofText s).hasToken hfirst
      rw [hlater] at hplace hposition
      rw [hread]
      exact .inr ⟨before, token, hplace, hposition, rfl⟩

/-- a count that is read has passed one token -/
theorem Count.passed_read {s : Text} {n : Nat} (h : (Count.read (Splitter.ofText s)).1 = .ok n) :
    (Count.read (Splitter.ofText s)).2.Passed s 1 := by
  rcases Count.read_cases s with ⟨-, hread, -⟩ | ⟨before, token, hplace, hposition, -⟩
  · rw [hread] at h
    cases h
  · exact hplace.passed hposition

namespace FaultAt
variable {e : LocatedError}

theorem of_end {expected : Nat} (h : (runs isSeparator e.line).length < expected)
    (hcause : e.cause = .tooFew expected (runs isSeparator e.line).length)
    (hc : e.line.byteLength ≤ e.column) : FaultAt e.line e.cause e.location.2 := by
  have hb : e.cause.blamesToken = false := by rw [hcause]; rfl
  rw [LocatedError.column_of_end hb hc, hcause]
  exact .tooFew h

/-- a count is at fault where its token ends, or at the end of the line if there is none -/
theorem of_count (h : (Count.read (Splitter.ofText e.line)).1 = .error e.cause)
    (hc : e.column = (Count.read (Splitter.ofText e.line)).2.position) :
    FaultAt e.line e.cause e.location.2 := by
  rcases Count.read_cases e.line with ⟨hempty, hread, hposition⟩ |
    ⟨before, token, hplace, hposition, hread⟩
  · rw [hread] at h
    have hfew : (runs isSeparator e.line).length < 1 := by
      rw [hempty]
      exact Nat.one_pos
    refine of_end hfew ?_ (Nat.le_of_eq (hc.trans hposition).symm)
    rw [hempty]
    exact (Except.error.inj h).symm
  · rw [hread] at h
    cases hparse : Count.parse token with
    | ok n =>
      rw [hparse] at h
      cases h
    | error cause =>
      rw [hparse] at h
      have hcause : e.cause = .notACount cause := (Except.error.inj h).symm
      have hb : e.cause.blamesToken = true := by rw [hcause]; rfl
      have hends := LocatedError.column_of_token hb hplace (hc.trans hposition)
      rw [hcause]
      exact .notACount hends hparse

/-- what follows a count is at fault where its first token ends -/
theorem of_surplus {t : Splitter} {token : Text} (ht : t.Passed e.line 1)
    (hnext : t.next.1 = some token) (hcause : e.cause = .surplus)
    (hc : e.column = t.next.2.position) : FaultAt e.line e.cause e.location.2 := by
  obtain ⟨before, hplace, hposition⟩ := ht.hasToken hnext
  have hb : e.cause.blamesToken = true := by rw [hcause]; rfl
  have hends := LocatedError.column_of_token hb hplace (hc.trans hposition)
  rw [hcause]
  exact .surplus hends

end FaultAt

/-! ## calls of a reader -/

namespace LineReader
variable {r r' : LineReader} {e : LocatedError} {f : Failure} {reads : List (Option Bytes)}

/-- a call that made some reads blames the line of the last of them for an error -/
inductive Blames (r : LineReader) : List (Option Bytes) → LocatedError → Prop where
  | last {front : List (Option Bytes)} {r' : LineReader} {e : LocatedError}
    (before : r.Consumes front r') (row : e.row = r'.row + 1)
    (shows : e.Shows (r'.nextLine?.getD [])) : r.Blames (front ++ [r'.nextLine?]) e

theorem Consumes.blames (h : r.Consumes reads r') {more : List (Option Bytes)}
    (hlater : r'.Blames more e) : r.Blames (reads ++ more) e := by
  cases hlater with
  | last before row shows =>
    rw [← List.append_assoc]
    exact .last (h.trans before) row shows

/-- the error of a line that was read is blamed on it -/
theorem blames_of_text {line : Bytes} {lines : List Bytes} {ending : Ending} {text : Text}
    (hs : r.source = ⟨line :: lines, ending⟩) (ht : ending.text line = .ok text)
    (hline : e.line = text) (hrow : e.row = r.row + 1)
    (hfault : FaultAt e.line e.cause e.location.2) : r.Blames [r.nextLine?] e := by
  have hnext : r.nextLine? = some line := by rw [nextLine?, hs, List.head?_cons]
  show r.Blames ([] ++ [r.nextLine?]) e
  refine .last (.refl r) hrow ⟨text, ?_, ?_, hline ▸ hfault⟩
  · rw [hnext, Option.getD_some, Ending.eq_encode_of_text ht, Text.decode?_encode]
  · rw [LocatedError.content, hline]

/-- behind the last line an empty line is to blame -/
theorem blames_of_nil {ending : Ending} (hs : r.source = ⟨[], ending⟩) :
    r.Blames [r.nextLine?] ⟨.tooFew 1 0, [], r.row + 1, 0⟩ := by
  have hnext : r.nextLine? = none := by rw [nextLine?, hs, List.head?_nil]
  have hempty : runs isSeparator ([] : Text) = [] := runs_nil
  have hfew : (runs isSeparator ([] : Text)).length < 1 := by
    rw [hempty]
    exact Nat.one_pos
  have hfault := FaultAt.tooFew hfew
  rw [hempty] at hfault
  show r.Blames ([] ++ [r.nextLine?]) _
  refine .last (.refl r) rfl ⟨[], ?_, rfl, hfault⟩
  rw [hnext]
  rfl

theorem blames_readCount (h : r.readCount.result = .error f) (he : f.located? = some e) :
    r.Blames [r.nextLine?] e := by
  rcases hs : r.source with ⟨_ | ⟨line, lines⟩, ending⟩
  · rw [readCount_of_nil hs] at h
    cases ending with
    | complete =>
      cases h
      cases he
      exact blames_of_nil hs
    | broken cause =>
      cases h
      cases he
  · cases ht : ending.text line with
    | error cause =>
      rw [readCount_of_error hs ht] at h
      cases h
      cases he
    | ok text =>
      rw [readCount, advance_of_text hs ht] at h
      dsimp only [take, onLine] at h
      cases hread : (Count.read (Splitter.ofText text)).1 with
      | error cause =>
        rw [hread] at h
        cases h
        cases he
        exact blames_of_text hs ht rfl rfl (FaultAt.of_count hread rfl)
      | ok n =>
        have hpassed := Count.passed_read hread
        rw [hread] at h
        dsimp only [Except.mapError, expectEnd] at h
        cases hnext : (Count.read (Splitter.ofText text)).2.next with
        | mk token cursor =>
          rw [hnext] at h
          cases token with
          | none => cases h
          | some token =>
            cases h
            cases he
            exact blames_of_text hs ht rfl rfl
              (FaultAt.of_surplus hpassed (congrArg Prod.fst hnext) rfl
                (congrArg (·.2.position) hnext).symm)

theorem blames_edgeOfLine {line : Bytes} {lines : List Bytes} {ending : Ending} {text : Text}
    (hs : r.source = ⟨line :: lines, ending⟩) (ht : ending.text line = .ok text)
    (h : (onLine lines ending (r.row + 1) text).edgeOfLine.result = .error f)
    (he : f.located? = some e) : r.Blames [r.nextLine?] e := by
  obtain ⟨r', -, -, hread⟩ := edgeOfLine_onLine lines ht (r.row + 1)
  rw [hread] at h
  have htokens : lineTokens line = runs isSeparator text := by
    rw [Ending.eq_encode_of_text ht, lineTokens_encode]
  rw [htokens] at h
  cases hr : Edge.ofTokens (runs isSeparator text) with
  | ok edge =>
    rw [hr] at h
    cases h
  | error cause =>
    rw [hr] at h
    cases h
    cases he
    have hfew := Edge.length_lt_of_ofTokens hr
    rw [Edge.ofTokens_of_length_lt hfew] at hr
    cases hr
    exact blames_of_text hs ht rfl rfl (FaultAt.of_end hfew rfl (Nat.le_refl _))

theorem blames_readEdge (h : r.readEdge.result = .error f) (he : f.located? = some e) :
    r.Blames r.readsOfEdge e := by
  fun_induction readsOfEdge r with
  | case1 r cause r' hadvance =>
    rw [readEdge_eq, hadvance] at h
    cases h
    cases he
  | case2 r r' hadvance =>
    rw [readEdge_eq, hadvance] at h
    cases h
  | case3 r line hadvance hblank ih =>
    rw [readEdge_eq, hadvance] at h
    dsimp only at h
    rw [if_pos hblank] at h
    exact (consumes_of_advance hadvance).blames (ih h)
  | case4 r line hadvance hblank =>
    rw [readEdge_eq, hadvance] at h
    dsimp only at h
    rw [if_neg hblank] at h
    obtain ⟨first, lines, ending, text, hs, ht, rfl⟩ := advance_eq_true hadvance
    exact blames_edgeOfLine hs ht h he

end LineReader

end EdgeDot
