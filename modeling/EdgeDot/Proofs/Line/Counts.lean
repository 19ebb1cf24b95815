import EdgeDot.Proofs.Line.Reading
import EdgeDot.Proofs.Token.Numerals
import EdgeDot.Proofs.Token.Places

/-!
# Lines that hold a count

A line is a count if it is a numeral in range with nothing but separators around it.  Of what can
be wrong with it the first from the left is told: no token at all, a first token that is no count,
or anything behind one that is.

* `Text.firstToken`           a line without tokens, or the first of them
* `CountLine`                 what becomes of a line that is read as a count
* `countLine_iff`             in terms of its tokens
* `LineReader.readCount_countLine`   a reader makes that of its next line
-/

namespace EdgeDot

/-! ## the first token -/

/-- a text is nothing but separators, or it has a first token -/
theorem Text.firstToken (s : Text) : (∀ c ∈ s, isSeparator c = true) ∨
    ∃ before token after, s.HasToken 0 before token after := by
  cases hnext : (Splitter.ofText s).next.1 with
  | none =>
    left
    let cut := Cut.of isSeparator s
    have hwhole : cut.gap ++ (cut.token ++ cut.rest) = s := Cut.append_eq isSeparator s
    have htoken : cut.token = [] := by
      have hnone : cut.token? = none := hnext
      simpa [Cut.token?] using hnone
    have hrest : cut.rest = [] := Cut.rest_eq_nil htoken
    rw [htoken, hrest, List.append_nil, List.append_nil] at hwhole
    intro c hc
    rw [← hwhole] at hc
    exact List.all_eq_true.1 List.all_takeWhile c hc
  | some token =>
    obtain ⟨before, hplace, -⟩ := (Splitter.Passed.ofText s).hasToken hnext
    exact .inr ⟨before, token, _, hplace⟩

theorem runs_eq_nil_iff {s : Text} :
    runs isSeparator s = [] ↔ ∀ c ∈ s, isSeparator c = true := by
  refine ⟨fun h => (Text.firstToken s).resolve_right ?_, runs_eq_nil_of_separates⟩
  rintro ⟨before, token, after, hplace⟩
  have hfirst := hplace.getElem?_runs
  rw [h] at hfirst
  cases hfirst

namespace Text.HasToken
variable {s before token after : Text}

theorem before_separates (h : s.HasToken 0 before token after) :
    ∀ c ∈ before, isSeparator c = true :=
  runs_eq_nil_iff.1 (List.length_eq_zero_iff.1 h.number)

theorem runs_eq_cons (h : s.HasToken 0 before token after) :
    runs isSeparator s = token :: runs isSeparator after := by
  rw [h.runs_eq, runs_eq_nil_of_separates h.before_separates, List.nil_append]

end Text.HasToken

/-! ## counts on a line -/

theorem not_isSeparator_of_isDigit {c : Char} (h : c.isDigit = true) : isSeparator c = false := by
  have hlow : 48 ≤ c.toNat := by
    simp only [Char.isDigit, Bool.and_eq_true, decide_eq_true_eq] at h
    exact h.1
  rw [Bool.eq_false_iff, ne_eq, isSeparator_iff]
  omega

namespace Count.Numeral
variable {n : Nat} {s : Text}

/-- no character of a numeral separates -/
theorem not_separates (h : Numeral n s) : ∀ c ∈ s, isSeparator c = false := by
  have hdigits := h.digits
  unfold unsigned at hdigits
  split at hdigits
  next digits =>
    refine List.forall_mem_cons.2 ⟨rfl, fun c hc => ?_⟩
    exact not_isSeparator_of_isDigit (hdigits c hc)
  next => exact fun c hc => not_isSeparator_of_isDigit (hdigits c hc)

end Count.Numeral

/-- what becomes of a line that is read as a count -/
inductive CountLine (line : Text) : Except RecordError Nat → Prop
  /-- a numeral in range and nothing but separators around it -/
  | count {before token after : Text} {n : Nat} (text : line = before ++ (token ++ after))
    (before_separates : ∀ c ∈ before, isSeparator c = true)
    (after_separates : ∀ c ∈ after, isSeparator c = true)
    (numeral : Count.Numeral n token) (fits : n < Count.limit) : CountLine line (.ok n)
  /-- no token -/
  | missing (separates : ∀ c ∈ line, isSeparator c = true) : CountLine line (.error (.tooFew 1 0))
  /-- a first token whose digits leave the range, whatever follows them -/
  | tooLarge {before token after : Text} (place : line.HasToken 0 before token after)
    (no_count : ¬ Count.IsCount token) (overruns : Count.Overruns token) :
    CountLine line (.error (.notACount .tooLarge))
  /-- a first token that is no count for another reason -/
  | invalidDigit {before token after : Text} (place : line.HasToken 0 before token after)
    (no_count : ¬ Count.IsCount token) (short : ¬ Count.Overruns token) :
    CountLine line (.error (.notACount .invalidDigit))
  /-- a count, and another token behind it -/
  | surplus {before token after : Text} (place : line.HasToken 0 before token after)
    (is_count : Count.IsCount token) (more : ∃ c ∈ after, isSeparator c = false) :
    CountLine line (.error .surplus)

variable {line : Text} {outcome : Except RecordError Nat}

theorem countLine_ofLine (line : Text) : CountLine line (Count.ofLine (runs isSeparator line)) := by
  rcases line.firstToken with hsep | ⟨before, token, after, hplace⟩
  · rw [runs_eq_nil_of_separates hsep]
    exact .missing hsep
  · rw [hplace.runs_eq_cons, Count.ofLine, Count.ofTokens, List.tail_cons]
    have hjudged := Count.judged_parse token
    generalize Count.parse token = result at hjudged
    cases hjudged with
    | @count n numeral fits =>
      show CountLine line (if (runs isSeparator after).isEmpty then .ok n else .error .surplus)
      split
      next hempty =>
        have hafter := runs_eq_nil_iff.1 (List.isEmpty_iff.1 hempty)
        exact .count hplace.text hplace.before_separates hafter numeral fits
      next hmore =>
        rw [List.isEmpty_iff, runs_eq_nil_iff] at hmore
        refine .surplus hplace ⟨n, numeral, fits⟩ ?_
        simpa using hmore
    | empty nothing => exact absurd nothing hplace.nonempty
    | tooLarge overruns => exact .tooLarge hplace overruns.not_isCount overruns
    | invalidDigit _ no_count short => exact .invalidDigit hplace no_count short

theorem CountLine.eq_ofLine (h : CountLine line outcome) :
    outcome = Count.ofLine (runs isSeparator line) := by
  cases h with
  | @count before token after n text before_separates after_separates numeral fits =>
    have hhead : ∀ c, after.head? = some c → isSeparator c = true :=
      fun c hc => after_separates c (List.mem_of_head? hc)
    have hruns : runs isSeparator line = [token] := by
      rw [text, runs_append_of_separates before_separates,
        runs_append_of_token numeral.ne_nil numeral.not_separates hhead,
        runs_eq_nil_of_separates after_separates]
    exact (Count.ofLine_eq_ok_iff.2 ⟨token, hruns, Count.parse_of_numeral numeral fits⟩).symm
  | missing separates =>
    rw [runs_eq_nil_of_separates separates]
    rfl
  | tooLarge place no_count overruns =>
    rw [place.runs_eq_cons, Count.ofLine, Count.ofTokens,
      Count.parse_eq_iff.2 (.tooLarge overruns)]
    rfl
  | invalidDigit place no_count short =>
    rw [place.runs_eq_cons, Count.ofLine, Count.ofTokens,
      Count.parse_eq_iff.2 (.invalidDigit place.nonempty no_count short)]
    rfl
  | @surplus before token after place is_count more =>
    obtain ⟨n, numeral, fits⟩ := is_count
    obtain ⟨c, hc, hin⟩ := more
    have hmore : ¬ (runs isSeparator after).isEmpty = true := by
      rw [List.isEmpty_iff, runs_eq_nil_iff]
      intro hsep
      rw [hsep c hc] at hin
      cases hin
    rw [place.runs_eq_cons, Count.ofLine, Count.ofTokens, Count.parse_of_numeral numeral fits]
    exact (if_neg hmore).symm

/-- exactly one thing becomes of a line -/
theorem countLine_iff : CountLine line outcome ↔ outcome = Count.ofLine (runs isSeparator line) :=
  ⟨CountLine.eq_ofLine, fun h => h ▸ countLine_ofLine line⟩

/-- What a reader makes of its next line as a count, if it can read that line: the number `n` if the
line is a numeral of `n` and separators around it, where `n` is below 2⁶⁴, and otherwise an
error that names the first fault.  Without a token there is too little.  A first token that is no
count is refused whatever comes behind it, as too large if some first digits of it, behind a plus
sign or not, already are, and as no number otherwise.  Behind a count any token is too much. -/
theorem LineReader.readCount_countLine {r : LineReader} {line : Text}
    (h : r.source.next.1 = .ok (some line)) :
    ∃ (outcome : Except RecordError Nat) (column : Nat),
      r.readCount.result = outcome.mapError
        (fun cause => .malformedCount ⟨cause, line, r.row + 1, column⟩) ∧
      ∀ other, CountLine line other ↔ other = outcome := by
  obtain ⟨bytes, lines, ending, hs, ht⟩ := Source.eq_of_next h
  obtain ⟨column, r', -, -, hread⟩ := readCount_of_text hs ht
  refine ⟨Count.ofLine (runs isSeparator line), column, ?_, fun other => countLine_iff⟩
  rw [hread, Ending.eq_encode_of_text ht, lineTokens_encode]

/-- an overrun in front of a character that is no digit and of another token -/
theorem LineReader.readCount_countLine_overrun :
    let line := "\t+0018446744073709551616x 7\r\n".toList
    let r := LineReader.ofText line
    r.source.next.1 = .ok (some line) ∧
      ∃ column, r.readCount.result =
          .error (.malformedCount ⟨.notACount .tooLarge, line, 1, column⟩) ∧
        ∀ other, CountLine line other ↔ other = .error (.notACount .tooLarge) := by
  intro line r
  have h : r.source.next.1 = .ok (some line) := by rfl
  obtain ⟨outcome, column, hresult, hline⟩ := readCount_countLine h
  have houtcome : Count.ofLine (runs isSeparator line) = .error (.notACount .tooLarge) := by rfl
  have hiff := (hline _).1 (countLine_ofLine line)
  rw [houtcome] at hiff
  rw [← hiff] at hresult hline
  exact ⟨h, column, hresult, hline⟩

end EdgeDot
