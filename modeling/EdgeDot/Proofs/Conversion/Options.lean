import EdgeDot.Proofs.Conversion.Outcome
import EdgeDot.Proofs.Dot.Quoting

/-!
# What the options change

Two conversions of the same lines that differ in one option read the same lines and stop at the
same fault.  The spelling changes how names are written and nothing else; the counting changes
what is made of a wrong number of edges and nothing else.

* `Conversion.byteLength_written_quoted`   what is written under either spelling
* `Conversion.written_eq_of_isBare`        where the spellings agree
* `convert_quoted_verbatim`                two conversions that differ in the spelling
* `sound_of_wrongCount`                    where a wrong number of edges is found
* `strict_lenient_of_declared`, `level_of_mem_strict`   the verdicts, and what is told of them
* `convert_strict_lenient`                 two conversions that differ in the counting
-/

namespace EdgeDot

open Dot

/-! ## two spellings -/

namespace Conversion

theorem byteLength_body_quoted (name : Text) (edges : List Edge) :
    Text.byteLength (body .quoted name edges) =
      Text.byteLength (body .verbatim name edges) + totalSurcharge name edges := by
  rw [body, body, Text.byteLength_append, Text.byteLength_append, byteLength_header_quoted,
    byteLength_statements_quoted, totalSurcharge]
  omega

theorem byteLength_written_quoted (name : Text) (edges : List Edge)
    (result : Except Failure Totals) :
    Text.byteLength (written .quoted name edges result) =
      Text.byteLength (written .verbatim name edges result) + totalSurcharge name edges := by
  have hbody := byteLength_body_quoted name edges
  cases result with
  | error f => exact hbody
  | ok totals =>
    have hdocument : ∀ spelling, written spelling name edges (.ok totals) =
        body spelling name edges ++ footer := fun _ => rfl
    rw [hdocument, hdocument, Text.byteLength_append, Text.byteLength_append, hbody]
    omega

theorem written_eq_of_isBare {name : Text} {edges : List Edge} (hname : isBare name = true)
    (hedges : ∀ e ∈ edges, isBare e.source = true ∧ isBare e.target = true)
    (result : Except Failure Totals) :
    written .quoted name edges result = written .verbatim name edges result := by
  have hbody : body .quoted name edges = body .verbatim name edges := by
    rw [body, body, header_eq_of_isBare hname, statements_eq_of_isBare hedges]
  cases result with
  | error f => exact hbody
  | ok totals => exact congrArg (· ++ footer) hbody

end Conversion

open Conversion

/-- The spelling of names does not change what a conversion comes to, tells and reads.  It does not
change what is written either, if nothing is written or the name of the digraph and both names of
each edge that is written are bare; in any other case more is written if names are quoted. -/
theorem convert_quoted_verbatim (counting : Counting) (name : Text) (r : LineReader) :
    let quoted := convert name ⟨counting, .quoted⟩ r .unlimited
    let verbatim := convert name ⟨counting, .verbatim⟩ r .unlimited
    quoted.result = verbatim.result ∧ quoted.events = verbatim.events ∧
    quoted.reader = verbatim.reader ∧
    (quoted.sink.output = [] ∧ verbatim.sink.output = [] ∨
      quoted.sink.output = (written .quoted name r.edgesAhead quoted.result).encode ∧
        verbatim.sink.output = (written .verbatim name r.edgesAhead verbatim.result).encode) ∧
    (quoted.sink.output = verbatim.sink.output ↔
      quoted.sink.output = [] ∨
        isBare name = true ∧
          ∀ e ∈ r.edgesAhead, isBare e.source = true ∧ isBare e.target = true) ∧
    (quoted.sink.output ≠ verbatim.sink.output →
      verbatim.sink.output.length < quoted.sink.output.length) := by
  intro quoted verbatim
  have hreader : quoted.reader = verbatim.reader := reader_convert name name _ _ r
  cases hcount : r.readCount.result with
  | error f =>
    have hquoted : quoted = _ := convert_of_undeclared hcount name _ .unlimited
    have hverbatim : verbatim = _ := convert_of_undeclared hcount name _ .unlimited
    rw [hquoted, hverbatim]
    exact ⟨rfl, rfl, rfl, .inl ⟨rfl, rfl⟩, ⟨fun _ => .inl rfl, fun _ => rfl⟩,
      fun h => absurd rfl h⟩
  | ok declared =>
    obtain ⟨hquoted, hquotedout, hquotedevents, -⟩ :=
      convert_of_declared hcount name ⟨counting, .quoted⟩
    obtain ⟨hverbatim, hverbatimout, hverbatimevents, -⟩ :=
      convert_of_declared hcount name ⟨counting, .verbatim⟩
    rw [← hquoted] at hquotedout
    rw [← hverbatim] at hverbatimout
    have hresult : quoted.result = verbatim.result := hquoted.trans hverbatim.symm
    have hlength : quoted.sink.output.length =
        verbatim.sink.output.length + totalSurcharge name r.edgesAhead := by
      have hwritten := byteLength_written_quoted name r.edgesAhead verbatim.result
      rw [← Text.length_encode, ← Text.length_encode, ← hverbatimout, ← hresult] at hwritten
      rwa [hquotedout]
    have hbare := totalSurcharge_eq_zero_iff name r.edgesAhead
    have hsame : totalSurcharge name r.edgesAhead = 0 →
        quoted.sink.output = verbatim.sink.output := by
      intro hfree
      obtain ⟨hname, hedges⟩ := hbare.1 hfree
      rw [hquotedout, hverbatimout, hresult, written_eq_of_isBare hname hedges]
    refine ⟨hresult, hquotedevents.trans hverbatimevents.symm, hreader,
      .inr ⟨hquotedout, hverbatimout⟩, ⟨fun h => .inr (hbare.1 ?_), ?_⟩, fun h => ?_⟩
    · rw [h] at hlength
      omega
    · rintro (hnone | hall)
      · rw [hnone, List.length_nil] at hlength
        exact hsame (by omega)
      · exact hsame (hbare.2 hall)
    · have hcosts : totalSurcharge name r.edgesAhead ≠ 0 := fun hfree => h (hsame hfree)
      omega

/-! ## two countings -/

/-- nothing that is told about lines is a warning -/
theorem EdgeLine.level_of_mem_allEvents {row : Nat} {lines : List Bytes} {e : Event}
    (h : e ∈ allEvents row lines) : e.level = .debug := by
  rw [allEvents] at h
  obtain ⟨⟨line, n⟩, -, he⟩ := List.mem_flatMap.1 h
  dsimp only at he
  rw [events] at he
  split at he
  · rw [List.mem_singleton.1 he]
    rfl
  · split at he
    · rw [List.mem_singleton.1 he]
      rfl
    · cases he

/-- a walk over lines finds no wrong number of edges -/
theorem EdgeLine.outcome_ne_wrongCount (ending : Ending) (row : Nat) (lines : List Bytes)
    (declared found : Nat) : outcome ending row lines ≠ .error (.wrongCount declared found) := by
  intro h
  rw [outcome] at h
  split at h
  · cases ending <;> cases h
  next bad later _ =>
    rw [failure] at h
    cases htext : ending.text bad <;> rw [htext] at h <;> cases h

/-- nor does a count -/
theorem LineReader.readCount_ne_wrongCount (r : LineReader) (declared found : Nat) :
    r.readCount.result ≠ .error (.wrongCount declared found) := by
  intro h
  rw [readCount] at h
  generalize r.advance = advanced at h
  rcases advanced with ⟨e | given, r₁⟩
  · cases h
  · cases given with
    | false => cases h
    | true =>
      dsimp only at h
      generalize r₁.take Count.read = taken at h
      rcases taken with ⟨e | n, r₂⟩
      · cases h
      · dsimp only at h
        generalize r₂.expectEnd = ended at h
        rcases ended with ⟨e | u, r₃⟩ <;> cases h

namespace Conversion

theorem verdict_error (counting : Counting) (declared found : Nat) (f : Failure) :
    verdict counting declared found (.error f) = .error f := rfl

theorem verdict_lenient (declared found : Nat) :
    verdict .lenient declared found (.ok ()) = .ok ⟨declared, found⟩ :=
  if_neg fun h => nomatch h.2

theorem verdict_strict (declared found : Nat) :
    verdict .strict declared found (.ok ()) =
      if declared = found then .ok ⟨declared, found⟩ else .error (.wrongCount declared found) := by
  show (if found ≠ declared ∧ Counting.strict = .strict then _ else _) = _
  by_cases hsame : declared = found
  · rw [if_pos hsame, if_neg fun h => h.1 hsame.symm]
  · rw [if_neg hsame, if_pos ⟨fun h => hsame h.symm, rfl⟩]

/-- a strict verdict is told as a result only -/
theorem lastEvents_strict (declared found : Nat) (walked : Except Failure Unit) :
    lastEvents (verdict .strict declared found walked) = [] := by
  cases walked with
  | error f => rfl
  | ok u =>
    rw [verdict_strict]
    by_cases hsame : declared = found
    · rw [if_pos hsame]
      exact if_pos hsame.symm
    · rw [if_neg hsame]
      rfl

end Conversion

/-- a wrong number of edges is only found where no line is a fault, and when all lines are read -/
theorem sound_of_wrongCount {name : Text} {options : Options} {r : LineReader}
    {declared found : Nat}
    (h : (convert name options r .unlimited).result = .error (.wrongCount declared found)) :
    (∀ line ∈ r.source.lines.tail, EdgeLine.isSound r.source.ending line = true) ∧
      r.source.ending = .complete ∧
      (convert name options r .unlimited).reader.source.lines = [] := by
  cases hcount : r.readCount.result with
  | error f =>
    rw [convert_of_undeclared hcount] at h
    have hf : f = .wrongCount declared found := Except.error.inj h
    rw [hf] at hcount
    exact absurd hcount (r.readCount_ne_wrongCount declared found)
  | ok n =>
    obtain ⟨hresult, -, -, hsource, -⟩ := convert_of_declared hcount name options
    cases hwalked : r.outcomeAhead with
    | error f =>
      rw [hwalked, verdict_error, h] at hresult
      have hf : .wrongCount declared found = f := Except.error.inj hresult
      rw [← hf] at hwalked
      exact absurd hwalked (EdgeLine.outcome_ne_wrongCount _ _ _ _ _)
    | ok u =>
      obtain ⟨hsound, hending⟩ := r.outcomeAhead_eq_ok_iff.1 hwalked
      refine ⟨hsound, hending, (congrArg Source.lines hsource).trans ?_⟩
      rw [List.dropWhile_eq_nil_iff.2 hsound]
      rfl

/-- behind a count, a strict conversion beside a lenient one -/
theorem strict_lenient_of_declared {r : LineReader} {declared : Nat}
    (hcount : r.readCount.result = .ok declared) (spelling : Spelling) (name : Text) :
    let lenient := convert name ⟨.lenient, spelling⟩ r .unlimited
    let strict := convert name ⟨.strict, spelling⟩ r .unlimited
    (∃ f, lenient.result = .error f ∧ strict.result = .error f ∧
      strict.sink.output = lenient.sink.output ∧ strict.events = lenient.events) ∨
    (lenient.result = .ok ⟨declared, r.edgesAhead.length⟩ ∧
      if declared = r.edgesAhead.length then
        strict.result = .ok ⟨declared, r.edgesAhead.length⟩ ∧
          strict.sink.output = lenient.sink.output ∧ strict.events = lenient.events
      else
        strict.result = .error (.wrongCount declared r.edgesAhead.length) ∧
          lenient.events = strict.events ++ [.countDiffers declared r.edgesAhead.length] ∧
          lenient.sink.output = strict.sink.output ++ [0x7D, 0x0A]) := by
  intro lenient strict
  obtain ⟨hlenient, hlenientout, hlenientevents, -⟩ :=
    convert_of_declared hcount name ⟨.lenient, spelling⟩
  obtain ⟨hstrict, hstrictout, hstrictevents, -⟩ :=
    convert_of_declared hcount name ⟨.strict, spelling⟩
  rw [lastEvents_strict, List.append_nil] at hstrictevents
  cases hwalked : r.outcomeAhead with
  | error f =>
    rw [hwalked] at hlenient hlenientout hlenientevents hstrict hstrictout
    exact .inl ⟨f, hlenient, hstrict, hstrictout.trans hlenientout.symm,
      hstrictevents.trans (hlenientevents.trans (List.append_nil _)).symm⟩
  | ok u =>
    rw [hwalked, verdict_lenient] at hlenient hlenientout hlenientevents
    rw [hwalked, verdict_strict] at hstrict hstrictout
    refine .inr ⟨hlenient, ?_⟩
    by_cases hsame : declared = r.edgesAhead.length
    · have hnone : lastEvents (.ok ⟨declared, r.edgesAhead.length⟩) = [] := if_pos hsame.symm
      rw [hnone, List.append_nil] at hlenientevents
      rw [if_pos hsame] at hstrict hstrictout ⊢
      exact ⟨hstrict, hstrictout.trans hlenientout.symm, hstrictevents.trans hlenientevents.symm⟩
    · have hone : lastEvents (.ok ⟨declared, r.edgesAhead.length⟩) =
          [.countDiffers declared r.edgesAhead.length] := if_neg fun h => hsame h.symm
      rw [hone, ← hstrictevents] at hlenientevents
      rw [if_neg hsame] at hstrict hstrictout ⊢
      refine ⟨hstrict, hlenientevents, ?_⟩
      rw [hlenientout, hstrictout, ← encode_footer, ← Text.encode_append]
      rfl

/-- a strict conversion tells of no wrong number of edges -/
theorem level_of_mem_strict {spelling : Spelling} {name : Text} {r : LineReader} {e : Event}
    (h : e ∈ (convert name ⟨.strict, spelling⟩ r .unlimited).events) : e.level = .debug := by
  cases hcount : r.readCount.result with
  | error f =>
    rw [convert_of_undeclared hcount] at h
    cases h
  | ok declared =>
    obtain ⟨-, -, hevents, -⟩ := convert_of_declared hcount name ⟨.strict, spelling⟩
    rw [hevents, lastEvents_strict, List.append_nil] at h
    exact EdgeLine.level_of_mem_allEvents h

/-- Counting strictly does not change what a conversion reads, nor any failure that a line is to
blame for.  It changes the success of a conversion that found a wrong number of edges, which then
fails without the closing brace and without the warning that it would have given.  The declared
count does not bound what is read, and a wrong number of edges is only found where no line is a
fault. -/
theorem convert_strict_lenient (spelling : Spelling) (name : Text) (r : LineReader) :
    let lenient := convert name ⟨.lenient, spelling⟩ r .unlimited
    let strict := convert name ⟨.strict, spelling⟩ r .unlimited
    strict.reader = lenient.reader ∧
    (∀ e ∈ strict.events, e.level ≠ .warn) ∧
    (match lenient.result with
      | .error f =>
        strict.result = .error f ∧ strict.sink.output = lenient.sink.output ∧
          strict.events = lenient.events
      | .ok totals =>
        if totals.declared = totals.edges then
          strict.result = .ok totals ∧ strict.sink.output = lenient.sink.output ∧
            strict.events = lenient.events
        else
          strict.result = .error (.wrongCount totals.declared totals.edges) ∧
            lenient.events = strict.events ++ [.countDiffers totals.declared totals.edges] ∧
            lenient.sink.output = strict.sink.output ++ [0x7D, 0x0A]) ∧
    (∀ declared, r.readCount.result = .ok declared →
      strict.reader.row = r.row + 2 + r.linesAhead.length ∧
        strict.reader.source.lines =
          (r.source.lines.tail.dropWhile (EdgeLine.isSound r.source.ending)).tail) ∧
    ∀ declared found, strict.result = .error (.wrongCount declared found) →
      (∀ line ∈ r.source.lines.tail, EdgeLine.isSound r.source.ending line = true) ∧
        r.source.ending = .complete ∧ strict.reader.source.lines = [] := by
  intro lenient strict
  refine ⟨reader_convert name name _ _ r, ?_, ?_, ?_, fun _ _ => sound_of_wrongCount⟩
  · intro e he hwarn
    rw [level_of_mem_strict he] at hwarn
    cases hwarn
  · cases hcount : r.readCount.result with
    | error f =>
      have hlenient : lenient = _ := convert_of_undeclared hcount name _ .unlimited
      have hstrict : strict = _ := convert_of_undeclared hcount name _ .unlimited
      rw [hlenient, hstrict]
      exact ⟨rfl, rfl, rfl⟩
    | ok declared =>
      obtain ⟨f, hlenient, hsame⟩ | ⟨hlenient, hverdict⟩ :=
        strict_lenient_of_declared hcount spelling name
      · have hfailed : lenient.result = .error f := hlenient
        rw [hfailed]
        exact hsame
      · have hfound : lenient.result = .ok ⟨declared, r.edgesAhead.length⟩ := hlenient
        rw [hfound]
        exact hverdict
  · intro declared hcount
    obtain ⟨-, -, -, hsource, hrow⟩ := convert_of_declared hcount name ⟨.strict, spelling⟩
    exact ⟨hrow, congrArg Source.lines hsource⟩

end EdgeDot
