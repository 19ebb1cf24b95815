import EdgeDot.Proofs.Session.Errors
import EdgeDot.Proofs.Line.Texts

/-!
# How errors are shown

An error is shown in three rows: its wording, the line with its number, and a caret under the
column.  The caret stands under the right character because the row of the caret is as long as what
is in front of that character, and its blanks keep the tabs.  A line that is too long is not shown,
and then the error takes a single row.

* `lineFeed_not_mem_lineContent`, `RecordError.lineFeed_not_mem_message`   rows are not broken up
* `CaretRow`                          a row that puts a caret under the end of another
* `LocatedError.display_of_short`, `LocatedError.display_of_long`   the two forms
* `Session.display_points_to_column`  the wording of every error of a session
-/

namespace EdgeDot

/-! ## texts without line feeds -/

theorem getLast?_lineContent {s : Text} {c : Char} (h : (lineContent s).getLast? = some c) :
    isLineEnd c = false := by
  have hhead := List.head?_dropWhile_not isLineEnd s.reverse
  rw [lineContent, List.getLast?_reverse] at h
  rw [h] at hhead
  simpa using hhead

/-- a line has a line feed at its end only, and there it is taken off -/
theorem lineFeed_not_mem_lineContent {line : Bytes} {text : Text}
    (ht : Text.decode? line = some text) (hline : lineFeed ∉ line.dropLast) :
    '\n' ∉ lineContent text := by
  intro hmem
  rw [Text.eq_encode_of_decode? ht] at hline
  obtain ⟨ending, htext⟩ := lineContent_prefix text
  obtain ⟨front, c, hc⟩ := (List.eq_nil_or_concat (lineContent text)).resolve_left
    (List.ne_nil_of_mem hmem)
  rw [List.concat_eq_append] at hc
  have hlast : isLineEnd c = false := getLast?_lineContent (by rw [hc, List.getLast?_concat])
  have hfront : '\n' ∈ front := by
    rw [hc] at hmem
    rcases List.mem_append.1 hmem with hin | hin
    · exact hin
    · rw [← List.mem_singleton.1 hin] at hlast
      cases hlast
  have hdrop : text.dropLast = front ++ (c :: ending).dropLast := by
    rw [← htext, hc, ← List.append_cons]
    exact List.dropLast_append_of_ne_nil (List.cons_ne_nil c ending)
  have hfeed := lineFeed_not_mem_dropLast_of_encode hline
  rw [hdrop] at hfeed
  exact hfeed (List.mem_append_left _ hfront)

theorem lineFeed_not_mem_ofNat (n : Nat) : '\n' ∉ Text.ofNat n := by
  intro hmem
  have hdigit : '\n'.isDigit = true :=
    Nat.isDigit_of_mem_toDigits (by decide) (Nat.le_refl 10) hmem
  exact absurd hdigit (by decide)

theorem RecordError.lineFeed_not_mem_message (cause : RecordError) : '\n' ∉ cause.message := by
  cases cause with
  | tooFew expected found =>
    have hexpected : '\n' ∉ "expected ".toList ++ Text.ofNat expected :=
      List.not_mem_append (by decide) (lineFeed_not_mem_ofNat expected)
    exact List.not_mem_append (List.not_mem_append hexpected (by decide))
      (lineFeed_not_mem_ofNat found)
  | surplus => decide
  | notACount cause =>
    show '\n' ∉ "edge count is not a non-negative integer".toList
    decide

/-! ## the row of the caret -/

/-- a row that is blank under a label and under what follows it, up to a caret behind; where that
has a separator the row has the same -/
structure CaretRow (label shown pad : Text) : Prop where
  length : pad.length = (label ++ shown).length
  caret : '^' ∉ pad
  under_label : ∀ i, i < label.length → pad[i]? = some ' '
  under_shown : ∀ i c, shown[i]? = some c →
    pad[label.length + i]? = some (if isSeparator c then c else ' ')

namespace LocatedError
variable {e : LocatedError}

theorem caretRow (label shown : Text) :
    CaretRow label shown (List.replicate label.length ' ' ++ blankOut shown) where
  length := by rw [List.length_append, List.length_append, List.length_replicate, length_blankOut]
  caret hmem := by
    rcases List.mem_append.1 hmem with hin | hin
    · cases (List.mem_replicate.1 hin).2
    · obtain ⟨c, -, hc⟩ := List.mem_map.1 hin
      split at hc
      next hsep => rw [hc] at hsep; cases hsep
      next => cases hc
  under_label i hi := by
    rw [List.getElem?_append_left (by rwa [List.length_replicate]),
      List.getElem?_replicate_of_lt hi]
  under_shown i c hc := by
    rw [List.getElem?_append_right (by rw [List.length_replicate]; exact Nat.le_add_right _ _),
      List.length_replicate, Nat.add_sub_cancel_left, blankOut, List.getElem?_map, hc]
    rfl

theorem lineFeed_not_mem_blankOut {s : Text} (h : '\n' ∉ s) : '\n' ∉ blankOut s := by
  intro hmem
  obtain ⟨c, hc, hblank⟩ := List.mem_map.1 hmem
  split at hblank
  · exact h (hblank ▸ hc)
  · cases hblank

/-- a line that is not too long is shown between the wording and the caret -/
theorem display_of_short (hshort : e.content.byteLength ≤ longest) (hline : '\n' ∉ e.content) :
    ∃ pad, CaretRow (Text.ofNat e.row ++ "| ".toList) e.before pad ∧
      e.display = e.cause.message ++ " at\n".toList ++
        (Text.ofNat e.row ++ "| ".toList ++ e.content) ++ "\n".toList ++ (pad ++ ['^']) ∧
      e.display.count '\n' = 2 := by
  let label := Text.ofNat e.row ++ "| ".toList
  let pad := List.replicate label.length ' ' ++ blankOut e.before
  have hdisplay : e.display = e.cause.message ++ " at\n".toList ++ (label ++ e.content) ++
      "\n".toList ++ (pad ++ ['^']) := by
    rw [display, if_pos hshort]
    simp only [pad, label, List.append_assoc]
    rfl
  refine ⟨pad, caretRow label e.before, hdisplay, ?_⟩
  have hbefore : '\n' ∉ e.before := fun hmem => hline (e.before_prefix.subset hmem)
  have hlabel : '\n' ∉ label := by
    simp only [label, List.mem_append, not_or]
    exact ⟨lineFeed_not_mem_ofNat e.row, by decide⟩
  have hpad : '\n' ∉ pad := by
    simp only [pad, List.mem_append, not_or]
    refine ⟨fun hmem => ?_, lineFeed_not_mem_blankOut hbefore⟩
    cases (List.mem_replicate.1 hmem).2
  rw [hdisplay]
  simp only [List.count_append, List.count_eq_zero_of_not_mem hline,
    List.count_eq_zero_of_not_mem hlabel, List.count_eq_zero_of_not_mem hpad,
    List.count_eq_zero_of_not_mem e.cause.lineFeed_not_mem_message]
  decide

/-- an error of a line that is too long is a single row -/
theorem display_of_long (hlong : longest < e.content.byteLength) :
    e.display = e.cause.message ++ " at line ".toList ++ Text.ofNat e.row ++
        ", column ".toList ++ Text.ofNat (e.marker + 1) ∧ '\n' ∉ e.display := by
  have hdisplay : e.display = e.cause.message ++ " at line ".toList ++ Text.ofNat e.row ++
      ", column ".toList ++ Text.ofNat (e.marker + 1) := by
    rw [display, if_neg (Nat.not_le.2 hlong)]
  refine ⟨hdisplay, ?_⟩
  rw [hdisplay]
  simp only [List.mem_append, not_or]
  exact ⟨⟨⟨⟨e.cause.lineFeed_not_mem_message, by decide⟩, lineFeed_not_mem_ofNat e.row⟩,
    by decide⟩, lineFeed_not_mem_ofNat (e.marker + 1)⟩

end LocatedError

/-! ## errors of a session -/

namespace Session

/-- a line that a session shows has no line feed inside -/
theorem lineFeed_not_mem_content {bytes : Bytes} {ending : Ending} {earlier : List Request}
    {request : Request} {e : LocatedError}
    (he : e ∈ (request.run (Request.runAll (.ofBytes bytes ending) earlier).2).1.answer.errors) :
    '\n' ∉ e.content := by
  have hblames := (consumes_runAll (.ofBytes bytes ending) earlier).blames (blames_run he)
  obtain ⟨-, -, text, ht, hcontent, -⟩ := hblames.of_bytes
  rw [hcontent]
  refine lineFeed_not_mem_lineContent ht ?_
  cases hline : (splitLines bytes)[e.row - 1]? with
  | none => exact List.not_mem_nil
  | some line => exact lineFeed_not_mem_dropLast (List.mem_of_getElem? hline)

/-- The wording of an error with a place that a call gives, whatever calls came before it.  With
`m` bytes of the line in front of its column, a line of at most 120 bytes is shown in full, below
the wording and with its number; the row below is blank up to a caret, keeps the separators of the
first `m` bytes, and so the caret is under the character that begins there, or behind the line.
For a longer line the row and the column are told in words, without a line feed. -/
theorem display_points_to_column (bytes : Bytes) (ending : Ending) (earlier : List Request)
    (request : Request) (e : LocatedError)
    (he : e ∈ (request.run (Request.runAll (.ofBytes bytes ending) earlier).2).1.answer.errors) :
    let m := e.location.2 - 1
    let label := Text.ofNat e.location.1 ++ "| ".toList
    ∃ shown after : Text, e.content = shown ++ after ∧ shown.byteLength = m ∧
      (e.content.byteLength ≤ 120 → ∃ pad, CaretRow label shown pad ∧
        e.display = e.cause.message ++ " at\n".toList ++ (label ++ e.content) ++ "\n".toList ++
          (pad ++ ['^']) ∧
        e.display.count '\n' = 2 ∧ (label ++ e.content)[pad.length]? = after.head?) ∧
      (120 < e.content.byteLength →
        e.display = e.cause.message ++ " at line ".toList ++ Text.ofNat e.location.1 ++
          ", column ".toList ++ Text.ofNat (m + 1) ∧
        '\n' ∉ e.display) := by
  intro m label
  obtain ⟨after, hcontent⟩ := e.before_prefix
  refine ⟨e.before, after, hcontent.symm, rfl, fun hshort => ?_, fun hlong => ?_⟩
  · obtain ⟨pad, hpad, hdisplay, hcount⟩ :=
      LocatedError.display_of_short hshort (lineFeed_not_mem_content he)
    refine ⟨pad, hpad, hdisplay, hcount, ?_⟩
    have hlength : pad.length = (label ++ e.before).length := hpad.length
    rw [hlength, ← hcontent, ← List.append_assoc, List.getElem?_append_right (Nat.le_refl _),
      Nat.sub_self, List.head?_eq_getElem?]
  · exact LocatedError.display_of_long hlong

/-- the caret behind a tab -/
theorem display_points_to_column_tab :
    let bytes := Text.encode "\tx1\n".toList
    let e : LocatedError := ⟨.notACount .invalidDigit, "\tx1\n".toList, 1, 3⟩
    e ∈ (Request.readCount.run (Request.runAll (.ofBytes bytes) []).2).1.answer.errors ∧
      e.content.byteLength ≤ 120 ∧
      e.display = "edge count is not a non-negative integer at\n1| \tx1\n   \t ^".toList ∧
      ∃ shown after : Text, e.content = shown ++ after ∧ shown.byteLength = 2 ∧
        ∃ pad, CaretRow "1| ".toList shown pad ∧ e.display.count '\n' = 2 ∧
          ("1| ".toList ++ e.content)[pad.length]? = after.head? := by
  intro bytes e
  have he : e ∈ (Request.readCount.run
      (Request.runAll (.ofBytes bytes) []).2).1.answer.errors := by
    show e ∈ [e]
    exact List.mem_singleton_self e
  have hshort : e.content.byteLength ≤ 120 := by decide
  obtain ⟨shown, after, hcontent, hlength, hshown, -⟩ :=
    display_points_to_column bytes .complete [] .readCount e he
  obtain ⟨pad, hpad, -, hcount, hunder⟩ := hshown hshort
  have hlabel : Text.ofNat e.location.1 ++ "| ".toList = "1| ".toList := by decide
  rw [hlabel] at hpad hunder
  have hdisplay : e.display =
      "edge count is not a non-negative integer at\n1| \tx1\n   \t ^".toList := by decide +kernel
  exact ⟨he, hshort, hdisplay, shown, after, hcontent, hlength, pad, hpad, hcount, hunder⟩

end Session

end EdgeDot
