import EdgeDot.Proofs.Conversion.Outcome
import EdgeDot.Proofs.Line.Counts
import EdgeDot.Proofs.Line.Texts

/-!
# Ways to write an edge list

A count and some edges can be written in many ways: with zeros and a plus sign in front of the
count, with separators around it and around the names, with text behind an edge, with empty rows
anywhere behind the count, with carriage returns, and without the last line feed.  Reading gives
the same for all of them.

* `IsName`, `IsPadding`      what may stand on a row, and what may stand around it
* `CountRow`, `EdgeRow`, `EdgeRows`   rows of a count, of an edge, of edges with empty rows
* `Lined`                    texts of rows
* `Layout`                   texts of a count and edges
* `readEdgeList_of_layout`   what is read from such a text
-/

namespace EdgeDot

/-! ## names and what is around them -/

/-- a text that can be the name of a node: it is not empty, and nothing in it separates -/
structure IsName (s : Text) : Prop where
  nonempty : s ≠ []
  whole : ∀ c ∈ s, isSeparator c = false

instance (s : Text) : Decidable (IsName s) :=
  decidable_of_iff (s ≠ [] ∧ s.all (fun c => !isSeparator c) = true)
    ⟨fun h => ⟨h.1, by simpa using h.2⟩, fun h => ⟨h.nonempty, by simpa using h.whole⟩⟩

/-- separators that do not end a line -/
def IsPadding (s : Text) : Prop := ∀ c ∈ s, isSeparator c = true ∧ c ≠ '\n'

instance (s : Text) : Decidable (IsPadding s) :=
  List.decidableBAll (fun c => isSeparator c = true ∧ c ≠ '\n') s

/-- what may follow an edge on its row: nothing, or any text behind padding -/
inductive Trailer : Text → Prop
  | nothing : Trailer []
  | ignored {padding more : Text} (hpadding : IsPadding padding) (hne : padding ≠ [])
    (hmore : '\n' ∉ more) : Trailer (padding ++ more)

theorem lineFeed_not_mem_of_not_separates {s : Text} (h : ∀ c ∈ s, isSeparator c = false) :
    '\n' ∉ s :=
  fun hmem => Bool.noConfusion ((h '\n' hmem).symm.trans rfl)

namespace IsPadding
variable {s : Text}

theorem separates (h : IsPadding s) : ∀ c ∈ s, isSeparator c = true := fun c hc => (h c hc).1

theorem lineFeed_not_mem (h : IsPadding s) : '\n' ∉ s := fun hmem => (h '\n' hmem).2 rfl

theorem head? (h : IsPadding s) (hne : s ≠ []) (rest : Text) :
    ∀ c, (s ++ rest).head? = some c → isSeparator c = true := by
  intro c hc
  rw [List.head?_append_of_ne_nil _ hne] at hc
  exact h.separates c (List.mem_of_mem_head? hc)

end IsPadding

namespace Trailer
variable {s : Text}

theorem head? (h : Trailer s) : ∀ c, s.head? = some c → isSeparator c = true := by
  cases h with
  | nothing => exact nofun
  | ignored hpadding hne hmore => exact hpadding.head? hne _

theorem lineFeed_not_mem (h : Trailer s) : '\n' ∉ s := by
  cases h with
  | nothing => exact List.not_mem_nil
  | ignored hpadding hne hmore => exact List.not_mem_append hpadding.lineFeed_not_mem hmore

end Trailer

/-! ## rows -/

/-- the row of a count: its digits behind any zeros and at most one plus sign -/
inductive CountRow (n : Nat) : Text → Prop
  | digits {before sign after : Text} (zeros : Nat) (hbefore : IsPadding before)
    (hsign : sign = [] ∨ sign = ['+']) (hafter : IsPadding after) :
    CountRow n (before ++ (sign ++ (List.replicate zeros '0' ++ Text.ofNat n) ++ after))

/-- the row of an edge: its two names with padding between them, and perhaps before them -/
inductive EdgeRow (e : Edge) : Text → Prop
  | names {indent gap more : Text} (hindent : IsPadding indent) (hgap : IsPadding gap)
    (hne : gap ≠ []) (hmore : Trailer more) :
    EdgeRow e (indent ++ (e.source ++ (gap ++ (e.target ++ more))))

/-- rows of edges in their order, and anywhere rows of any number of carriage returns -/
inductive EdgeRows : List Edge → List Text → Prop
  | nil : EdgeRows [] []
  | empty {edges : List Edge} {rows : List Text} (returns : Nat) (later : EdgeRows edges rows) :
    EdgeRows edges (List.replicate returns '\r' :: rows)
  | edge {e : Edge} {row : Text} {edges : List Edge} {rows : List Text} (first : EdgeRow e row)
    (later : EdgeRows edges rows) : EdgeRows (e :: edges) (row :: rows)

/-- texts of rows: each row ends with a line feed, which the last may lack -/
inductive Lined : List Text → Text → Prop
  | nil : Lined [] []
  | last (row : Text) : Lined [row] row
  | line (row : Text) {rows : List Text} {text : Text} (later : Lined rows text) :
    Lined (row :: rows) (row ++ '\n' :: text)

/-- texts of a count and of edges -/
inductive Layout (n : Nat) (edges : List Edge) : Text → Prop
  | rows {first : Text} {rows : List Text} {text : Text} (count : CountRow n first)
    (later : EdgeRows edges rows) (lined : Lined (first :: rows) text) : Layout n edges text

theorem CountRow.lineFeed_not_mem {n : Nat} {row : Text} (h : CountRow n row) : '\n' ∉ row := by
  cases h with
  | digits zeros hbefore hsign hafter =>
    have hnumeral := Count.numeral_ofNat hsign zeros n
    exact List.not_mem_append hbefore.lineFeed_not_mem
      (List.not_mem_append (lineFeed_not_mem_of_not_separates hnumeral.not_separates)
        hafter.lineFeed_not_mem)

theorem CountRow.ne_nil {n : Nat} {row : Text} (h : CountRow n row) : row ≠ [] := by
  cases h with
  | digits zeros hbefore hsign hafter =>
    have hnumeral := Count.numeral_ofNat hsign zeros n
    exact List.append_ne_nil_of_right_ne_nil _ (List.append_ne_nil_of_left_ne_nil hnumeral.ne_nil _)

/-- the row of a count in range is a line of this count, whatever ends it -/
theorem CountRow.countLine {n : Nat} {row ended : Text} (h : CountRow n row)
    (hn : n < Count.limit) (hended : ∀ c ∈ ended, isSeparator c = true) :
    CountLine (row ++ ended) (.ok n) := by
  cases h with
  | @digits before sign after zeros hbefore hsign hafter =>
    have hnumeral := Count.numeral_ofNat hsign zeros n
    have htext : before ++ (sign ++ (List.replicate zeros '0' ++ Text.ofNat n) ++ after) ++ ended =
        before ++ (sign ++ (List.replicate zeros '0' ++ Text.ofNat n) ++ (after ++ ended)) := by
      rw [List.append_assoc, List.append_assoc]
    have hbehind : ∀ c ∈ after ++ ended, isSeparator c = true :=
      List.forall_mem_append.2 ⟨hafter.separates, hended⟩
    exact .count htext hbefore.separates hbehind hnumeral hn

variable {e : Edge} {row : Text}

theorem EdgeRow.lineFeed_not_mem (h : EdgeRow e row) (hsource : IsName e.source)
    (htarget : IsName e.target) : '\n' ∉ row := by
  cases h with
  | names hindent hgap hne hmore =>
    have htail := List.not_mem_append (lineFeed_not_mem_of_not_separates htarget.whole)
      hmore.lineFeed_not_mem
    exact List.not_mem_append hindent.lineFeed_not_mem
      (List.not_mem_append (lineFeed_not_mem_of_not_separates hsource.whole)
        (List.not_mem_append hgap.lineFeed_not_mem htail))

/-- the row of an edge has its names as first tokens -/
theorem EdgeRow.runs_eq (h : EdgeRow e row) (hsource : IsName e.source)
    (htarget : IsName e.target) :
    ∃ more, runs isSeparator row = e.source :: e.target :: more := by
  cases h with
  | names hindent hgap hne hmore =>
    rw [runs_append_of_separates hindent.separates,
      runs_append_of_token hsource.nonempty hsource.whole (hgap.head? hne _),
      runs_append_of_separates hgap.separates,
      runs_append_of_token htarget.nonempty htarget.whole hmore.head?]
    exact ⟨_, rfl⟩

/-! ## lines -/

/-- The first line of a text of rows: the first row with or without a line feed.  An empty last row
without one makes no line. -/
theorem Lined.first {rows : List Text} {text : Text} (h : Lined (row :: rows) text)
    (hrow : '\n' ∉ row) :
    ∃ later, Lined rows later ∧
      (row = [] ∧ splitLines text.encode = splitLines later.encode ∨
        ∃ ended : Text, (∀ c ∈ ended, isLineEnd c = true) ∧
          splitLines text.encode = Text.encode (row ++ ended) :: splitLines later.encode) := by
  cases h with
  | last =>
    refine ⟨[], .nil, ?_⟩
    by_cases hempty : row = []
    · exact .inl ⟨hempty, by rw [hempty]⟩
    · refine .inr ⟨[], nofun, ?_⟩
      rw [splitLines_encode_last hempty hrow, List.append_nil]
      rfl
  | @line _ _ later hlater =>
    have hended : ∀ c ∈ ['\n'], isLineEnd c = true := List.forall_mem_singleton.2 rfl
    exact ⟨later, hlater, .inr ⟨['\n'], hended, splitLines_encode_line hrow later⟩⟩

/-- lines behind the first that have no fault, and their edges -/
structure Gives (lines : List Bytes) (edges : List Edge) : Prop where
  sound : ∀ line ∈ lines, EdgeLine.isSound .complete line = true
  edges : lines.filterMap EdgeLine.edge? = edges

namespace Gives
variable {lines : List Bytes} {edges : List Edge} {s : Text}

theorem nil : Gives [] [] := ⟨nofun, rfl⟩

theorem empty (h : ∀ c ∈ s, isLineEnd c = true) (later : Gives lines edges) :
    Gives (s.encode :: lines) edges := by
  have hempty : isEmptyLine s.encode = true := by
    rw [isEmptyLine, lineEndClass.all_encode]
    exact List.all_eq_true.2 h
  constructor
  · refine List.forall_mem_cons.2 ⟨?_, later.sound⟩
    rw [EdgeLine.isSound_of_text (Ending.text_encode s), hempty, Bool.true_or]
  · rw [List.filterMap_cons_none (EdgeLine.edge?_of_isEmptyLine hempty), later.edges]

theorem edge {more : List Text} (h : runs isSeparator s = e.source :: e.target :: more)
    (later : Gives lines edges) : Gives (s.encode :: lines) (e :: edges) := by
  have htokens := lineTokens_encode s
  rw [h] at htokens
  have hedge : EdgeLine.edge? s.encode = some e := by
    rw [EdgeLine.edge?, htokens]
    rfl
  have hsome := EdgeLine.isSome_edge? s.encode
  rw [hedge, Option.isSome_some] at hsome
  constructor
  · refine List.forall_mem_cons.2 ⟨?_, later.sound⟩
    rw [EdgeLine.isSound_of_text (Ending.text_encode s), ← hsome, Bool.or_true]
  · rw [List.filterMap_cons_some hedge, later.edges]

end Gives

theorem EdgeRows.gives {edges : List Edge} {rows : List Text} {text : Text}
    (h : EdgeRows edges rows) (hnames : ∀ e ∈ edges, IsName e.source ∧ IsName e.target)
    (lined : Lined rows text) : Gives (splitLines text.encode) edges := by
  induction h generalizing text with
  | nil =>
    cases lined
    exact .nil
  | empty returns _ ih =>
    have hreturns : ∀ c ∈ List.replicate returns '\r', c = '\r' :=
      fun c hc => (List.mem_replicate.1 hc).2
    obtain ⟨later, hlater, ⟨-, hsplit⟩ | ⟨ended, hended, hsplit⟩⟩ :=
      lined.first fun hmem => absurd (hreturns '\n' hmem) (by decide)
    · rw [hsplit]
      exact ih hnames hlater
    · rw [hsplit]
      refine .empty (List.forall_mem_append.2 ⟨fun c hc => ?_, hended⟩) (ih hnames hlater)
      rw [hreturns c hc]
      rfl
  | @edge e row _ _ first _ ih =>
    obtain ⟨⟨hsource, htarget⟩, hlater⟩ := List.forall_mem_cons.1 hnames
    obtain ⟨more, hruns⟩ := first.runs_eq hsource htarget
    obtain ⟨later, hlined, ⟨hempty, -⟩ | ⟨ended, hended, hsplit⟩⟩ :=
      lined.first (first.lineFeed_not_mem hsource htarget)
    · rw [hempty, runs_nil] at hruns
      cases hruns
    · rw [hsplit]
      have hgap := runs_append_gap (fun c hc => isSeparator_of_isLineEnd (hended c hc)) row
      exact .edge (hgap.trans hruns) (ih hlater hlined)

/-! ## reading -/

/-- lines without a fault behind a count are read as their edges -/
theorem Gives.read {text : Text} {n : Nat} {edges : List Edge}
    (h : Gives (LineReader.ofText text).source.lines.tail edges)
    (hcount : (LineReader.ofText text).readCount.result = .ok n) :
    (readEdgeList text).1 = .ok (n, .ofList edges) := by
  rw [readEdgeList_of_declared hcount, EdgeLine.edges_of_sound h.sound, h.edges]
  rfl

/-- A text that holds a count below 2⁶⁴ and edges, however they are written, is read as this count
and these edges, in their order and with their duplicates. -/
theorem readEdgeList_of_layout {n : Nat} {edges : List Edge} {text : Text} (hn : n < Count.limit)
    (hnames : ∀ e ∈ edges, IsName e.source ∧ IsName e.target) (h : Layout n edges text) :
    (readEdgeList text).1 = .ok (n, .ofList edges) := by
  cases h with
  | rows count rows lined =>
    obtain ⟨later, hlater, ⟨hempty, -⟩ | ⟨ended, hended, hsplit⟩⟩ :=
      lined.first count.lineFeed_not_mem
    · exact absurd hempty count.ne_nil
    · have hs : (LineReader.ofText text).source = ⟨_ :: splitLines later.encode, .complete⟩ :=
        congrArg (Source.mk · _) hsplit
      obtain ⟨column, r', -, -, hread⟩ := LineReader.readCount_of_text hs (Ending.text_encode _)
      have hcount : (LineReader.ofText text).readCount.result = .ok n := by
        have hline := count.countLine hn fun c hc => isSeparator_of_isLineEnd (hended c hc)
        rw [hread, lineTokens_encode, ← hline.eq_ofLine]
        rfl
      have htail : (LineReader.ofText text).source.lines.tail = splitLines later.encode :=
        congrArg List.tail hsplit
      have hgives := rows.gives hnames hlater
      rw [← htail] at hgives
      exact hgives.read hcount

/-- a signed count behind zeros, empty rows, carriage returns, a no-break space and another column,
and no last line feed -/
theorem readEdgeList_of_layout_columns :
    let text := "\t+002 \r\n\r\n a\té\r\n\n\u00a0b \u0001 a \tc d".toList
    let edges : List Edge := [⟨"a".toList, "é".toList⟩, ⟨"\u00a0b".toList, "a".toList⟩]
    2 < Count.limit ∧ (∀ e ∈ edges, IsName e.source ∧ IsName e.target) ∧ Layout 2 edges text ∧
      (readEdgeList text).1 = .ok (2, .ofList edges) := by
  intro text edges
  have hn : 2 < Count.limit := by decide
  have hnames : ∀ e ∈ edges, IsName e.source ∧ IsName e.target := by
    rw [List.forall_mem_cons, List.forall_mem_singleton]
    exact ⟨⟨by decide, by decide⟩, ⟨by decide, by decide⟩⟩
  have hcount : CountRow 2 "\t+002 \r".toList :=
    @CountRow.digits 2 "\t".toList "+".toList " \r".toList 2 (by decide) (.inr rfl) (by decide)
  have hfirst : EdgeRow ⟨"a".toList, "é".toList⟩ " a\té\r".toList :=
    @EdgeRow.names ⟨"a".toList, "é".toList⟩ " ".toList "\t".toList "\r".toList (by decide)
      (by decide) (by decide)
      (@Trailer.ignored "\r".toList [] (by decide) (by decide) (by decide))
  have hsecond : EdgeRow ⟨"\u00a0b".toList, "a".toList⟩ "\u00a0b \u0001 a \tc d".toList :=
    @EdgeRow.names ⟨"\u00a0b".toList, "a".toList⟩ [] " \u0001 ".toList " \tc d".toList (by decide)
      (by decide) (by decide)
      (@Trailer.ignored " \t".toList "c d".toList (by decide) (by decide) (by decide))
  have hlayout : Layout 2 edges text :=
    .rows hcount (.empty 1 (.edge hfirst (.empty 0 (.edge hsecond .nil))))
      (.line _ (.line _ (.line _ (.line _ (.last _)))))
  exact ⟨hn, hnames, hlayout, readEdgeList_of_layout hn hnames hlayout⟩

end EdgeDot
