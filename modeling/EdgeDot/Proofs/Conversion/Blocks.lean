import EdgeDot.Proofs.Conversion.Outcome
import EdgeDot.Proofs.Line.Shift
import EdgeDot.Proofs.Line.Texts

/-!
# Blocks of lines

Behind one count line, two blocks of lines are read like each of them alone.  The edges of the
second come behind those of the first, and a fault in it stands further down by the lines of the
first; behind a fault in the first nothing of the second matters.

* `EdgeLine.edges_add`, `EdgeLine.edges_append`   lines further down, and behind other lines
* `readEdgeList_block`     what is read of a block behind a count line
* `readEdgeList_append`    what is read of two blocks
-/

namespace EdgeDot

/-! ## the edges of lines -/

namespace EdgeLine
variable {ending : Ending}

theorem failure_add (ending : Ending) (row k : Nat) (line : Bytes) :
    failure ending (row + k) line = (failure ending row line).shift k := by
  unfold failure
  cases ending.text line <;> rfl

theorem outcome_add (ending : Ending) (row k : Nat) (lines : List Bytes) :
    outcome ending (row + k) lines = (outcome ending row lines).mapError (Failure.shift k) := by
  unfold outcome
  cases lines.dropWhile (isSound ending) with
  | nil => cases ending <;> rfl
  | cons bad later =>
    dsimp only
    rw [Nat.add_right_comm, failure_add]
    rfl

theorem edges_add (row k : Nat) (lines : List Bytes) :
    edges (row + k) lines = (edges row lines).mapError (Failure.shift k) := by
  rw [edges, outcome_add, edges]
  cases outcome .complete row lines <;> rfl

/-- the edges of complete lines, and behind them those of further lines -/
theorem edges_append {front : List Bytes} (h : ∀ line ∈ front, isComplete line = true) (row : Nat)
    (back : List Bytes) :
    edges row (front ++ back) =
      match edges row front with
      | .error f => .error f
      | .ok first => (edges (row + front.length) back).map (first ++ ·) := by
  rw [edges, outcome_append h]
  cases hall : front.all (isSound .complete) with
  | false =>
    obtain ⟨f, -, hfault⟩ := outcome_of_fault hall row
    rw [edges, hfault]
    rfl
  | true =>
    rw [edges_of_sound (List.all_eq_true.1 hall), if_pos rfl, List.filterMap_append]
    dsimp only
    rw [edges]
    cases outcome .complete (row + front.length) back <;> rfl

theorem outcome_of_texts {texts : List Text} {row : Nat} {f : Failure}
    (h : outcome .complete row (texts.map Text.encode) = .error f) : ∃ e, f = .malformedEdge e := by
  induction texts generalizing row with
  | nil => cases h
  | cons s texts ih =>
    rw [List.map_cons] at h
    cases hsound : isSound .complete s.encode with
    | true =>
      rw [outcome_of_sound hsound] at h
      exact ih h
    | false =>
      rw [outcome_of_unsound hsound, failure, Ending.text_encode] at h
      exact ⟨_, (Except.error.inj h).symm⟩

/-- where lines are texts, only one that is no edge is a fault -/
theorem edges_of_texts {texts : List Text} {row : Nat} {f : Failure}
    (h : edges row (texts.map Text.encode) = .error f) : ∃ e, f = .malformedEdge e := by
  rw [edges] at h
  cases houtcome : outcome .complete row (texts.map Text.encode) with
  | error f' =>
    rw [houtcome] at h
    cases h
    exact outcome_of_texts houtcome
  | ok u =>
    rw [houtcome] at h
    cases h

end EdgeLine

/-! ## blocks behind a count -/

section
variable {count : Text} {n : Nat}

/-- a text that is a count is one also with a line feed and more behind it -/
theorem readCount_block (hcount : '\n' ∉ count)
    (hn : (LineReader.ofText count).readCount.result = .ok n) (block : Text) :
    (LineReader.ofText (count ++ '\n' :: block)).readCount.result = .ok n := by
  have hne : count ≠ [] := by
    rintro rfl
    rw [LineReader.readCount_of_nil rfl] at hn
    cases hn
  have hs : (LineReader.ofText count).source = ⟨[count.encode], .complete⟩ :=
    congrArg (Source.mk · _) (splitLines_encode_last hne hcount)
  have hs' : (LineReader.ofText (count ++ '\n' :: block)).source =
      ⟨Text.encode (count ++ ['\n']) :: splitLines block.encode, .complete⟩ :=
    congrArg (Source.mk · _) (splitLines_encode_line hcount block)
  obtain ⟨column, r, -, -, hread⟩ := LineReader.readCount_of_text hs (Ending.text_encode _)
  obtain ⟨column', r', -, -, hread'⟩ := LineReader.readCount_of_text hs' (Ending.text_encode _)
  have hruns : runs isSeparator (count ++ ['\n']) = runs isSeparator count :=
    runs_append_gap (List.forall_mem_singleton.2 rfl) count
  rw [hread, lineTokens_encode] at hn
  rw [hread', lineTokens_encode, hruns]
  cases hline : Count.ofLine (runs isSeparator count) with
  | error cause =>
    rw [hline] at hn
    cases hn
  | ok m =>
    rw [hline] at hn
    exact hn

/-- what is read of a block behind a count line: the edges of its lines -/
theorem readEdgeList_block (hcount : '\n' ∉ count)
    (hn : (LineReader.ofText count).readCount.result = .ok n) (block : Text) :
    (readEdgeList (count ++ '\n' :: block)).1 =
      (EdgeLine.edges 2 (splitLines block.encode)).map fun edges => (n, .ofList edges) := by
  have htail : (LineReader.ofText (count ++ '\n' :: block)).source.lines.tail =
      splitLines block.encode := congrArg List.tail (splitLines_encode_line hcount block)
  rw [readEdgeList_of_declared (readCount_block hcount hn block), htail]

end

/-- What is read of two blocks of lines behind a count line, the first of which is empty or ends
with a line feed.  A failure in the first is the failure of both.  Otherwise the edges of the first
come before those of the second, and a failure in the second stands further down by the lines of the
first. -/
theorem readEdgeList_append {count front : Text} {n : Nat} (hcount : '\n' ∉ count)
    (hn : (LineReader.ofText count).readCount.result = .ok n)
    (hfront : front = [] ∨ front.getLast? = some '\n') (back : Text) :
    let read (block : Text) := (readEdgeList (count ++ '\n' :: block)).1
    match read front with
    | .error f => read (front ++ back) = .error f
    | .ok (n₁, edges₁) => n₁ = n ∧
      match read back with
      | .error f => ∃ e, f = .malformedEdge e ∧ read (front ++ back) =
          .error (.malformedEdge { e with row := e.row + front.count '\n' })
      | .ok (n₂, edges₂) => n₂ = n ∧
        read (front ++ back) = .ok (n, .ofList (edges₁.toList ++ edges₂.toList)) := by
  intro read
  have hread : ∀ block, read block =
      (EdgeLine.edges 2 (splitLines block.encode)).map fun edges => (n, .ofList edges) :=
    readEdgeList_block hcount hn
  obtain ⟨lines, rfl, hlines⟩ := exists_flatten hfront
  have hcomplete : ∀ line ∈ lines.map Text.encode, isComplete line = true := by
    intro line hline
    obtain ⟨s, hs, rfl⟩ := List.mem_map.1 hline
    exact isComplete_of_isLine (hlines s hs)
  have hrow : (lines.map Text.encode).length = lines.flatten.count '\n' := by
    rw [List.length_map, Dot.Document.count_lineFeed_flatten hlines]
  rw [hread (lines.flatten ++ back), Text.encode_append, Dot.Document.splitLines_lines hlines,
    EdgeLine.edges_append hcomplete, hrow, EdgeLine.edges_add, hread lines.flatten,
    Dot.Document.splitLines_encode_flatten hlines, hread back]
  cases EdgeLine.edges 2 (lines.map Text.encode) with
  | error f => rfl
  | ok edges₁ =>
    refine ⟨rfl, ?_⟩
    obtain ⟨texts, htexts⟩ := exists_texts back
    rw [htexts]
    cases hback : EdgeLine.edges 2 (texts.map Text.encode) with
    | error f =>
      obtain ⟨e, rfl⟩ := EdgeLine.edges_of_texts hback
      exact ⟨e, rfl, rfl⟩
    | ok edges₂ => exact ⟨rfl, rfl⟩

/-- a line that is no edge, behind an edge and an empty line -/
theorem readEdgeList_append_unsound :
    let read (block : Text) := (readEdgeList ("1".toList ++ '\n' :: block)).1
    let front := "a b\r\n\n".toList
    let back := "x \nc d".toList
    read front = .ok (1, .ofList [⟨"a".toList, "b".toList⟩]) ∧
      read back = .error (.malformedEdge ⟨.tooFew 2 1, "x \n".toList, 2, 3⟩) ∧
      read (front ++ back) = .error (.malformedEdge ⟨.tooFew 2 1, "x \n".toList, 4, 3⟩) := by
  intro read front back
  have hcount : '\n' ∉ "1".toList := by decide
  have hn : (LineReader.ofText "1".toList).readCount.result = .ok 1 := by rfl
  have hfront : front = [] ∨ front.getLast? = some '\n' := by decide
  have hreadFront : read front = .ok (1, .ofList [⟨"a".toList, "b".toList⟩]) := by
    show (readEdgeList ("1".toList ++ '\n' :: front)).1 = _
    rw [readEdgeList_block hcount hn]
    rfl
  have hreadBack : read back = .error (.malformedEdge ⟨.tooFew 2 1, "x \n".toList, 2, 3⟩) := by
    show (readEdgeList ("1".toList ++ '\n' :: back)).1 = _
    rw [readEdgeList_block hcount hn]
    rfl
  have happend := readEdgeList_append hcount hn hfront back
  dsimp only at happend
  change match read front with | .error f => _ | .ok (n₁, edges₁) => _ at happend
  rw [hreadFront] at happend
  obtain ⟨-, hboth⟩ := happend
  change match read back with | .error f => _ | .ok (n₂, edges₂) => _ at hboth
  rw [hreadBack] at hboth
  obtain ⟨e, he, hboth⟩ := hboth
  cases he
  exact ⟨hreadFront, hreadBack, hboth⟩

end EdgeDot
