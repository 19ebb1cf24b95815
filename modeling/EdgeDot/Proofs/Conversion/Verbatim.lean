import EdgeDot.Proofs.Conversion.Outcome
import EdgeDot.Proofs.Dot.Copies

/-!
# What copied names give away

A reader never lets a separator into a name.  A conversion that succeeds and copies its names has
therefore written each edge as a line of its own, with two spaces, and its output determines the
edges that were read, whatever they and the digraph are called.

* `LineReader.edgesLeft`             the edges behind the count
* `LineReader.isTight_of_mem_edgesLeft`   they are without separators
* `convert_verbatim_output`          what is written
* `convert_verbatim_read_back`       two conversions write the same if and only if they read the same
-/

namespace EdgeDot

open Dot

/-- the first two tokens of each line that has two, behind the next line; a reader that has read
nothing yet has the count in that one -/
def LineReader.edgesLeft (r : LineReader) : List Edge :=
  r.source.lines.tail.filterMap EdgeLine.edge?

theorem EdgeLine.isTight_of_edge? {line : Bytes} {e : Edge} (h : edge? line = some e) :
    e.IsTight := by
  obtain ⟨hsource, htarget⟩ := mem_lineTokens_of_edge? h
  exact ⟨not_separates_of_mem_lineTokens hsource, not_separates_of_mem_lineTokens htarget⟩

theorem LineReader.isTight_of_mem_edgesLeft {r : LineReader} :
    ∀ e ∈ r.edgesLeft, e.IsTight := by
  intro e he
  obtain ⟨line, -, hline⟩ := List.mem_filterMap.1 he
  exact EdgeLine.isTight_of_edge? hline

theorem lt_of_not_separates {bytes : Bytes} (h : ∀ b ∈ bytes, isSeparatorByte b = false) :
    ∀ b ∈ bytes, 0x20 < b.toNat := by
  intro b hb
  have hsep := h b hb
  rw [isSeparatorByte, decide_eq_false_iff_not] at hsep
  exact Nat.not_le.1 hsep

section
variable {name : Text} {counting : Counting} {r : LineReader} {totals : Totals}

theorem convert_verbatim_output
    (h : (convert name ⟨counting, .verbatim⟩ r .unlimited).result = .ok totals) :
    (convert name ⟨counting, .verbatim⟩ r .unlimited).sink.output =
      (document .verbatim name r.edgesLeft).encode := by
  obtain ⟨hedges, -, -, -, hout⟩ := convert_eq_ok h
  rw [hout, hedges]
  rfl

theorem readBack?_convert_verbatim
    (h : (convert name ⟨counting, .verbatim⟩ r .unlimited).result = .ok totals) :
    Copies.readBack? name (convert name ⟨counting, .verbatim⟩ r .unlimited).sink.output =
      some r.edgesLeft := by
  rw [convert_verbatim_output h]
  exact Copies.readBack?_encode name LineReader.isTight_of_mem_edgesLeft

end

/-- Two conversions that succeed and copy their names write the same if and only if they have read
the same edges.  Behind the header each edge is one line, a closing brace is the last one, and no
name holds a byte up to the space: the two spaces of a line tell its names apart, so the edges are
read back from the output. -/
theorem convert_verbatim_read_back {name : Text} {r r' : LineReader} {totals totals' : Totals}
    (h : (convert name ⟨.lenient, .verbatim⟩ r .unlimited).result = .ok totals)
    (h' : (convert name ⟨.lenient, .verbatim⟩ r' .unlimited).result = .ok totals') :
    let output := (convert name ⟨.lenient, .verbatim⟩ r .unlimited).sink.output
    let output' := (convert name ⟨.lenient, .verbatim⟩ r' .unlimited).sink.output
    (output = output' ↔ r.edgesLeft = r'.edgesLeft) ∧
    (∃ body, output = (header .verbatim name).encode ++ body ∧
      splitLines body = r.edgesLeft.map Copies.line ++ [[0x7D, 0x0A]]) ∧
    [0x7D, 0x0A] <:+ output ∧
    (∀ e ∈ r.edgesLeft,
      Copies.line e = [0x09] ++ e.source.encode ++ [0x20, 0x2D, 0x3E, 0x20] ++ e.target.encode ++
        [0x3B, 0x0A] ∧
      (∀ b ∈ e.source.encode, 0x20 < b.toNat) ∧ (∀ b ∈ e.target.encode, 0x20 < b.toNat) ∧
      (Copies.line e).splitOn 0x20 =
        [0x09 :: e.source.encode, [0x2D, 0x3E], e.target.encode ++ [0x3B, 0x0A]] ∧
      Copies.edgeOfLine? (Copies.line e) = some e) ∧
    Copies.readBack? name output = some r.edgesLeft := by
  intro output output'
  have hread : Copies.readBack? name output = some r.edgesLeft := readBack?_convert_verbatim h
  have hread' : Copies.readBack? name output' = some r'.edgesLeft := readBack?_convert_verbatim h'
  have hout : output = (header .verbatim name).encode ++
      (r.edgesLeft.flatMap Copies.line ++ Copies.lastLine) := by
    rw [← Copies.encode_document]
    exact convert_verbatim_output h
  refine ⟨⟨?_, ?_⟩, ⟨_, hout, Copies.splitLines_body LineReader.isTight_of_mem_edgesLeft⟩, ?_, ?_,
    hread⟩
  · intro heq
    rw [heq, hread'] at hread
    exact (Option.some.inj hread).symm
  · intro heq
    show (convert name _ r .unlimited).sink.output = (convert name _ r' .unlimited).sink.output
    rw [convert_verbatim_output h, convert_verbatim_output h', heq]
  · rw [hout, ← List.append_assoc]
    exact List.suffix_append _ _
  · intro e he
    have htight := LineReader.isTight_of_mem_edgesLeft e he
    refine ⟨?_, lt_of_not_separates htight.1, lt_of_not_separates htight.2,
      Copies.splitOn_line htight, Copies.edgeOfLine?_line htight⟩
    simp [Copies.line, Copies.tab, Copies.space, Copies.arrow, Copies.close, lineFeed]

/-- names that look like punctuation, in a digraph whose name ends its line: two lists that are laid
out and counted differently are written the same -/
theorem convert_verbatim_read_back_punctuation :
    let name := "a \x7b\n".toList
    let r := LineReader.ofText "2\n-> ;\n\x7d \x7d;\n".toList
    let r' := LineReader.ofText "7\n\n ->\t;  -> more\r\n\x7d\t\x7d;".toList
    (convert name ⟨.lenient, .verbatim⟩ r .unlimited).result = .ok ⟨2, 2⟩ ∧
    (convert name ⟨.lenient, .verbatim⟩ r' .unlimited).result = .ok ⟨7, 2⟩ ∧
    r.edgesLeft = [⟨"->".toList, ";".toList⟩, ⟨"\x7d".toList, "\x7d;".toList⟩] ∧
    (convert name ⟨.lenient, .verbatim⟩ r .unlimited).sink.output =
      (convert name ⟨.lenient, .verbatim⟩ r' .unlimited).sink.output := by
  intro name r r'
  have h : (convert name ⟨.lenient, .verbatim⟩ r .unlimited).result = .ok ⟨2, 2⟩ := by
    decide +kernel
  have h' : (convert name ⟨.lenient, .verbatim⟩ r' .unlimited).result = .ok ⟨7, 2⟩ := by
    decide +kernel
  have hedges : r.edgesLeft = [⟨"->".toList, ";".toList⟩, ⟨"\x7d".toList, "\x7d;".toList⟩] := by
    decide +kernel
  have hedges' : r'.edgesLeft = r.edgesLeft := by decide +kernel
  exact ⟨h, h', hedges, (convert_verbatim_read_back h h').1.2 hedges'.symm⟩

end EdgeDot
