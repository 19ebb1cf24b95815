import EdgeDot.Proofs.Dot.RoundTrip
import EdgeDot.Proofs.Line.Broken

/-!
# Lines of texts

A text is some lines and what is left behind its last line feed, and so are its bytes.  A text that
ends with a line feed is lines and nothing else.

* `splitLines_encode_last`, `splitLines_encode_line`   the first line of a text
* `lineFeed_not_mem_dropLast_of_encode`   a line of bytes, as a text
* `HasLines`         a text in lines, and `Text.exists_lines` that each text is
* `exists_texts`     the lines of a text are texts
* `exists_flatten`   a text that ends with a line feed
-/

namespace EdgeDot

open Dot Document

/-! ## the first line -/

variable {s : Text}

theorem Text.encode_ne_nil (h : s ≠ []) : s.encode ≠ [] :=
  fun hnil => h (encode_injective (hnil.trans encode_nil.symm))

theorem splitLines_encode_last (hne : s ≠ []) (h : '\n' ∉ s) : splitLines s.encode = [s.encode] :=
  splitLines_of_not_mem (Text.encode_ne_nil hne) (mt (lineFeed_mem_encode s).1 h)

theorem splitLines_encode_line (h : '\n' ∉ s) (rest : Text) :
    splitLines (Text.encode (s ++ '\n' :: rest)) =
      Text.encode (s ++ ['\n']) :: splitLines rest.encode := by
  have hline : IsLine (s ++ ['\n']) := ⟨s, rfl, h⟩
  rw [← splitLines_line hline, ← Text.encode_append, List.append_assoc]
  rfl

/-- a line feed that stands at the end of the bytes only, stands at the end of the text only -/
theorem lineFeed_not_mem_dropLast_of_encode (h : lineFeed ∉ s.encode.dropLast) :
    '\n' ∉ s.dropLast := by
  intro hmem
  have hne : s ≠ [] := by
    rintro rfl
    cases hmem
  have hlast : Text.encode [s.getLast hne] ≠ [] := Text.encode_ne_nil (List.cons_ne_nil _ _)
  have hbytes : s.encode = Text.encode s.dropLast ++ Text.encode [s.getLast hne] := by
    rw [← Text.encode_append, List.dropLast_concat_getLast]
  rw [hbytes, List.dropLast_append_of_ne_nil hlast] at h
  exact h (List.mem_append_left _ ((lineFeed_mem_encode _).2 hmem))

/-! ## all lines -/

/-- a text in lines: they come first, and what is left has no line feed -/
structure HasLines (s : Text) (lines : List Text) (last : Text) : Prop where
  text : s = lines.flatten ++ last
  lines : ∀ line ∈ lines, IsLine line
  last : '\n' ∉ last

theorem Text.exists_lines (s : Text) : ∃ lines last, HasLines s lines last := by
  induction s with
  | nil => exact ⟨[], [], rfl, nofun, nofun⟩
  | cons c s ih =>
    obtain ⟨lines, last, rfl, hlines, hlast⟩ := ih
    by_cases hc : c = '\n'
    · have hline : IsLine [c] := ⟨[], congrArg (fun c => [c]) hc, nofun⟩
      exact ⟨[c] :: lines, last, rfl, List.forall_mem_cons.2 ⟨hline, hlines⟩, hlast⟩
    · -- the character goes in front of the first line, or of what is left
      have hfront : ∀ {s : Text}, '\n' ∉ s → '\n' ∉ c :: s :=
        List.not_mem_cons_of_ne_of_not_mem (Ne.symm hc)
      cases lines with
      | nil => exact ⟨[], c :: last, rfl, nofun, hfront hlast⟩
      | cons line lines =>
        obtain ⟨⟨body, rfl, hbody⟩, hlater⟩ := List.forall_mem_cons.1 hlines
        have hline : IsLine (c :: body ++ ['\n']) := ⟨c :: body, rfl, hfront hbody⟩
        exact ⟨_ :: lines, last, rfl, List.forall_mem_cons.2 ⟨hline, hlater⟩, hlast⟩

/-- the lines of a text are texts -/
theorem exists_texts (s : Text) :
    ∃ texts : List Text, splitLines s.encode = texts.map Text.encode := by
  obtain ⟨lines, last, rfl, hlines, hlast⟩ := s.exists_lines
  rw [Text.encode_append, splitLines_lines hlines]
  by_cases hne : last = []
  · exact ⟨lines, by rw [hne, Text.encode_nil, splitLines_nil, List.append_nil]⟩
  · exact ⟨lines ++ [last], by rw [splitLines_encode_last hne hlast, List.map_append]; rfl⟩

/-- a text that is empty or ends with a line feed is lines and nothing else -/
theorem exists_flatten (h : s = [] ∨ s.getLast? = some '\n') :
    ∃ lines : List Text, s = lines.flatten ∧ ∀ line ∈ lines, IsLine line := by
  obtain ⟨lines, last, rfl, hlines, hlast⟩ := s.exists_lines
  have hempty : last = [] := by
    rcases List.eq_nil_or_concat last with hnil | ⟨front, c, rfl⟩
    · exact hnil
    · rw [List.concat_eq_append] at h hlast
      rcases h with hnil | hend
      · exact absurd (List.append_eq_nil_iff.1 hnil).2 (List.append_ne_nil_of_right_ne_nil _ nofun)
      · rw [← List.append_assoc, List.getLast?_concat, Option.some.injEq] at hend
        exact absurd (List.mem_append_right _ (List.mem_singleton.2 hend.symm)) hlast
  exact ⟨lines, by rw [hempty, List.append_nil], hlines⟩

theorem isComplete_of_isLine (h : IsLine s) : isComplete s.encode = true := by
  obtain ⟨body, rfl, -⟩ := h
  rw [Text.encode_append]
  exact isComplete_concat body.encode

end EdgeDot
