import EdgeDot.Proofs.Text.AsciiClass
import EdgeDot.Proofs.Text.Positions
import EdgeDot.Proofs.Token.Listing

/-!
# A splitter of bytes

A text can be split into tokens by looking at its bytes only and slicing each token out of the
text.  The slices are between good positions wherever one starts from a good position, and the
splitter of bytes then does what `Splitter` does.

* `Splitter.On`             a splitter stands at a good position of a text
* `ByteSplitter.next_ofSplitter`   the next token, by bytes and by characters
* `ByteSplitter.streamMap`  hence the same records are read by bytes and by characters
-/

namespace EdgeDot

/-! ## passing over bytes -/

/-- the first position from the given one on whose byte is of another kind, or the end -/
def passOver (kind : UInt8 → Bool) (bytes : Bytes) (position : Nat) : Nat :=
  position + ((bytes.drop position).takeWhile kind).length

section
variable {p : UInt8 → Bool} {q : Char → Bool}
  (h : ∀ c, ∀ b ∈ String.utf8EncodeChar c, p b = q c)
include h

theorem takeWhile_encode (s : Text) : s.encode.takeWhile p = Text.encode (s.takeWhile q) := by
  induction s with
  | nil => rfl
  | cons c s ih =>
    rw [Text.encode_cons]
    cases hc : q c with
    | true =>
      have hall : ∀ b ∈ String.utf8EncodeChar c, p b = true := fun b hb => (h c b hb).trans hc
      rw [List.takeWhile_append_of_pos hall, ih, List.takeWhile_cons_of_pos hc, Text.encode_cons]
    | false =>
      obtain ⟨b, more, hbytes⟩ := List.exists_cons_of_ne_nil (String.utf8EncodeChar_ne_nil (c := c))
      have hb : ¬ p b = true := by
        rw [h c b (hbytes ▸ List.mem_cons_self), hc]
        exact Bool.false_ne_true
      have hc : ¬ q c = true := by
        rw [hc]
        exact Bool.false_ne_true
      rw [hbytes, List.cons_append, List.takeWhile_cons_of_neg hb, List.takeWhile_cons_of_neg hc]
      rfl

/-- bytes are passed over as characters are -/
theorem passOver_encode (before after : Text) :
    passOver p (before ++ after).encode before.byteLength =
      (before ++ after.takeWhile q).byteLength := by
  have hdrop : (before ++ after).encode.drop before.byteLength = after.encode := by
    rw [Text.encode_append, ← Text.length_encode, List.drop_left]
  rw [passOver, hdrop, takeWhile_encode h, Text.length_encode, Text.byteLength_append]

end

theorem isSeparatorByte_of_mem (c : Char) :
    ∀ b ∈ String.utf8EncodeChar c, isSeparatorByte b = isSeparator c :=
  separatorClass.eq_of_mem_utf8EncodeChar c

theorem not_isSeparatorByte_of_mem (c : Char) :
    ∀ b ∈ String.utf8EncodeChar c, (!isSeparatorByte b) = !isSeparator c :=
  fun b hb => congrArg _ (isSeparatorByte_of_mem c b hb)

/-! ## the splitter -/

/-- a text that is split into tokens by its bytes: the position reached, and whether every token
so far could be sliced out of the text -/
structure ByteSplitter where
  text : Text
  position : Nat
  legal : Bool := true

namespace ByteSplitter

def next (t : ByteSplitter) : Option Text × ByteSplitter :=
  let start := passOver isSeparatorByte t.text.encode t.position
  let stop := passOver (!isSeparatorByte ·) t.text.encode start
  if start = stop then (none, { t with position := stop })
  else
    match t.text.slice? start stop with
    | none => (none, { t with position := stop, legal := false })
    | some token => (some token, { t with position := stop })

instance : TokenStream ByteSplitter := ⟨next⟩

/-- the splitter of the bytes of a text at the place of another splitter -/
def ofSplitter (s : Text) (t : Splitter) : ByteSplitter := { text := s, position := t.position }

end ByteSplitter

/-- a splitter that has a part of a text left, and knows how much is before it -/
def Splitter.On (s : Text) (t : Splitter) : Prop :=
  ∃ before : Text, s = before ++ t.rest ∧ t.position = before.byteLength

namespace Splitter.On
variable {s : Text} {t : Splitter}

theorem ofText (s : Text) : (Splitter.ofText s).On s := ⟨[], rfl, rfl⟩

theorem isBoundary (h : t.On s) : s.isBoundary t.position = true := by
  obtain ⟨before, rfl, hpos⟩ := h
  rw [hpos]
  exact Text.isBoundary_append before t.rest

theorem next (h : t.On s) : t.next.2.On s := by
  obtain ⟨before, rfl, hpos⟩ := h
  let cut := Cut.of isSeparator t.rest
  refine ⟨before ++ (cut.gap ++ cut.token), ?_, ?_⟩
  · show _ = before ++ (cut.gap ++ cut.token) ++ cut.rest
    rw [List.append_assoc, List.append_assoc, Cut.append_eq]
  · show t.position + Text.byteLength cut.gap + Text.byteLength cut.token = _
    rw [hpos, Text.byteLength_append, Text.byteLength_append, Nat.add_assoc]

theorem at?_eq (h : t.On s) : Splitter.at? s t.position = some t := by
  obtain ⟨before, rfl, hpos⟩ := h
  rw [Splitter.at?, hpos, Text.dropBytes?_byteLength, ← hpos]
  rfl

end Splitter.On

namespace ByteSplitter
variable {s : Text} {t : Splitter}

/-- where the next token begins and ends, by bytes -/
theorem passOver_cut (before rest : Text) :
    let cut := Cut.of isSeparator rest
    passOver isSeparatorByte (before ++ rest).encode before.byteLength =
        before.byteLength + Text.byteLength cut.gap ∧
      passOver (!isSeparatorByte ·) (before ++ rest).encode
          (before.byteLength + Text.byteLength cut.gap) =
        before.byteLength + Text.byteLength cut.gap + Text.byteLength cut.token := by
  intro cut
  have hrest : cut.gap ++ rest.dropWhile isSeparator = rest := List.takeWhile_append_dropWhile
  have hstart := passOver_encode isSeparatorByte_of_mem before rest
  have hstop := passOver_encode not_isSeparatorByte_of_mem (before ++ cut.gap)
    (rest.dropWhile isSeparator)
  rw [List.append_assoc, hrest, Text.byteLength_append, Text.byteLength_append,
    Text.byteLength_append] at hstop
  rw [Text.byteLength_append] at hstart
  exact ⟨hstart, hstop⟩

/-- bytes are split where characters are, and every token can be sliced out of the text -/
theorem next_ofSplitter (h : t.On s) :
    (ofSplitter s t).next = (t.next.1, ofSplitter s t.next.2) := by
  obtain ⟨before, rfl, hpos⟩ := h
  let cut := Cut.of isSeparator t.rest
  obtain ⟨hstart, hstop⟩ := passOver_cut before t.rest
  have hnext : t.next = (cut.token?, ⟨before.byteLength + Text.byteLength cut.gap +
      Text.byteLength cut.token, cut.rest⟩) := by
    rw [← hpos]
    rfl
  rw [hnext, next, ofSplitter, hpos]
  dsimp only
  rw [hstart, hstop]
  by_cases hempty : cut.token = []
  · have hnone : cut.token? = none := by
      rw [Cut.token?, hempty]
      rfl
    have hlen : Text.byteLength cut.token = 0 := by rw [hempty, Text.byteLength_nil]
    rw [hnone, hlen, Nat.add_zero, if_pos rfl]
    rfl
  · have hsome : cut.token? = some cut.token := if_neg (by rwa [List.isEmpty_iff])
    have hne : before.byteLength + Text.byteLength cut.gap ≠
        before.byteLength + Text.byteLength cut.gap + Text.byteLength cut.token := by
      have := Text.byteLength_pos hempty
      omega
    have hslice := Text.slice?_append (before ++ cut.gap) cut.token cut.rest
    rw [List.append_assoc, Cut.append_eq, Text.byteLength_append] at hslice
    rw [hsome, if_neg hne, hslice]
    rfl

/-- from a good position of a text its bytes hand out the tokens that its characters do -/
theorem streamMap (s : Text) : StreamMap (Splitter.On s) (ofSplitter s) where
  keeps _ h := h.next
  next_map _ h := next_ofSplitter h

end ByteSplitter

end EdgeDot
