import EdgeDot.Line.Source
import EdgeDot.Proofs.Token.Runs

/-!
# Classes of ASCII characters and of bytes

In UTF-8 an ASCII character is one byte below `0x80`, and every byte of another character is
`0x80` or more.  A class of ASCII characters can therefore be looked for among the bytes of a text
as well as among its characters.

* `AsciiClass p q`           a byte is in `p` if and only if it is a character in `q`
* `AsciiClass.all_encode`, `AsciiClass.any_encode`   all or any of a text, by bytes or characters
* `AsciiClass.countP_encode` how many there are
* `AsciiClass.runs_encode`   the runs of the bytes are the runs of the characters
* `separatorClass`, `lineEndClass`, `lineFeedClass`   the classes that matter for edge lists
-/

namespace EdgeDot

/-! ## the bytes of a character -/

theorem utf8EncodeChar_of_lt {c : Char} (h : c.toNat < 0x80) :
    String.utf8EncodeChar c = [UInt8.ofNat c.toNat] := by
  have hv : c.val.toNat ≤ 0x7f := Nat.le_of_lt_succ h
  show (if c.val.toNat ≤ 0x7f then _ else _) = _
  rw [if_pos hv]
  rfl

theorem le_of_mem_utf8EncodeChar {c : Char} (h : 0x80 ≤ c.toNat) :
    ∀ b ∈ String.utf8EncodeChar c, 0x80 ≤ b.toNat := by
  have hv : ¬ c.val.toNat ≤ 0x7f := Nat.not_le.2 h
  intro b hb
  simp only [String.utf8EncodeChar, if_neg hv] at hb
  have lead : ∀ n m k : Nat, 0x80 ≤ k → n % m + k < 256 →
      0x80 ≤ (UInt8.ofNat (n % m + k)).toNat := by
    intro n m k hk hlt
    rw [UInt8.toNat_ofNat_of_lt' hlt]
    omega
  split at hb
  · simp only [List.mem_cons, List.not_mem_nil, or_false] at hb
    rcases hb with rfl | rfl <;> exact lead _ _ _ (by decide) (by omega)
  · split at hb
    · simp only [List.mem_cons, List.not_mem_nil, or_false] at hb
      rcases hb with rfl | rfl | rfl <;> exact lead _ _ _ (by decide) (by omega)
    · simp only [List.mem_cons, List.not_mem_nil, or_false] at hb
      rcases hb with rfl | rfl | rfl | rfl <;> exact lead _ _ _ (by decide) (by omega)

/-! ## classes -/

/-- a class of ASCII characters, as bytes and as characters -/
structure AsciiClass (p : UInt8 → Bool) (q : Char → Bool) : Prop where
  byte_lt : ∀ b, p b = true → b.toNat < 0x80
  char_lt : ∀ c, q c = true → c.toNat < 0x80
  agree : ∀ c, c.toNat < 0x80 → p (UInt8.ofNat c.toNat) = q c

namespace AsciiClass
variable {p : UInt8 → Bool} {q : Char → Bool} (h : AsciiClass p q)
include h

theorem encode_of_mem {c : Char} (hc : q c = true) :
    ∃ b, String.utf8EncodeChar c = [b] ∧ p b = true := by
  have hlt := h.char_lt c hc
  exact ⟨_, utf8EncodeChar_of_lt hlt, (h.agree c hlt).trans hc⟩

theorem not_mem_of_encode {c : Char} (hc : q c = false) :
    ∀ b ∈ String.utf8EncodeChar c, p b = false := by
  intro b hb
  by_cases hlt : c.toNat < 0x80
  · rw [utf8EncodeChar_of_lt hlt] at hb
    rw [List.mem_singleton.1 hb, h.agree c hlt, hc]
  · have hge := le_of_mem_utf8EncodeChar (Nat.not_lt.1 hlt) b hb
    refine Bool.eq_false_iff.2 fun hp => ?_
    have := h.byte_lt b hp
    omega

/-- all bytes of a character are of the class, or none is -/
theorem eq_of_mem_utf8EncodeChar (c : Char) : ∀ b ∈ String.utf8EncodeChar c, p b = q c := by
  intro b hb
  cases hc : q c with
  | true =>
    obtain ⟨b', hb', hp⟩ := h.encode_of_mem hc
    rw [hb'] at hb
    rw [List.mem_singleton.1 hb, hp]
  | false => exact h.not_mem_of_encode hc b hb

theorem all_utf8EncodeChar (c : Char) : (String.utf8EncodeChar c).all p = q c := by
  cases hc : q c with
  | true =>
    obtain ⟨b, hb, hp⟩ := h.encode_of_mem hc
    rw [hb, List.all_cons, hp]
    rfl
  | false =>
    obtain ⟨b, hb⟩ := List.exists_mem_of_ne_nil _ (String.utf8EncodeChar_ne_nil (c := c))
    refine Bool.eq_false_iff.2 fun hall => ?_
    rw [List.all_eq_true] at hall
    exact absurd (hall b hb) (by rw [h.not_mem_of_encode hc b hb]; decide)

theorem all_encode (s : Text) : s.encode.all p = s.all q := by
  induction s with
  | nil => rfl
  | cons c s ih => rw [Text.encode_cons, List.all_append, h.all_utf8EncodeChar, ih, List.all_cons]

theorem any_encode (s : Text) : s.encode.any p = s.any q := by
  induction s with
  | nil => rfl
  | cons c s ih =>
    have hc : (String.utf8EncodeChar c).any p = q c := by
      cases hc : q c with
      | true =>
        obtain ⟨b, hb, hp⟩ := h.encode_of_mem hc
        simp [hb, hp]
      | false => simpa using h.not_mem_of_encode hc
    rw [Text.encode_cons, List.any_append, hc, ih, List.any_cons]

theorem countP_encode (s : Text) : s.encode.countP p = s.countP q := by
  induction s with
  | nil => rfl
  | cons c s ih =>
    have hc : (String.utf8EncodeChar c).countP p = if q c = true then 1 else 0 := by
      cases hc : q c with
      | true =>
        obtain ⟨b, hb, hp⟩ := h.encode_of_mem hc
        rw [hb, List.countP_singleton, hp]
      | false =>
        rw [List.countP_eq_zero.2 fun b hb => by rw [h.not_mem_of_encode hc b hb]; decide]
        rfl
    rw [Text.encode_cons, List.countP_append, hc, ih, List.countP_cons, Nat.add_comm]

theorem splitOnP_encode (s : Text) : s.encode.splitOnP p = (s.splitOnP q).map Text.encode := by
  induction s with
  | nil =>
    show List.splitOnP p [] = (List.splitOnP q []).map Text.encode
    rw [List.splitOnP_nil, List.splitOnP_nil]
    rfl
  | cons c s ih =>
    rw [Text.encode_cons, List.splitOnP_cons_eq_if_modifyHead]
    cases hc : q c with
    | true =>
      obtain ⟨b, hb, hp⟩ := h.encode_of_mem hc
      rw [hb, List.singleton_append, List.splitOnP_cons_eq_if_modifyHead, hp, ih]
      rfl
    | false =>
      rw [splitOnP_append_of_not_mem (h.not_mem_of_encode hc), ih]
      cases s.splitOnP q <;> rfl

theorem runs_encode (s : Text) : runs p s.encode = (runs q s).map Text.encode := by
  have hempty : ∀ piece : Text, (!piece.encode.isEmpty) = !piece.isEmpty := by
    intro piece
    cases piece with
    | nil => rfl
    | cons c piece => simp [Text.encode_cons, String.utf8EncodeChar_ne_nil]
  unfold runs
  rw [h.splitOnP_encode, List.filter_map]
  exact congrArg (List.map Text.encode) (List.filter_congr fun piece _ => hempty piece)

end AsciiClass

/-! ## the classes of edge lists -/

/-- a byte that separates tokens -/
def isSeparatorByte (b : UInt8) : Bool := b.toNat ≤ 0x20

/-- a byte of the end of a line -/
def isLineEndByte (b : UInt8) : Bool := b = 0x0A || b = 0x0D

theorem separatorClass : AsciiClass isSeparatorByte isSeparator where
  byte_lt b hb := by
    have : b.toNat ≤ 0x20 := by simpa [isSeparatorByte] using hb
    omega
  char_lt c hc := by
    have := (isSeparator_iff c).1 hc
    omega
  agree c hc := by
    have hn : (UInt8.ofNat c.toNat).toNat = c.toNat :=
      UInt8.toNat_ofNat_of_lt' (show c.toNat < 256 by omega)
    rw [Bool.eq_iff_iff, isSeparator_iff, isSeparatorByte, hn, decide_eq_true_iff]

/-- a byte below `0x80` and the character of the same number -/
theorem ofNat_toNat_eq_iff {b : UInt8} {c d : Char} (hb : b.toNat = d.toNat)
    (hc : c.toNat < 0x80) : UInt8.ofNat c.toNat = b ↔ c = d := by
  have hn : (UInt8.ofNat c.toNat).toNat = c.toNat :=
    UInt8.toNat_ofNat_of_lt' (show c.toNat < 256 by omega)
  rw [← UInt8.toNat_inj, hn, hb, Char.toNat_inj]

theorem lineEndClass : AsciiClass isLineEndByte isLineEnd where
  byte_lt b hb := by
    simp only [isLineEndByte, Bool.or_eq_true, decide_eq_true_eq] at hb
    rcases hb with rfl | rfl <;> decide
  char_lt c hc := by
    simp only [isLineEnd, Bool.or_eq_true, decide_eq_true_eq] at hc
    rcases hc with rfl | rfl <;> decide
  agree c hc := by
    have hlf := ofNat_toNat_eq_iff (b := 0x0A) (d := '\n') rfl hc
    have hcr := ofNat_toNat_eq_iff (b := 0x0D) (d := '\r') rfl hc
    simp only [isLineEndByte, isLineEnd, hlf, hcr]

theorem lineFeedClass : AsciiClass (· = lineFeed) (· = '\n') where
  byte_lt b hb := by
    rw [of_decide_eq_true hb]
    decide
  char_lt c hc := by
    rw [of_decide_eq_true hc]
    decide
  agree c hc := decide_eq_decide.2 (ofNat_toNat_eq_iff rfl hc)

theorem lineFeed_mem_encode (s : Text) : lineFeed ∈ s.encode ↔ '\n' ∈ s := by
  have := lineFeedClass.any_encode s
  rw [Bool.eq_iff_iff] at this
  simpa using this

theorem count_lineFeed_encode (s : Text) : s.encode.count lineFeed = s.count '\n' :=
  lineFeedClass.countP_encode s

end EdgeDot
