/-!
# Texts and their bytes

A text is a list of characters.  Every position in it counts the bytes of its UTF-8 form, so a
position may fall inside a character: `Text.dropBytes?` refuses such a position and
`Text.takeBytes` steps back to the character's start.

* `Text.length_encode`           the byte length is the length of the UTF-8 form
* `Text.encode_append`           writing one text after the other writes their concatenation
* `Text.dropBytes?_byteLength`   a text can be resumed after each of its prefixes
* `Text.byteLength_takeBytes_le` what is taken fits the bound
-/

namespace EdgeDot

abbrev Text := List Char

abbrev Bytes := List UInt8

namespace Text

/-! ## UTF-8 -/

/-- the number of bytes of a text in UTF-8 -/
def byteLength : Text → Nat
  | [] => 0
  | c :: s => c.utf8Size + byteLength s

def encode (s : Text) : Bytes := s.flatMap String.utf8EncodeChar

theorem byteLength_nil : byteLength [] = 0 := rfl
theorem byteLength_cons (c : Char) (s : Text) :
    byteLength (c :: s) = c.utf8Size + byteLength s := rfl
theorem byteLength_append (s t : Text) : byteLength (s ++ t) = byteLength s + byteLength t := by
  induction s with
  | nil => rw [List.nil_append, byteLength_nil, Nat.zero_add]
  | cons c s ih => rw [List.cons_append, byteLength_cons, byteLength_cons, ih, Nat.add_assoc]

theorem encode_nil : encode [] = [] := rfl
theorem encode_cons (c : Char) (s : Text) :
    encode (c :: s) = String.utf8EncodeChar c ++ encode s := rfl
theorem encode_append (s t : Text) : encode (s ++ t) = encode s ++ encode t := by
  simp [encode]

theorem length_encode (s : Text) : (encode s).length = byteLength s := by
  induction s with
  | nil => rfl
  | cons c s ih => simp [encode_cons, byteLength_cons, ih]

/-! ## positions -/

/-- the text from byte `n` on: nothing is left past the end, and no answer inside a character -/
def dropBytes? : Text → Nat → Option Text
  | s, 0 => some s
  | [], _ + 1 => some []
  | c :: s, n + 1 => if c.utf8Size ≤ n + 1 then dropBytes? s (n + 1 - c.utf8Size) else none

/-- the longest prefix of at most `n` bytes that ends where a character ends -/
def takeBytes : Text → Nat → Text
  | [], _ => []
  | c :: s, n => if c.utf8Size ≤ n then c :: takeBytes s (n - c.utf8Size) else []

theorem dropBytes?_zero (s : Text) : dropBytes? s 0 = some s := by
  cases s <;> rfl

theorem dropBytes?_nil (n : Nat) : dropBytes? [] n = some [] := by
  cases n <;> rfl

/-- behind a prefix a text is taken up as what follows it is -/
theorem dropBytes?_append_add (s t : Text) (n : Nat) :
    dropBytes? (s ++ t) (byteLength s + n) = dropBytes? t n := by
  induction s with
  | nil => rw [List.nil_append, byteLength_nil, Nat.zero_add]
  | cons c s ih =>
    have hc := c.utf8Size_pos
    obtain ⟨m, hm⟩ : ∃ m, c.utf8Size + byteLength s + n = m + 1 :=
      ⟨c.utf8Size + byteLength s + n - 1, by omega⟩
    have hsub : m + 1 - c.utf8Size = byteLength s + n := by omega
    rw [List.cons_append, byteLength_cons, hm, dropBytes?, if_pos (by omega), hsub, ih]

theorem dropBytes?_byteLength (s t : Text) : dropBytes? (s ++ t) (byteLength s) = some t := by
  have hadd := dropBytes?_append_add s t 0
  rwa [Nat.add_zero, dropBytes?_zero] at hadd

theorem takeBytes_prefix (s : Text) (n : Nat) : takeBytes s n <+: s := by
  induction s generalizing n with
  | nil => exact List.nil_prefix
  | cons c s ih =>
    rw [takeBytes]
    split
    · exact List.cons_prefix_cons.2 ⟨rfl, ih _⟩
    · exact List.nil_prefix

theorem byteLength_takeBytes_le (s : Text) (n : Nat) : byteLength (takeBytes s n) ≤ n := by
  induction s generalizing n with
  | nil => exact Nat.zero_le n
  | cons c s ih =>
    rw [takeBytes]
    split
    next h =>
      have := ih (n - c.utf8Size)
      rw [byteLength_cons]
      omega
    next h => exact Nat.zero_le n

/-! ## numbers -/

/-- a number in decimal digits, without leading zeros -/
def ofNat (n : Nat) : Text := Nat.toDigits 10 n

end Text

end EdgeDot
