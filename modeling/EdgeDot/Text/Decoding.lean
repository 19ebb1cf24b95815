import EdgeDot.Text.Basic

/-!
# Reading UTF-8

`Text.decode?` accepts the UTF-8 form of a text and nothing else: no overlong forms, no
surrogates, no character cut off at the end.

* `Text.decode?_encode`          reading undoes writing
* `Text.eq_encode_of_decode?`    only what writing produces is read
* `Text.decodeLossy_encode`      reading that replaces faults replaces nothing where there are none
-/

namespace EdgeDot.Text

/-- the text whose UTF-8 form is given, if there is one -/
def decode? (bytes : Bytes) : Option Text := bytes.toByteArray.utf8Decode?.map Array.toList

theorem decode?_encode (s : Text) : decode? (encode s) = some s := by
  have h : (encode s).toByteArray = s.utf8Encode := rfl
  simp [decode?, h, List.utf8Decode?_utf8Encode]

theorem eq_encode_of_decode? {bytes : Bytes} {s : Text} (h : decode? bytes = some s) :
    bytes = encode s := by
  obtain ⟨a, ha, rfl⟩ := Option.map_eq_some_iff.1 h
  have written := @ByteArray.utf8Encode_get_utf8Decode? bytes.toByteArray (by simp [ha])
  simp only [ha, Option.get_some] at written
  simpa [List.utf8Encode, encode] using (congrArg (fun b => b.data.toList) written).symm

theorem encode_injective {s t : Text} (h : encode s = encode t) : s = t := by
  have := decode?_encode s
  rw [h, decode?_encode] at this
  exact (Option.some.inj this).symm

/-! ## faults replaced -/

/-- what stands where bytes are no character -/
def replacement : Char := '\uFFFD'

/-- whether a byte may come second in a character of three or four bytes that begins with another -/
def mayFollow (lead second : UInt8) : Bool :=
  let range :=
    match lead.toNat with
    | 0xE0 => (0xA0, 0xBF)
    | 0xED => (0x80, 0x9F)
    | 0xF0 => (0x90, 0xBF)
    | 0xF4 => (0x80, 0x8F)
    | n => if 0xE1 ≤ n ∧ n ≤ 0xF3 then (0x80, 0xBF) else (1, 0)
  range.1 ≤ second.toNat && second.toNat ≤ range.2

/-- how many bytes are replaced together where no character begins: as many as one could begin
with, and at least one -/
def faultLength : Bytes → Nat
  | lead :: second :: later =>
    if !mayFollow lead second then 1
    else
      match later with
      | [] => 2
      | third :: _ =>
        if 0xF0 ≤ lead.toNat ∧ 0x80 ≤ third.toNat ∧ third.toNat ≤ 0xBF then 3 else 2
  | _ => 1

/-- the character that some bytes begin with; none has more than four -/
def firstChar? (bytes : Bytes) : Option Char := (bytes.take 4).toByteArray.utf8DecodeChar? 0

/-- the text of some bytes, with a replacement wherever they are not UTF-8 -/
def decodeLossy : Bytes → Text
  | [] => []
  | b :: later =>
    match firstChar? (b :: later) with
    | some c => c :: decodeLossy (later.drop (c.utf8Size - 1))
    | none => replacement :: decodeLossy (later.drop (faultLength (b :: later) - 1))
termination_by bytes => bytes.length
decreasing_by
  · rw [List.length_drop, List.length_cons]
    omega
  · rw [List.length_drop, List.length_cons]
    omega

theorem firstChar?_encode (c : Char) (s : Text) : firstChar? (encode (c :: s)) = some c := by
  have hsize := c.utf8Size_le_four
  have hlen : (String.utf8EncodeChar c).length ≤ 4 := by
    rwa [String.length_utf8EncodeChar]
  have hbytes : ((encode (c :: s)).take 4).toByteArray =
      [c].utf8Encode ++ ((encode s).take (4 - (String.utf8EncodeChar c).length)).toByteArray := by
    rw [encode_cons, List.take_append, List.take_of_length_le hlen, List.toByteArray_append,
      List.utf8Encode_singleton]
  rw [firstChar?, hbytes, List.utf8DecodeChar?_utf8Encode_singleton_append]

theorem drop_encode_cons (c : Char) (s : Text) : (encode (c :: s)).drop c.utf8Size = encode s := by
  rw [encode_cons]
  exact List.drop_left' (String.length_utf8EncodeChar c)

theorem decodeLossy_encode (s : Text) : decodeLossy (encode s) = s := by
  induction s with
  | nil => rw [encode_nil, decodeLossy]
  | cons c s ih =>
    have hfirst := firstChar?_encode c s
    have hlater := drop_encode_cons c s
    have hsize := c.utf8Size_pos
    cases hbytes : encode (c :: s) with
    | nil =>
      have hlen := length_encode (c :: s)
      rw [hbytes, byteLength_cons, List.length_nil] at hlen
      omega
    | cons b later =>
      rw [hbytes] at hfirst hlater
      have hdrop : later.drop (c.utf8Size - 1) = encode s := by
        rw [← hlater, ← List.drop_succ_cons (a := b)]
        congr 1
        omega
      rw [decodeLossy, hfirst]
      dsimp only
      rw [hdrop, ih]

end EdgeDot.Text
