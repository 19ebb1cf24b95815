import EdgeDot.Text.Basic

/-!
# Positions in a text

A position is good if a character begins there or the text ends there.  Only between good positions
can a text be sliced; from any other position the way back leads to a good one.

* `Text.isBoundary_iff`     a good position has a prefix before it
* `Text.slice?_append`      what lies between two good positions
* `Text.stepBack?_eq`       the way back ends where `takeBytes` does, and never below zero
* `Text.exists_inside`      what is around a position that is not good
* `Text.dropBytes?_inside`  no text can be taken up there
-/

namespace EdgeDot.Text

/-! ## good positions -/

/-- whether a character of a text begins at a byte position, or the text ends there -/
def isBoundary (s : Text) (n : Nat) : Bool := byteLength (takeBytes s n) = n

theorem byteLength_pos {s : Text} (h : s ≠ []) : 0 < s.byteLength := by
  cases s with
  | nil => exact absurd rfl h
  | cons c s =>
    have := c.utf8Size_pos
    rw [byteLength_cons]
    omega

theorem takeBytes_zero (s : Text) : takeBytes s 0 = [] := by
  cases s with
  | nil => rfl
  | cons c s => exact if_neg (Nat.not_le.2 c.utf8Size_pos)

theorem takeBytes_append (s t : Text) : takeBytes (s ++ t) (byteLength s) = s := by
  induction s with
  | nil => exact takeBytes_zero t
  | cons c s ih =>
    rw [List.cons_append, byteLength_cons, takeBytes, if_pos (Nat.le_add_right _ _),
      Nat.add_sub_cancel_left, ih]

/-- a bound inside a character takes nothing of it -/
theorem takeBytes_inside (s t : Text) {c : Char} {n : Nat} (h : n < c.utf8Size) :
    takeBytes (s ++ c :: t) (byteLength s + n) = s := by
  induction s with
  | nil =>
    rw [byteLength_nil, Nat.zero_add]
    exact if_neg (Nat.not_le.2 h)
  | cons d s ih =>
    rw [List.cons_append, byteLength_cons, Nat.add_assoc, takeBytes,
      if_pos (Nat.le_add_right _ _), Nat.add_sub_cancel_left, ih]

theorem isBoundary_append (s t : Text) : (s ++ t).isBoundary (byteLength s) = true := by
  rw [isBoundary, takeBytes_append]
  exact decide_eq_true rfl

theorem isBoundary_iff {s : Text} {n : Nat} :
    s.isBoundary n = true ↔ ∃ before after, s = before ++ after ∧ before.byteLength = n := by
  constructor
  · intro h
    obtain ⟨after, hs⟩ := takeBytes_prefix s n
    exact ⟨_, after, hs.symm, of_decide_eq_true h⟩
  · rintro ⟨before, after, rfl, rfl⟩
    exact isBoundary_append before after

example : isBoundary ['a', 'é', 'b'] 2 = false := by decide

theorem isBoundary_zero (s : Text) : s.isBoundary 0 = true := isBoundary_append [] s

/-- a good position is at most the end of the text -/
theorem le_byteLength_of_isBoundary {s : Text} {n : Nat} (h : s.isBoundary n = true) :
    n ≤ s.byteLength := by
  obtain ⟨before, after, rfl, rfl⟩ := isBoundary_iff.1 h
  rw [byteLength_append]
  exact Nat.le_add_right _ _

theorem isBoundary_takeBytes (s : Text) (n : Nat) :
    s.isBoundary (takeBytes s n).byteLength = true := by
  obtain ⟨after, hs⟩ := takeBytes_prefix s n
  exact isBoundary_iff.2 ⟨_, after, hs.symm, rfl⟩

/-! ## inside a character -/

/-- a position short of the end that is not good is inside a character -/
theorem exists_inside {s : Text} {n : Nat} (h : s.isBoundary n = false) (hn : n < s.byteLength) :
    ∃ (before after : Text) (c : Char) (k : Nat), s = before ++ c :: after ∧
      n = before.byteLength + k ∧ 0 < k ∧ k < c.utf8Size := by
  induction s generalizing n with
  | nil => cases hn
  | cons c s ih =>
    by_cases hc : c.utf8Size ≤ n
    · have hlater : isBoundary s (n - c.utf8Size) = false := by
        rw [← h]
        unfold isBoundary
        rw [takeBytes, if_pos hc, byteLength_cons]
        exact decide_eq_decide.2 (by omega)
      rw [byteLength_cons] at hn
      obtain ⟨before, after, d, k, rfl, hk, hpos, hlt⟩ := ih hlater (by omega)
      refine ⟨c :: before, after, d, k, rfl, ?_, hpos, hlt⟩
      rw [byteLength_cons]
      omega
    · have hne : n ≠ 0 := by
        rintro rfl
        rw [isBoundary_zero] at h
        cases h
      exact ⟨[], s, c, n, rfl, (Nat.zero_add n).symm, Nat.pos_of_ne_zero hne, Nat.not_le.1 hc⟩

/-- nothing is left past the end -/
theorem dropBytes?_of_le {s : Text} {n : Nat} (h : s.byteLength ≤ n) : dropBytes? s n = some [] := by
  have hadd := dropBytes?_append_add s [] (n - s.byteLength)
  rw [List.append_nil, Nat.add_sub_cancel' h, dropBytes?_nil] at hadd
  exact hadd

/-- no text can be taken up inside a character -/
theorem dropBytes?_inside (s t : Text) {c : Char} {k : Nat} (hpos : 0 < k) (hk : k < c.utf8Size) :
    dropBytes? (s ++ c :: t) (byteLength s + k) = none := by
  rw [dropBytes?_append_add]
  cases k with
  | zero => exact absurd hpos (Nat.lt_irrefl 0)
  | succ k => rw [dropBytes?, if_neg (Nat.not_le.2 hk)]

/-! ## slices -/

/-- the part of a text between two positions, if these are good and in order -/
def slice? (s : Text) (start stop : Nat) : Option Text :=
  if start ≤ stop ∧ s.isBoundary start = true ∧ s.isBoundary stop = true then
    some ((takeBytes s stop).drop (takeBytes s start).length)
  else none

theorem slice?_append (before middle after : Text) :
    slice? (before ++ (middle ++ after)) (byteLength before)
      (byteLength before + byteLength middle) = some middle := by
  have hstop := isBoundary_append (before ++ middle) after
  have htake := takeBytes_append (before ++ middle) after
  rw [List.append_assoc, byteLength_append] at hstop htake
  rw [slice?, if_pos ⟨Nat.le_add_right _ _, isBoundary_append _ _, hstop⟩, htake, takeBytes_append,
    List.drop_left]

theorem isBoundary_of_slice? {s token : Text} {start stop : Nat}
    (h : s.slice? start stop = some token) :
    s.isBoundary start = true ∧ s.isBoundary stop = true := by
  rw [slice?] at h
  split at h
  next hgood => exact hgood.2
  next => cases h

/-! ## the way back -/

/-- the first good position on the way back from a position; none if the way leads below zero -/
def stepBack? (s : Text) : Nat → Option Nat
  | 0 => if s.isBoundary 0 then some 0 else none
  | n + 1 => if s.isBoundary (n + 1) then some (n + 1) else stepBack? s n

/-- a bound that leaves room for what was taken makes no difference -/
theorem takeBytes_of_le {s : Text} {n m : Nat} (h : byteLength (takeBytes s n) ≤ m) (hm : m ≤ n) :
    takeBytes s m = takeBytes s n := by
  induction s generalizing n m with
  | nil => rfl
  | cons c s ih =>
    by_cases hn : c.utf8Size ≤ n
    · have htake : takeBytes (c :: s) n = c :: takeBytes s (n - c.utf8Size) := if_pos hn
      rw [htake, byteLength_cons] at h
      have hc : c.utf8Size ≤ m := by omega
      have htail : (takeBytes s (n - c.utf8Size)).byteLength ≤ m - c.utf8Size := by omega
      rw [htake, takeBytes, if_pos hc, ih htail (Nat.sub_le_sub_right hm _)]
    · have hm : ¬ c.utf8Size ≤ m := by omega
      rw [takeBytes, if_neg hm, takeBytes, if_neg hn]

theorem stepBack?_eq (s : Text) (n : Nat) : stepBack? s n = some (takeBytes s n).byteLength := by
  induction n with
  | zero =>
    rw [stepBack?, if_pos s.isBoundary_zero, takeBytes_zero]
    rfl
  | succ n ih =>
    rw [stepBack?]
    by_cases h : s.isBoundary (n + 1) = true
    · have hlen : (takeBytes s (n + 1)).byteLength = n + 1 := of_decide_eq_true h
      rw [if_pos h, hlen]
    · have hle := byteLength_takeBytes_le s (n + 1)
      have hne : (takeBytes s (n + 1)).byteLength ≠ n + 1 := fun hlen => h (decide_eq_true hlen)
      have hroom : (takeBytes s (n + 1)).byteLength ≤ n := by omega
      rw [if_neg h, ih, takeBytes_of_le hroom (Nat.le_succ n)]

end EdgeDot.Text
