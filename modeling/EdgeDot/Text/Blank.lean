import EdgeDot.Text.Basic

/-!
# Which characters separate words

Two classes: the characters up to the space, which separate the tokens of an edge list, and the
characters with the Unicode property White_Space, which separate words in general.

* `isSeparator_of_isLineEnd`  the characters that end a line are separators
* `isSeparator_eq_isBlank`    where the two classes agree
-/

namespace EdgeDot

/-- a character up to the space: blanks, tabs, line ends and the other control characters -/
def isSeparator (c : Char) : Bool := c ≤ ' '

def isLineEnd (c : Char) : Bool := c = '\n' || c = '\r'

/-- the characters with the property White_Space, as closed ranges of code points -/
def blankRanges : List (Nat × Nat) :=
  [(0x9, 0xD), (0x20, 0x20), (0x85, 0x85), (0xA0, 0xA0), (0x1680, 0x1680), (0x2000, 0x200A),
    (0x2028, 0x2029), (0x202F, 0x202F), (0x205F, 0x205F), (0x3000, 0x3000)]

def isBlank (c : Char) : Bool := blankRanges.any fun r => r.1 ≤ c.toNat && c.toNat ≤ r.2

theorem isSeparator_iff (c : Char) : isSeparator c = true ↔ c.toNat ≤ 0x20 := by
  simp only [isSeparator, decide_eq_true_eq, Char.le_def, UInt32.le_iff_toNat_le]
  exact Iff.rfl

theorem isSeparator_of_isLineEnd {c : Char} (h : isLineEnd c = true) : isSeparator c = true := by
  simp only [isLineEnd, Bool.or_eq_true, decide_eq_true_eq] at h
  rcases h with rfl | rfl <;> rfl

/-- among ASCII the blanks are the space and five control characters -/
theorem isBlank_iff_of_ascii {c : Char} (h : c.toNat < 0x80) :
    isBlank c = true ↔ c.toNat = 0x20 ∨ (9 ≤ c.toNat ∧ c.toNat ≤ 13) := by
  simp only [isBlank, blankRanges, List.any_cons, List.any_nil, Bool.or_false, Bool.or_eq_true,
    Bool.and_eq_true, decide_eq_true_eq]
  omega

/-- the two classes agree on a character that is neither another control character nor a blank
beyond ASCII -/
theorem isSeparator_eq_isBlank {c : Char}
    (low : c.toNat ≤ 0x20 → c.toNat = 0x20 ∨ (9 ≤ c.toNat ∧ c.toNat ≤ 13))
    (high : 0x80 ≤ c.toNat → isBlank c = false) : isSeparator c = isBlank c := by
  rw [Bool.eq_iff_iff, isSeparator_iff]
  by_cases ascii : c.toNat < 0x80
  · rw [isBlank_iff_of_ascii ascii]
    constructor
    · exact low
    · omega
  · rw [high (by omega)]
    simp
    omega

end EdgeDot
