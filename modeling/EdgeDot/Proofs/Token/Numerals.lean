import EdgeDot.Count

/-!
# Numerals of counts

A numeral is one or more digits behind an optional plus sign, and it stands for the value of its
digits, however many zeros are in front.  Reading it digit by digit with a bound refuses exactly
the values that are out of range, and the text in front of what is refused tells why.

* `Count.Numeral`     the numerals of a number
* `Count.Overruns`    texts whose digits leave the range before anything else
* `Count.Reads`, `Count.reads_readDigits`   what reading digit by digit comes to
* `Count.numeral_ofNat`   the ways to write a number
* `Count.Judged`, `Count.parse_eq_iff`      what is read as a count, and why something is not
-/

namespace EdgeDot.Count

/-- a numeral without its plus sign -/
def unsigned : Text → Text
  | '+' :: s => s
  | s => s

/-- the numerals of a number: a plus sign or none, then digits, at least one -/
structure Numeral (n : Nat) (s : Text) : Prop where
  nonempty : unsigned s ≠ []
  digits : ∀ c ∈ unsigned s, c.isDigit = true
  value : Nat.ofDigitChars 10 (unsigned s) 0 = n

/-- whether a text is the numeral of a count -/
def IsCount (s : Text) : Prop := ∃ n, Numeral n s ∧ n < limit

/-- whether the digits that a text begins with, or some first ones of them, have a value that is
no count; a plus sign may stand before them -/
def Overruns (s : Text) : Prop :=
  ∃ front, front <+: unsigned s ∧ (∀ c ∈ front, c.isDigit = true) ∧
    limit ≤ Nat.ofDigitChars 10 front 0

/-! ## values -/

/-- further digits make no value smaller -/
theorem le_ofDigitChars (s : Text) (n : Nat) : n ≤ Nat.ofDigitChars 10 s n := by
  induction s generalizing n with
  | nil => exact Nat.le_of_eq Nat.ofDigitChars_nil.symm
  | cons c s ih =>
    have hlater := ih (10 * n + (c.toNat - '0'.toNat))
    rw [Nat.ofDigitChars_cons]
    omega

theorem ofDigitChars_le_of_prefix {front s : Text} (h : front <+: s) (n : Nat) :
    Nat.ofDigitChars 10 front n ≤ Nat.ofDigitChars 10 s n := by
  obtain ⟨back, rfl⟩ := h
  rw [Nat.ofDigitChars_append]
  exact le_ofDigitChars back _

/-- a numeral whose digits leave the range is not one of a count -/
theorem Overruns.not_isCount {s : Text} (h : Overruns s) : ¬ IsCount s := by
  obtain ⟨front, hstart, -, hlarge⟩ := h
  rintro ⟨n, hn, hlt⟩
  have hle := ofDigitChars_le_of_prefix hstart 0
  rw [hn.value] at hle
  omega

/-- without digits nothing overruns -/
theorem Overruns.unsigned_ne_nil {s : Text} (h : Overruns s) : unsigned s ≠ [] := by
  obtain ⟨front, hstart, -, hlarge⟩ := h
  intro hempty
  rw [hempty, List.prefix_nil] at hstart
  rw [hstart, Nat.ofDigitChars_nil] at hlarge
  exact absurd hlarge (by decide)

theorem Overruns.ne_nil {s : Text} (h : Overruns s) : s ≠ [] := by
  rintro rfl
  exact h.unsigned_ne_nil rfl

theorem Numeral.ne_nil {n : Nat} {s : Text} (h : Numeral n s) : s ≠ [] := by
  rintro rfl
  exact h.nonempty rfl

/-! ## reading -/

theorem digit?_of_isDigit {c : Char} (h : c.isDigit = true) :
    digit? c = some (c.toNat - '0'.toNat) := if_pos h

theorem digit?_of_not_isDigit {c : Char} (h : c.isDigit = false) : digit? c = none :=
  if_neg (by rw [h]; exact Bool.false_ne_true)

/-- what reading digits behind those that gave `n` comes to -/
inductive Reads (n : Nat) (s : Text) : Except CountError Nat → Prop
  | value (digits : ∀ c ∈ s, c.isDigit = true) (fits : Nat.ofDigitChars 10 s n < limit) :
    Reads n s (.ok (Nat.ofDigitChars 10 s n))
  | tooLarge {front : Text} (start : front <+: s)
    (digits : ∀ c ∈ front, c.isDigit = true) (large : limit ≤ Nat.ofDigitChars 10 front n) :
    Reads n s (.error .tooLarge)
  | invalidDigit {front back : Text} {c : Char} (text : s = front ++ c :: back)
    (digits : ∀ c ∈ front, c.isDigit = true) (fits : Nat.ofDigitChars 10 front n < limit)
    (bad : c.isDigit = false) : Reads n s (.error .invalidDigit)

theorem reads_readDigits {n : Nat} (hn : n < limit) (s : Text) : Reads n s (readDigits n s) := by
  induction s generalizing n with
  | nil => exact .value (List.forall_mem_nil _) (by rwa [Nat.ofDigitChars_nil])
  | cons c s ih =>
    rw [readDigits]
    cases hc : c.isDigit with
    | false =>
      rw [digit?_of_not_isDigit hc]
      exact .invalidDigit (show c :: s = [] ++ c :: s from rfl) (List.forall_mem_nil _)
        (by rwa [Nat.ofDigitChars_nil]) hc
    | true =>
      rw [digit?_of_isDigit hc]
      dsimp only
      split
      next fits =>
        -- the digit goes in front of whatever decides later
        have hlater := ih fits
        generalize readDigits _ s = result at hlater
        cases hlater with
        | value digits fits' =>
          rw [← Nat.ofDigitChars_cons] at fits' ⊢
          exact .value (List.forall_mem_cons.2 ⟨hc, digits⟩) fits'
        | tooLarge hstart digits large =>
          rw [← Nat.ofDigitChars_cons] at large
          exact .tooLarge (List.cons_prefix_cons.2 ⟨rfl, hstart⟩)
            (List.forall_mem_cons.2 ⟨hc, digits⟩) large
        | invalidDigit text digits fits' bad =>
          rw [← Nat.ofDigitChars_cons] at fits'
          exact .invalidDigit (congrArg (c :: ·) text) (List.forall_mem_cons.2 ⟨hc, digits⟩) fits'
            bad
      next large =>
        have hfront : [c] <+: c :: s := List.cons_prefix_cons.2 ⟨rfl, List.nil_prefix⟩
        refine .tooLarge hfront (List.forall_mem_singleton.2 hc) ?_
        rw [Nat.ofDigitChars_cons, Nat.ofDigitChars_nil]
        exact Nat.not_lt.1 large

theorem unsigned_of_ne {c : Char} (h : c ≠ '+') (s : Text) : unsigned (c :: s) = c :: s := by
  unfold unsigned
  split
  next heq => exact absurd (List.cons.inj heq).1 h
  next => rfl

theorem parse_eq (s : Text) :
    parse s = if s = [] then .error .empty
      else if unsigned s = [] then .error .invalidDigit
      else readDigits 0 (unsigned s) := by
  cases s with
  | nil => rfl
  | cons c s =>
    rw [if_neg (List.cons_ne_nil c s)]
    by_cases hc : c = '+'
    · rw [hc]
      cases s <;> rfl
    · rw [unsigned_of_ne hc, if_neg (List.cons_ne_nil c s)]
      unfold parse
      split
      next heq => cases heq
      next heq => exact absurd (List.cons.inj heq).1 hc
      next heq => exact absurd (List.cons.inj heq).1 hc
      next => rfl

/-! ## how a number is written -/

/-- digits, and perhaps a plus sign in front, are a numeral of the value of the digits -/
theorem numeral_of_digits {sign s : Text} {n : Nat} (hsign : sign = [] ∨ sign = ['+'])
    (hne : s ≠ []) (hdigits : ∀ c ∈ s, c.isDigit = true) (hvalue : Nat.ofDigitChars 10 s 0 = n) :
    Numeral n (sign ++ s) := by
  have hunsigned : unsigned (sign ++ s) = s := by
    rcases hsign with rfl | rfl
    · cases s with
      | nil => exact absurd rfl hne
      | cons c s =>
        refine unsigned_of_ne ?_ s
        rintro rfl
        exact absurd (hdigits '+' List.mem_cons_self) (by decide)
    · rfl
  constructor <;> rw [hunsigned]
  · exact hne
  · exact hdigits
  · exact hvalue

/-- so are the decimal digits of a number behind any zeros -/
theorem numeral_ofNat {sign : Text} (hsign : sign = [] ∨ sign = ['+']) (zeros n : Nat) :
    Numeral n (sign ++ (List.replicate zeros '0' ++ Text.ofNat n)) := by
  have hvalue : Nat.ofDigitChars 10 (List.replicate zeros '0' ++ Text.ofNat n) 0 = n := by
    rw [Nat.ofDigitChars_append, Nat.ofDigitChars_replicate_zero, Nat.mul_zero]
    exact Nat.ofDigitChars_ten_toDigits
  have hne : List.replicate zeros '0' ++ Text.ofNat n ≠ [] :=
    List.append_ne_nil_of_right_ne_nil _ Nat.toDigits_ne_nil
  refine numeral_of_digits hsign hne ?_ hvalue
  rw [List.forall_mem_append]
  constructor
  · intro c hc
    rw [(List.mem_replicate.1 hc).2]
    rfl
  · intro c hc
    exact Nat.isDigit_of_mem_toDigits (by decide) (Nat.le_refl 10) hc

/-! ## what is read, and why something is not -/

/-- what becomes of a text that is read as a count -/
inductive Judged (s : Text) : Except CountError Nat → Prop
  | count {n : Nat} (numeral : Numeral n s) (fits : n < limit) : Judged s (.ok n)
  | empty (nothing : s = []) : Judged s (.error .empty)
  | tooLarge (overruns : Overruns s) : Judged s (.error .tooLarge)
  | invalidDigit (nonempty : s ≠ []) (no_count : ¬ IsCount s) (short : ¬ Overruns s) :
    Judged s (.error .invalidDigit)

/-- digits in front of a character that is none -/
theorem prefix_of_digits {front back digits : Text} {c : Char} (bad : c.isDigit = false)
    (hstart : digits <+: front ++ c :: back) (h : ∀ c ∈ digits, c.isDigit = true) :
    digits <+: front := by
  have hfront : front ++ [c] <+: front ++ c :: back := ⟨back, by simp⟩
  rcases List.prefix_or_prefix_of_prefix hstart hfront with hshort | hlong
  · rcases List.prefix_concat_iff.1 hshort with rfl | hle
    · rw [h c (List.mem_append_right _ List.mem_cons_self)] at bad
      cases bad
    · exact hle
  · rw [h c (hlong.subset (List.mem_append_right _ List.mem_cons_self))] at bad
    cases bad

theorem judged_parse (s : Text) : Judged s (parse s) := by
  rw [parse_eq]
  by_cases hnil : s = []
  · rw [if_pos hnil]
    exact .empty hnil
  rw [if_neg hnil]
  by_cases hempty : unsigned s = []
  · rw [if_pos hempty]
    exact .invalidDigit hnil (fun ⟨n, hn, _⟩ => hn.nonempty hempty)
      fun overruns => overruns.unsigned_ne_nil hempty
  · rw [if_neg hempty]
    have hreads := reads_readDigits (Nat.two_pow_pos 64) (unsigned s)
    generalize readDigits 0 (unsigned s) = result at hreads
    cases hreads with
    | value digits fits => exact .count ⟨hempty, digits, rfl⟩ fits
    | tooLarge hstart digits large => exact .tooLarge ⟨_, hstart, digits, large⟩
    | @invalidDigit front back c text digits fits bad =>
      refine .invalidDigit hnil ?_ ?_
      · rintro ⟨n, hn, -⟩
        have hc : c ∈ unsigned s := by
          rw [text]
          exact List.mem_append_right _ List.mem_cons_self
        rw [hn.digits c hc] at bad
        cases bad
      · rintro ⟨front', hstart, digits', large⟩
        rw [text] at hstart
        have hle := ofDigitChars_le_of_prefix (prefix_of_digits bad hstart digits') 0
        omega

theorem Judged.unique {s : Text} {result result' : Except CountError Nat} (h : Judged s result)
    (h' : Judged s result') : result = result' := by
  cases h with
  | count numeral fits =>
    cases h' with
    | count numeral' _ => rw [← numeral.value, ← numeral'.value]
    | empty nothing => exact absurd nothing numeral.ne_nil
    | tooLarge overruns => exact absurd ⟨_, numeral, fits⟩ overruns.not_isCount
    | invalidDigit _ no_count _ => exact absurd ⟨_, numeral, fits⟩ no_count
  | empty nothing =>
    cases h' with
    | count numeral _ => exact absurd nothing numeral.ne_nil
    | empty _ => rfl
    | tooLarge overruns => exact absurd nothing overruns.ne_nil
    | invalidDigit nonempty _ _ => exact absurd nothing nonempty
  | tooLarge overruns =>
    cases h' with
    | count numeral fits => exact absurd ⟨_, numeral, fits⟩ overruns.not_isCount
    | empty nothing => exact absurd nothing overruns.ne_nil
    | tooLarge _ => rfl
    | invalidDigit _ _ short => exact absurd overruns short
  | invalidDigit nonempty no_count short =>
    cases h' with
    | count numeral fits => exact absurd ⟨_, numeral, fits⟩ no_count
    | empty nothing => exact absurd nothing nonempty
    | tooLarge overruns => exact absurd overruns short
    | invalidDigit _ _ _ => rfl

theorem parse_eq_iff {s : Text} {result : Except CountError Nat} :
    parse s = result ↔ Judged s result :=
  ⟨fun h => h ▸ judged_parse s, fun h => (judged_parse s).unique h⟩

theorem parse_of_numeral {s : Text} {n : Nat} (h : Numeral n s) (hn : n < limit) :
    parse s = .ok n :=
  parse_eq_iff.2 (.count h hn)

/-- a bad digit is noticed behind a value that still fits, and an overrun in front of a bad digit -/
example : parse "18446744073709551615z".toList = .error .invalidDigit ∧
    parse "18446744073709551616z".toList = .error .tooLarge := ⟨rfl, rfl⟩

end EdgeDot.Count
