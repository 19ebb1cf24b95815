import Mathlib.Algebra.Ring.Parity
import Mathlib.Computability.Language
import EdgeDot.Proofs.Dot.Quoting
import EdgeDot.Proofs.Dot.RoundTrip

/-!
# Names without quotes

The names that DOT takes without quotes, as regular expressions over characters and bytes, and what
is between the quotes of all the others.  Between quotes each backslash comes with a partner, so in
front of a quote the run of backslashes is odd inside a name and even at its end.

* `numerals`, `mem_numerals_iff`     `-?(\.[0-9]+|[0-9]+(\.[0-9]*)?)`
* `words`, `encode_mem_words_iff`    `[A-Za-z_\x80-\xff][A-Za-z0-9_\x80-\xff]*`
* `Reserved`, `isKeyword_iff`        the reserved words in any case of letters
* `odd_backslashes`, `even_backslashes`   backslashes in front of quotes
* `betweenQuotes_quote`              what is between quotes
* `render_quoted_bare_iff`           which names are written without quotes, and the others
-/

namespace EdgeDot.Dot

open scoped Computability
open Lexeme

/-! ## regular expressions -/

section
variable {α : Type}

/-- one character of a class -/
def oneOf (p : α → Prop) : Language α := {w | ∃ a, w = [a] ∧ p a}

variable {p : α → Prop} {w : List α}

theorem mem_oneOf_kstar : w ∈ (oneOf p)∗ ↔ ∀ a ∈ w, p a := by
  rw [Language.mem_kstar]
  constructor
  · rintro ⟨parts, rfl, hparts⟩ a ha
    obtain ⟨part, hpart, ha⟩ := List.mem_flatten.1 ha
    obtain ⟨b, rfl, hb⟩ := hparts part hpart
    rwa [List.mem_singleton.1 ha]
  · intro hw
    refine ⟨w.map fun a => [a], ?_, fun part hpart => ?_⟩
    · induction w with
      | nil => rfl
      | cons a w ih =>
        rw [List.map_cons, List.flatten_cons, ← ih (List.forall_mem_cons.1 hw).2]
        rfl
    · obtain ⟨a, ha, rfl⟩ := List.mem_map.1 hpart
      exact ⟨a, rfl, hw a ha⟩

theorem mem_oneOf_mul {l : Language α} : w ∈ oneOf p * l ↔ ∃ a v, w = a :: v ∧ p a ∧ v ∈ l := by
  rw [Language.mem_mul]
  constructor
  · rintro ⟨_, ⟨a, rfl, ha⟩, v, hv, rfl⟩
    exact ⟨a, v, rfl, ha, hv⟩
  · rintro ⟨a, v, rfl, ha, hv⟩
    exact ⟨[a], ⟨a, rfl, ha⟩, v, hv, rfl⟩

/-- `p+` -/
theorem mem_oneOf_mul_kstar : w ∈ oneOf p * (oneOf p)∗ ↔ w ≠ [] ∧ ∀ a ∈ w, p a := by
  rw [mem_oneOf_mul]
  constructor
  · rintro ⟨a, v, rfl, ha, hv⟩
    exact ⟨List.cons_ne_nil a v, List.forall_mem_cons.2 ⟨ha, mem_oneOf_kstar.1 hv⟩⟩
  · rintro ⟨hne, hw⟩
    obtain ⟨a, v, rfl⟩ := List.exists_cons_of_ne_nil hne
    obtain ⟨ha, hv⟩ := List.forall_mem_cons.1 hw
    exact ⟨a, v, rfl, ha, mem_oneOf_kstar.2 hv⟩

/-- `l?` -/
theorem mem_one_add {l : Language α} : w ∈ 1 + l ↔ w = [] ∨ w ∈ l := by
  rw [Language.mem_add, Language.mem_one]

end

/-! ## numerals -/

/-- `[0-9]` -/
def digit : Language Char := oneOf fun c => '0' ≤ c ∧ c ≤ '9'

/-- `\.` -/
def point : Language Char := oneOf (· = '.')

/-- `-` -/
def minus : Language Char := oneOf (· = '-')

/-- `\.[0-9]+|[0-9]+(\.[0-9]*)?` -/
def unsignedNumerals : Language Char :=
  point * (digit * digit∗) + digit * digit∗ * (1 + point * digit∗)

/-- `-?(\.[0-9]+|[0-9]+(\.[0-9]*)?)` -/
def numerals : Language Char := (1 + minus) * unsignedNumerals

theorem isDigit_iff (c : Char) : c.isDigit = true ↔ '0' ≤ c ∧ c ≤ '9' := by
  rw [Char.isDigit_iff_toNat]
  exact Iff.rfl

theorem mem_digits_iff {s : Text} : s ∈ digit∗ ↔ Digits s := by
  simp only [digit, mem_oneOf_kstar, ← isDigit_iff]
  exact Iff.rfl

theorem mem_digits_nonempty_iff {s : Text} : s ∈ digit * digit∗ ↔ s ≠ [] ∧ Digits s := by
  simp only [digit, mem_oneOf_mul_kstar, ← isDigit_iff]
  exact Iff.rfl

theorem mem_point_mul {l : Language Char} {s : Text} :
    s ∈ point * l ↔ ∃ f, s = '.' :: f ∧ f ∈ l := by
  rw [point, mem_oneOf_mul]
  constructor
  · rintro ⟨_, f, rfl, rfl, hf⟩
    exact ⟨f, rfl, hf⟩
  · rintro ⟨f, rfl, hf⟩
    exact ⟨'.', f, rfl, rfl, hf⟩

theorem mem_unsignedNumerals_iff {s : Text} : s ∈ unsignedNumerals ↔ UnsignedNumeral s := by
  rw [unsignedNumerals, Language.mem_add, mem_point_mul, Language.mem_mul]
  constructor
  · rintro (⟨f, rfl, hf⟩ | ⟨i, hi, t, ht, rfl⟩)
    · obtain ⟨hne, hf⟩ := mem_digits_nonempty_iff.1 hf
      exact .fraction hne hf
    · obtain ⟨hne, hi⟩ := mem_digits_nonempty_iff.1 hi
      rcases mem_one_add.1 ht with rfl | ht
      · rw [List.append_nil]
        exact .whole hne hi
      · obtain ⟨f, rfl, hf⟩ := mem_point_mul.1 ht
        exact .decimal hne hi (mem_digits_iff.1 hf)
  · rintro (⟨hne, hf⟩ | ⟨hne, hi⟩ | ⟨hne, hi, hf⟩)
    · exact .inl ⟨_, rfl, mem_digits_nonempty_iff.2 ⟨hne, hf⟩⟩
    · exact .inr ⟨s, mem_digits_nonempty_iff.2 ⟨hne, hi⟩, [], mem_one_add.2 (.inl rfl),
        List.append_nil s⟩
    · refine .inr ⟨_, mem_digits_nonempty_iff.2 ⟨hne, hi⟩, _, ?_, rfl⟩
      exact mem_one_add.2 (.inr (mem_point_mul.2 ⟨_, rfl, mem_digits_iff.2 hf⟩))

theorem mem_numerals_iff {s : Text} : s ∈ numerals ↔ Numeral s := by
  rw [numerals, Language.mem_mul, Numeral]
  constructor
  · rintro ⟨sign, hsign, u, hu, rfl⟩
    rw [mem_unsignedNumerals_iff] at hu
    rcases mem_one_add.1 hsign with rfl | ⟨_, rfl, rfl⟩
    · exact .inl hu
    · exact .inr ⟨u, rfl, hu⟩
  · rintro (hs | ⟨u, rfl, hu⟩)
    · exact ⟨[], mem_one_add.2 (.inl rfl), s, mem_unsignedNumerals_iff.2 hs, rfl⟩
    · exact ⟨['-'], mem_one_add.2 (.inr ⟨'-', rfl, rfl⟩), u, mem_unsignedNumerals_iff.2 hu, rfl⟩

/-! ## words -/

/-- a code of `[A-Za-z_\x80-\xff]`, or above these -/
def StartCode (n : Nat) : Prop :=
  ((0x41 ≤ n ∧ n ≤ 0x5A) ∨ (0x61 ≤ n ∧ n ≤ 0x7A)) ∨ n = 0x5F ∨ 0x80 ≤ n

/-- a code of `[A-Za-z0-9_\x80-\xff]`, or above these -/
def PartCode (n : Nat) : Prop := StartCode n ∨ (0x30 ≤ n ∧ n ≤ 0x39)

/-- `[A-Za-z_\x80-\xff][A-Za-z0-9_\x80-\xff]*` -/
def words : Language UInt8 :=
  oneOf (fun b => StartCode b.toNat) * (oneOf fun b => PartCode b.toNat)∗

theorem isWordStart_iff_startCode (c : Char) : isWordStart c = true ↔ StartCode c.toNat := by
  rw [isWordStart_iff, isAlpha_iff, ← Char.toNat_inj, StartCode, or_assoc]
  exact Iff.rfl

theorem isWordPart_iff_partCode (c : Char) : isWordPart c = true ↔ PartCode c.toNat := by
  rw [isWordPart, Bool.or_eq_true, isWordStart_iff_startCode, Char.isDigit_iff_toNat]
  exact Iff.rfl

/-- a class with everything from `0x80` on has a byte of a character if it has the character -/
theorem code_iff_of_mem {p : Nat → Prop} (high : ∀ n, 0x80 ≤ n → p n) {c : Char} {b : UInt8}
    (hb : b ∈ String.utf8EncodeChar c) : p b.toNat ↔ p c.toNat := by
  by_cases hlt : c.toNat < 0x80
  · rw [utf8EncodeChar_of_lt hlt, List.mem_singleton] at hb
    have hn : b.toNat = c.toNat := by
      rw [hb]
      exact UInt8.toNat_ofNat_of_lt' (show c.toNat < 256 by omega)
    rw [hn]
  · have hc := Nat.not_lt.1 hlt
    exact iff_of_true (high _ (le_of_mem_utf8EncodeChar hc b hb)) (high _ hc)

theorem startCode_of_le {n : Nat} (h : 0x80 ≤ n) : StartCode n := .inr (.inr h)

theorem partCode_of_le {n : Nat} (h : 0x80 ≤ n) : PartCode n := .inl (startCode_of_le h)

/-- all bytes of a character are in such a class, or none is -/
theorem forall_code_iff {p : Nat → Prop} (high : ∀ n, 0x80 ≤ n → p n) (c : Char) :
    (∀ b ∈ String.utf8EncodeChar c, p b.toNat) ↔ p c.toNat := by
  obtain ⟨b, hb⟩ := List.exists_mem_of_ne_nil _ (String.utf8EncodeChar_ne_nil (c := c))
  constructor
  · intro hall
    exact (code_iff_of_mem high hb).1 (hall b hb)
  · intro hc x hx
    exact (code_iff_of_mem high hx).2 hc

theorem forall_partCode_encode_iff (s : Text) :
    (∀ b ∈ s.encode, PartCode b.toNat) ↔ ∀ d ∈ s, isWordPart d = true := by
  rw [Text.encode, List.forall_mem_flatMap]
  refine forall₂_congr fun d _ => ?_
  rw [forall_code_iff @partCode_of_le, isWordPart_iff_partCode]

theorem encode_nil_not_mem_words : Text.encode [] ∉ words := by
  rw [Text.encode_nil, words, mem_oneOf_mul]
  rintro ⟨b, bs, e, -⟩
  cases e

theorem encode_mem_words_iff (c : Char) (s : Text) :
    Text.encode (c :: s) ∈ words ↔ isWordStart c = true ∧ ∀ d ∈ s, isWordPart d = true := by
  rw [isWordStart_iff_startCode, ← forall_partCode_encode_iff]
  obtain ⟨b, bs, e⟩ := List.exists_cons_of_ne_nil (String.utf8EncodeChar_ne_nil (c := c))
  have hcode : ∀ x ∈ b :: bs, (StartCode x.toNat ↔ StartCode c.toNat) := fun x hx =>
    code_iff_of_mem (fun _ => startCode_of_le) (e ▸ hx)
  have hstart := hcode b List.mem_cons_self
  rw [Text.encode_cons, e, List.cons_append, words, mem_oneOf_mul]
  constructor
  · rintro ⟨_, _, h, hb, hrest⟩
    obtain ⟨rfl, rfl⟩ := List.cons.inj h
    exact ⟨hstart.1 hb, (List.forall_mem_append.1 (mem_oneOf_kstar.1 hrest)).2⟩
  · rintro ⟨hc, hs⟩
    refine ⟨b, bs ++ s.encode, rfl, hstart.2 hc, mem_oneOf_kstar.2 ?_⟩
    refine List.forall_mem_append.2 ⟨fun x hx => ?_, hs⟩
    exact .inl ((hcode x (List.mem_cons_of_mem b hx)).2 hc)

/-! ## reserved words -/

/-- the same letters, each small or capital -/
def SameLetters : Text → Text → Prop := List.Forall₂ fun l c => c = l ∨ c = l.toUpper

/-- `graph`, `digraph`, `subgraph`, `node`, `edge` or `strict` in any case of ASCII letters -/
def Reserved (s : Text) : Prop :=
  ∃ w ∈ ["graph", "digraph", "subgraph", "node", "edge", "strict"], SameLetters w.toList s

theorem toNat_toLower (c : Char) : c.toLower.toNat =
    if 0x41 ≤ c.toNat ∧ c.toNat ≤ 0x5A then c.toNat + 0x20 else c.toNat := by
  have hupper := val_between_iff 'A' 'Z' c
  by_cases h : c.val ≥ 'A'.val ∧ c.val ≤ 'Z'.val
  · have hn : 0x41 ≤ c.toNat ∧ c.toNat ≤ 0x5A := hupper.1 h
    have hsmall : c.toLower = _ := dif_pos h
    have hsum : (c.val + 0x20).toNat = (c.toNat + 0x20) % 2 ^ 32 := UInt32.toNat_add c.val 0x20
    rw [hsmall, if_pos hn]
    exact hsum.trans (Nat.mod_eq_of_lt (by omega))
  · have hsame : c.toLower = c := dif_neg h
    rw [hsame]
    exact (if_neg (mt hupper.2 h)).symm

theorem toNat_toUpper (c : Char) : c.toUpper.toNat =
    if 0x61 ≤ c.toNat ∧ c.toNat ≤ 0x7A then c.toNat - 0x20 else c.toNat := by
  have hlower := val_between_iff 'a' 'z' c
  by_cases h : 'a'.val ≤ c.val ∧ c.val ≤ 'z'.val
  · have hn : 0x61 ≤ c.toNat ∧ c.toNat ≤ 0x7A := hlower.1 h
    have hcapital : c.toUpper = _ := dif_pos h
    have hsum : (c.val + ('A'.val - 'a'.val)).toNat = (c.toNat + (2 ^ 32 - 0x20)) % 2 ^ 32 :=
      UInt32.toNat_add c.val ('A'.val - 'a'.val)
    rw [hcapital, if_pos hn]
    refine hsum.trans ?_
    omega
  · have hsame : c.toUpper = c := dif_neg h
    rw [hsame]
    exact (if_neg (mt hlower.2 h)).symm

theorem toLower_eq_iff {l : Char} (hl : l.isLower = true) (c : Char) :
    c.toLower = l ↔ c = l ∨ c = l.toUpper := by
  rw [isLower_iff] at hl
  rw [← Char.toNat_inj, ← Char.toNat_inj, ← Char.toNat_inj, toNat_toLower, toNat_toUpper,
    if_pos hl]
  split <;> omega

theorem map_toLower_eq_iff {w : Text} (hw : ∀ l ∈ w, l.isLower = true) (s : Text) :
    s.map Char.toLower = w ↔ SameLetters w s := by
  rw [SameLetters]
  induction w generalizing s with
  | nil => rw [List.map_eq_nil_iff, List.forall₂_nil_left_iff]
  | cons l w ih =>
    obtain ⟨hl, hw⟩ := List.forall_mem_cons.1 hw
    cases s with
    | nil => exact iff_of_false nofun nofun
    | cons c s => rw [List.map_cons, List.cons.injEq, List.forall₂_cons, toLower_eq_iff hl, ih hw]

theorem isKeyword_iff (s : Text) : isKeyword s = true ↔ Reserved s := by
  have hlower : ∀ w ∈ ["graph", "digraph", "subgraph", "node", "edge", "strict"],
      w.toList.all Char.isLower = true := by decide
  have hkeywords : keywords =
      ["graph", "digraph", "subgraph", "node", "edge", "strict"].map String.toList := rfl
  rw [isKeyword, decide_eq_true_iff, hkeywords, List.mem_map, Reserved]
  refine exists_congr fun w => and_congr_right fun hw => ?_
  rw [eq_comm, map_toLower_eq_iff (List.all_eq_true.1 (hlower w hw))]

theorem isPlain_iff (s : Text) : isPlain s = true ↔ s.encode ∈ words ∧ ¬ Reserved s := by
  cases s with
  | nil => exact iff_of_false Bool.false_ne_true fun h => encode_nil_not_mem_words h.1
  | cons c s =>
    rw [isPlain_cons_iff, encode_mem_words_iff, ← isKeyword_iff, Bool.not_eq_true, and_assoc]

/-- a word is no numeral -/
theorem not_isPlain_and_isNumeral (s : Text) : ¬ (isPlain s = true ∧ isNumeral s = true) := by
  rintro ⟨hplain, hnumeral⟩
  cases s with
  | nil => cases hplain
  | cons c s =>
    have hc := ((isPlain_cons_iff c s).1 hplain).1
    rw [not_isWordStart_of_numeral ((isNumeral_iff _).1 hnumeral)] at hc
    cases hc

/-! ## between quotes -/

/-- how many backslashes a text ends with -/
def backslashes (s : Text) : Nat := (s.reverse.takeWhile (· = '\\')).length

theorem backslashes_concat (s : Text) (c : Char) :
    backslashes (s ++ [c]) = if c = '\\' then backslashes s + 1 else 0 := by
  simp only [backslashes, List.reverse_concat, List.takeWhile_cons, decide_eq_true_eq]
  split <;> rfl

/-- a character as it is written between quotes keeps the backslashes even -/
theorem even_backslashes_escape {front : Text} (h : Even (backslashes front)) (c : Char) :
    Even (backslashes (front ++ escape c)) := by
  have pair : ∀ a b : Char, front ++ [a, b] = front ++ [a] ++ [b] := fun a b => by simp
  by_cases hq : c = '"'
  · rw [hq, escape, pair, backslashes_concat]
    exact Even.zero
  by_cases hb : c = '\\'
  · rw [hb, escape, pair, backslashes_concat, backslashes_concat, if_pos rfl, if_pos rfl]
    exact h.add even_two
  by_cases hl : c = '\n'
  · rw [hl, escape, pair, backslashes_concat]
    exact Even.zero
  · rw [escape_of_ne hq hb hl, backslashes_concat, if_neg hb]
    exact Even.zero

theorem even_backslashes {front : Text} (h : Even (backslashes front)) (s : Text) :
    Even (backslashes (front ++ s.flatMap escape)) := by
  induction s generalizing front with
  | nil => rwa [List.flatMap_nil, List.append_nil]
  | cons c s ih =>
    rw [List.flatMap_cons, ← List.append_assoc]
    exact ih (even_backslashes_escape h c)

theorem eq_of_quote_mem_escape {c : Char} (h : '"' ∈ escape c) : c = '"' := by
  by_contra hq
  by_cases hb : c = '\\'
  · rw [hb] at h
    exact absurd h (by decide)
  by_cases hl : c = '\n'
  · rw [hl] at h
    exact absurd h (by decide)
  · rw [escape_of_ne hq hb hl] at h
    exact hq (List.mem_singleton.1 h).symm

/-- a quote in a name comes behind its own backslash -/
theorem eq_of_escape_eq_append {c : Char} {before after : Text}
    (h : escape c = before ++ '"' :: after) : before = ['\\'] := by
  have hq : c = '"' :=
    eq_of_quote_mem_escape (h ▸ List.mem_append_right before List.mem_cons_self)
  rw [hq, escape] at h
  cases before with
  | nil => exact absurd (List.cons.inj h).1 (by decide)
  | cons a before =>
    obtain ⟨rfl, h⟩ := List.cons.inj h
    cases before with
    | nil => rfl
    | cons b before => exact absurd (List.cons.inj h).2.symm (by simp)

/-- in front of each quote among the characters of a name the backslashes are odd -/
theorem odd_backslashes {s front before after : Text} (hfront : Even (backslashes front))
    (h : s.flatMap escape = before ++ '"' :: after) : Odd (backslashes (front ++ before)) := by
  induction s generalizing front before with
  | nil => exact absurd h.symm (List.append_ne_nil_of_right_ne_nil before (List.cons_ne_nil _ _))
  | cons c s ih =>
    rw [List.flatMap_cons] at h
    -- the quote stands behind the first character, or is what that character is written as
    have later : ∀ b, before = escape c ++ b → s.flatMap escape = b ++ '"' :: after →
        Odd (backslashes (front ++ before)) := by
      rintro b rfl hb
      rw [← List.append_assoc]
      exact ih (even_backslashes_escape hfront c) hb
    rcases List.append_eq_append_iff.1 h with ⟨b, hbefore, hs⟩ | ⟨r, hc, hr⟩
    · exact later b hbefore hs
    · cases r with
      | nil =>
        rw [List.append_nil] at hc
        exact later [] (by rw [hc, List.append_nil]) hr.symm
      | cons q r =>
        obtain ⟨rfl, -⟩ := List.cons.inj hr
        rw [eq_of_escape_eq_append hc, backslashes_concat, if_pos rfl]
        exact hfront.add_one

/-- how a name is written that DOT does not take as it is -/
structure BetweenQuotes (written : Text) : Prop where
  quotes : ∃ body, written = '"' :: (body ++ ['"'])
  one_line : '\n' ∉ written
  inside : ∀ before after, written = before ++ '"' :: after → before ≠ [] → after ≠ [] →
    Odd (backslashes before)
  closing : ∀ before, written = before ++ ['"'] → Even (backslashes before)

theorem betweenQuotes_quote (s : Text) : BetweenQuotes (quote s) := by
  -- behind the opening quote the backslashes are counted anew
  have hopening : Even (backslashes ['"']) := Even.zero
  refine ⟨⟨_, rfl⟩, lineFeed_not_mem_quote s, ?_, ?_⟩
  · intro before after h hbefore hafter
    obtain ⟨q, front, rfl⟩ := List.exists_cons_of_ne_nil hbefore
    obtain ⟨rfl, hrest⟩ := List.cons.inj h
    have hrest : s.flatMap escape ++ ['"'] = front ++ '"' :: after := hrest
    rw [← List.dropLast_concat_getLast hafter, ← List.cons_append, ← List.append_assoc] at hrest
    exact odd_backslashes hopening (List.append_inj_left' hrest rfl)
  · intro before h
    have h : ['"'] ++ s.flatMap escape ++ ['"'] = before ++ ['"'] := h
    rw [← List.append_inj_left' h rfl]
    exact even_backslashes hopening s

/-! ## names -/

theorem render_quoted_of_not_isBare {s : Text} (h : ¬ isBare s = true) :
    Spelling.quoted.render s = quote s := if_neg h

theorem render_quoted_eq_self_iff (s : Text) :
    Spelling.quoted.render s = s ↔ isBare s = true := by
  constructor
  · intro h
    by_contra hbare
    have hlen := byteLength_quote s
    rw [← render_quoted_of_not_isBare hbare, h] at hlen
    omega
  · exact fun h => render_of_isBare h .quoted

theorem isBare_iff (s : Text) : isBare s = true ↔ isPlain s = true ∨ isNumeral s = true :=
  Bool.or_eq_true_iff

/-- A numeral is what the first expression matches, and a word is what the second one matches in
UTF-8 if it is not reserved; no name is both.  A name is written as it is if it is one of them.  All
others are between quotes on one line, with an odd number of backslashes in front of each quote
inside and an even number in front of the last. -/
theorem render_quoted_bare_iff (s : Text) :
    (isNumeral s = true ↔ s ∈ numerals) ∧
    (isPlain s = true ↔ s.encode ∈ words ∧ ¬ Reserved s) ∧
    ¬ (isPlain s = true ∧ isNumeral s = true) ∧
    (Spelling.quoted.render s = s ↔ isPlain s = true ∨ isNumeral s = true) ∧
    (¬ (isPlain s = true ∨ isNumeral s = true) → BetweenQuotes (Spelling.quoted.render s)) := by
  refine ⟨(isNumeral_iff s).trans mem_numerals_iff.symm, isPlain_iff s,
    not_isPlain_and_isNumeral s, ?_, ?_⟩
  · rw [← isBare_iff]
    exact render_quoted_eq_self_iff s
  · rw [← isBare_iff]
    intro hbare
    rw [render_quoted_of_not_isBare hbare]
    exact betweenQuotes_quote s

end EdgeDot.Dot
