import EdgeDot.Dot.Document

/-!
# The grammar of names

What DOT takes for a numeral and for a text between quotes, said without a scanner, and the
scanners held against it.

* `Numeral`                 `-?(\.[0-9]+|[0-9]+(\.[0-9]*)?)`
* `isNumeral_iff`           the test of names is this grammar
* `numeral?_of_numeral`, `numeral?_sound`, `numeral?_maximal`   the scanner finds the longest one
* `Quoted`                  a text between quotes and the name that it stands for
* `unquote?_eq_some_iff`    the scanner stops at the first quote that is not escaped
* `quoted_escape`           what is written between quotes stands for the name
-/

namespace EdgeDot.Dot

section
variable {α : Type} {p : α → Bool} {front rest : List α}

theorem takeWhile_append_stop (hin : ∀ x ∈ front, p x = true)
    (hstop : ∀ x, rest.head? = some x → p x = false) : (front ++ rest).takeWhile p = front := by
  rw [List.takeWhile_append_of_pos hin]
  cases rest with
  | nil => rw [List.takeWhile_nil, List.append_nil]
  | cons x rest =>
    have hx : ¬ p x = true := by simp [hstop x rfl]
    rw [List.takeWhile_cons_of_neg hx, List.append_nil]

theorem dropWhile_append_stop (hin : ∀ x ∈ front, p x = true)
    (hstop : ∀ x, rest.head? = some x → p x = false) : (front ++ rest).dropWhile p = rest := by
  rw [List.dropWhile_append_of_pos hin]
  cases rest with
  | nil => rfl
  | cons x rest =>
    have hx : ¬ p x = true := by simp [hstop x rfl]
    rw [List.dropWhile_cons_of_neg hx]

theorem length_le_takeWhile (hin : ∀ x ∈ front, p x = true) :
    front.length ≤ ((front ++ rest).takeWhile p).length := by
  rw [List.takeWhile_append_of_pos hin, List.length_append]
  exact Nat.le_add_right _ _

end

/-! ## numerals -/

def Digits (s : Text) : Prop := ∀ c ∈ s, c.isDigit = true

/-- `\.[0-9]+|[0-9]+(\.[0-9]*)?` -/
inductive UnsignedNumeral : Text → Prop where
  | fraction {f : Text} (hne : f ≠ []) (hf : Digits f) : UnsignedNumeral ('.' :: f)
  | whole {i : Text} (hne : i ≠ []) (hi : Digits i) : UnsignedNumeral i
  | decimal {i f : Text} (hne : i ≠ []) (hi : Digits i) (hf : Digits f) :
    UnsignedNumeral (i ++ '.' :: f)

/-- `-?(\.[0-9]+|[0-9]+(\.[0-9]*)?)` -/
def Numeral (s : Text) : Prop := UnsignedNumeral s ∨ ∃ u, s = '-' :: u ∧ UnsignedNumeral u

theorem Digits.not_point {s : Text} (h : Digits s) : ∀ c ∈ s, decide (c ≠ '.') = true := by
  intro c hc
  have hd := h c hc
  refine decide_eq_true fun e => ?_
  rw [e] at hd
  exact absurd hd (by decide)

theorem Digits.all {s : Text} (h : Digits s) : s.all Char.isDigit = true := List.all_eq_true.2 h

/-- a numeral without sign begins with a digit or with the point -/
theorem UnsignedNumeral.head {s : Text} (h : UnsignedNumeral s) :
    ∃ c t, s = c :: t ∧ (c.isDigit = true ∨ c = '.') := by
  cases h with
  | fraction => exact ⟨_, _, rfl, .inr rfl⟩
  | whole hne hi =>
    obtain ⟨c, t, rfl⟩ := List.exists_cons_of_ne_nil hne
    exact ⟨c, t, rfl, .inl (hi c List.mem_cons_self)⟩
  | @decimal i f hne hi =>
    obtain ⟨c, t, rfl⟩ := List.exists_cons_of_ne_nil hne
    exact ⟨c, t ++ '.' :: f, rfl, .inl (hi c List.mem_cons_self)⟩

theorem UnsignedNumeral.not_minus {u : Text} : ¬ UnsignedNumeral ('-' :: u) := by
  intro h
  obtain ⟨c, t, e, hc⟩ := h.head
  obtain ⟨rfl, -⟩ := List.cons.inj e
  rcases hc with hc | hc
  · exact absurd hc (by decide)
  · exact absurd hc (by decide)

/-- the test of a name without its sign -/
def isUnsigned (u : Text) : Bool :=
  let whole := u.takeWhile (· ≠ '.')
  let fraction := (u.dropWhile (· ≠ '.')).drop 1
  (!whole.isEmpty || !fraction.isEmpty) && whole.all Char.isDigit && fraction.all Char.isDigit

theorem isNumeral_eq (s : Text) : isNumeral s = isUnsigned (unsigned s) := rfl

theorem isUnsigned_iff (u : Text) : isUnsigned u = true ↔ UnsignedNumeral u := by
  constructor
  · intro h
    simp only [isUnsigned, Bool.and_eq_true, Bool.or_eq_true, List.all_eq_true] at h
    obtain ⟨⟨hne, hw⟩, hf⟩ := h
    have whole := List.takeWhile_append_dropWhile (p := (· ≠ '.')) (l := u)
    have hhead := List.head?_dropWhile_not (· ≠ '.') u
    cases hd : u.dropWhile (· ≠ '.') with
    | nil =>
      rw [hd, List.append_nil] at whole
      rw [hd] at hne
      rw [← whole]
      exact .whole (by simpa using hne) hw
    | cons c f =>
      rw [hd] at whole hne hf hhead
      have hc : c = '.' := by simpa using hhead
      rw [← whole, hc]
      by_cases hi : u.takeWhile (· ≠ '.') = []
      · rw [hi] at hne ⊢
        exact .fraction (by simpa using hne) hf
      · exact .decimal hi hw hf
  · have key : ∀ i f : Text, Digits i → Digits f → i ≠ [] ∨ f ≠ [] →
        isUnsigned (i ++ '.' :: f) = true := by
      intro i f hi hf hne
      have hstop : ∀ c, ('.' :: f).head? = some c → decide (c ≠ '.') = false := by
        intro c hc
        simp [← Option.some.inj hc]
      simp only [isUnsigned, takeWhile_append_stop hi.not_point hstop,
        dropWhile_append_stop hi.not_point hstop, List.drop_succ_cons, List.drop_zero,
        hi.all, hf.all]
      simpa using hne
    rintro (⟨hne, hf⟩ | ⟨hne, hi⟩ | ⟨hne, hi, hf⟩)
    · exact key [] _ (fun c hc => absurd hc List.not_mem_nil) hf (.inr hne)
    · have hstop : ∀ c, ([] : Text).head? = some c → decide (c ≠ '.') = false := by
        intro c hc
        cases hc
      have ht := takeWhile_append_stop hi.not_point hstop
      have hd := dropWhile_append_stop hi.not_point hstop
      rw [List.append_nil] at ht hd
      simp only [isUnsigned, ht, hd, hi.all]
      simpa using hne
    · exact key _ _ hi hf (.inl hne)

theorem isNumeral_iff (s : Text) : isNumeral s = true ↔ Numeral s := by
  rw [isNumeral_eq, isUnsigned_iff]
  unfold unsigned Numeral
  split
  next u =>
    constructor
    · exact fun h => .inr ⟨u, rfl, h⟩
    · rintro (h | ⟨v, e, h⟩)
      · exact absurd h UnsignedNumeral.not_minus
      · rwa [(List.cons.inj e).2]
  next hne =>
    constructor
    · exact .inl
    · rintro (h | ⟨v, e, -⟩)
      · exact h
      · exact absurd e (hne v)

/-! ### the scanner of numerals -/

theorem digits_append (s : Text) : (digits s).1 ++ (digits s).2 = s :=
  List.takeWhile_append_dropWhile

theorem digits_fst (s : Text) : Digits (digits s).1 :=
  fun c hc => List.all_eq_true.1 List.all_takeWhile c hc

theorem unsignedNumeral?_sound {s w rest : Text} (h : unsignedNumeral? s = some (w, rest)) :
    s = w ++ rest ∧ UnsignedNumeral w := by
  have whole := digits_append s
  simp only [unsignedNumeral?] at h
  split at h
  next t point =>
    split at h
    · cases h
    next hne =>
      cases h
      rw [point] at whole
      refine ⟨?_, ?_⟩
      · rw [List.append_assoc, List.cons_append, digits_append, whole]
      · by_cases hi : (digits s).1 = []
        · rw [hi] at hne ⊢
          exact .fraction (by simpa using hne) (digits_fst t)
        · exact .decimal hi (digits_fst s) (digits_fst t)
  next =>
    split at h
    · cases h
    next hne =>
      cases h
      exact ⟨whole.symm, .whole (by simpa using hne) (digits_fst s)⟩

/-- the scanner finds a numeral where there is one, and none that is longer -/
theorem unsignedNumeral?_maximal {v : Text} (hv : UnsignedNumeral v) (t : Text) :
    ∃ w rest, unsignedNumeral? (v ++ t) = some (w, rest) ∧ v.length ≤ w.length := by
  have key : ∀ i f : Text, Digits i → Digits f → i ≠ [] ∨ f ≠ [] →
      ∃ w rest, unsignedNumeral? (i ++ '.' :: (f ++ t)) = some (w, rest) ∧
        (i ++ '.' :: f).length ≤ w.length := by
    intro i f hi hf hne
    have hstop : ∀ c, ('.' :: (f ++ t)).head? = some c → c.isDigit = false := by
      intro c hc
      rw [← Option.some.inj hc]
      rfl
    have hdigits : digits (i ++ '.' :: (f ++ t)) = (i, '.' :: (f ++ t)) :=
      Prod.ext (takeWhile_append_stop hi hstop) (dropWhile_append_stop hi hstop)
    have hlen : f.length ≤ (digits (f ++ t)).1.length := length_le_takeWhile hf
    have hsome : (i.isEmpty && (digits (f ++ t)).1.isEmpty) = false := by
      rcases hne with hne | hne
      · simp [hne]
      · have : (digits (f ++ t)).1 ≠ [] := by
          intro e
          rw [e, List.length_nil, Nat.le_zero, List.length_eq_zero_iff] at hlen
          exact hne hlen
        simp [this]
    refine ⟨i ++ '.' :: (digits (f ++ t)).1, (digits (f ++ t)).2, ?_, ?_⟩
    · simp only [unsignedNumeral?, hdigits, hsome, Bool.false_eq_true, if_false]
    · simp only [List.length_append, List.length_cons]
      omega
  cases hv with
  | fraction hne hf => exact key [] _ (fun c hc => absurd hc List.not_mem_nil) hf (.inr hne)
  | decimal hne hi hf =>
    rw [List.append_assoc, List.cons_append]
    exact key _ _ hi hf (.inl hne)
  | whole hne hi =>
    have hlen : v.length ≤ (digits (v ++ t)).1.length := length_le_takeWhile hi
    have hsome : (digits (v ++ t)).1.isEmpty = false := by
      rw [List.isEmpty_eq_false_iff, ← List.length_pos_iff]
      exact Nat.lt_of_lt_of_le (List.length_pos_iff.2 hne) hlen
    simp only [unsignedNumeral?, hsome, Bool.false_and, Bool.false_eq_true, if_false]
    split
    · refine ⟨_, _, rfl, ?_⟩
      rw [List.length_append]
      omega
    · exact ⟨_, _, rfl, hlen⟩

theorem numeral?_minus (u : Text) :
    numeral? ('-' :: u) = (unsignedNumeral? u).map fun r => ('-' :: r.1, r.2) := rfl

theorem numeral?_of_ne {c : Char} (h : c ≠ '-') (s : Text) :
    numeral? (c :: s) = unsignedNumeral? (c :: s) := by
  unfold numeral?
  split
  next e => exact absurd (List.cons.inj e).1 h
  · rfl

theorem numeral?_sound {s w rest : Text} (h : numeral? s = some (w, rest)) :
    s = w ++ rest ∧ Numeral w := by
  unfold numeral? at h
  split at h
  next u =>
    obtain ⟨⟨v, r⟩, hv, e⟩ := Option.map_eq_some_iff.1 h
    obtain ⟨rfl, rfl⟩ := Prod.mk.inj e
    obtain ⟨hu, hn⟩ := unsignedNumeral?_sound hv
    exact ⟨congrArg _ hu, .inr ⟨v, rfl, hn⟩⟩
  · obtain ⟨hs, hn⟩ := unsignedNumeral?_sound h
    exact ⟨hs, .inl hn⟩

theorem numeral?_maximal {v : Text} (hv : Numeral v) (t : Text) :
    ∃ w rest, numeral? (v ++ t) = some (w, rest) ∧ v.length ≤ w.length := by
  rcases hv with hv | ⟨u, rfl, hu⟩
  · obtain ⟨w, rest, hw, hlen⟩ := unsignedNumeral?_maximal hv t
    obtain ⟨c, s, rfl, hc⟩ := hv.head
    have hne : c ≠ '-' := by
      rintro rfl
      exact hv.not_minus
    exact ⟨w, rest, (numeral?_of_ne hne _).trans hw, hlen⟩
  · obtain ⟨w, rest, hw, hlen⟩ := unsignedNumeral?_maximal hu t
    refine ⟨'-' :: w, rest, ?_, Nat.succ_le_succ hlen⟩
    rw [List.cons_append, numeral?_minus, hw]
    rfl

theorem UnsignedNumeral.chars {s : Text} (h : UnsignedNumeral s) :
    ∀ c ∈ s, c.isDigit = true ∨ c = '.' := by
  intro c hc
  cases h with
  | fraction _ hf =>
    rcases List.mem_cons.1 hc with rfl | hc
    · exact .inr rfl
    · exact .inl (hf c hc)
  | whole _ hi => exact .inl (hi c hc)
  | decimal _ hi hf =>
    rcases List.mem_append.1 hc with hc | hc
    · exact .inl (hi c hc)
    · rcases List.mem_cons.1 hc with rfl | hc
      · exact .inr rfl
      · exact .inl (hf c hc)

theorem Numeral.head {s : Text} (h : Numeral s) :
    ∃ c t, s = c :: t ∧ (c.isDigit = true ∨ c = '.' ∨ c = '-') := by
  rcases h with h | ⟨u, rfl, -⟩
  · obtain ⟨c, t, e, hc⟩ := h.head
    exact ⟨c, t, e, hc.imp_right .inl⟩
  · exact ⟨_, u, rfl, .inr (.inr rfl)⟩

theorem Numeral.tail_chars {c : Char} {s : Text} (h : Numeral (c :: s)) :
    ∀ d ∈ s, d.isDigit = true ∨ d = '.' := by
  intro d hd
  rcases h with h | ⟨u, e, hu⟩
  · exact h.chars d (List.mem_cons_of_mem _ hd)
  · rw [(List.cons.inj e).2] at hd
    exact hu.chars d hd

/-- a numeral is read whole if neither a digit nor a point follows -/
theorem numeral?_of_numeral {w rest : Text} (h : Numeral w)
    (hstop : ∀ c, rest.head? = some c → c.isDigit = false ∧ c ≠ '.') :
    numeral? (w ++ rest) = some (w, rest) := by
  obtain ⟨v, r, hv, hlen⟩ := numeral?_maximal h rest
  obtain ⟨same, hn⟩ := numeral?_sound hv
  obtain ⟨x, rfl⟩ : w <+: v :=
    List.prefix_of_prefix_length_le ⟨rest, rfl⟩ ⟨r, same.symm⟩ hlen
  rw [List.append_assoc] at same
  have hrest := List.append_cancel_left same
  cases x with
  | nil => rw [hv, hrest, List.append_nil, List.nil_append]
  | cons c x =>
    obtain ⟨d, t, rfl, -⟩ := h.head
    obtain ⟨hd, hp⟩ := hstop c (by rw [hrest]; rfl)
    rcases hn.tail_chars c (List.mem_append_right _ List.mem_cons_self) with hc | hc
    · rw [hd] at hc
      cases hc
    · exact absurd hc hp

/-! ## texts between quotes -/

/-- a text between quotes and the name that it stands for; a backslash before any other character
than a quote, a backslash or an `n` stands for itself -/
inductive Quoted : Text → Text → Prop where
  | nil : Quoted [] []
  | quote {b n : Text} (h : Quoted b n) : Quoted ('\\' :: '"' :: b) ('"' :: n)
  | backslash {b n : Text} (h : Quoted b n) : Quoted ('\\' :: '\\' :: b) ('\\' :: n)
  | lineFeed {b n : Text} (h : Quoted b n) : Quoted ('\\' :: 'n' :: b) ('\n' :: n)
  | other {c : Char} {b n : Text} (hq : c ≠ '"')
    (hb : c = '\\' → ∃ d t, b = d :: t ∧ d ≠ '"' ∧ d ≠ '\\' ∧ d ≠ 'n') (h : Quoted b n) :
    Quoted (c :: b) (c :: n)

theorem unquote?_of_quoted {b n : Text} (h : Quoted b n) (rest : Text) :
    unquote? (b ++ '"' :: rest) = some (n, rest) := by
  induction h with
  | nil => rfl
  | quote _ ih => simp only [List.cons_append, unquote?, ih, Option.map_some]
  | backslash _ ih => simp only [List.cons_append, unquote?, ih, Option.map_some]
  | lineFeed _ ih => simp only [List.cons_append, unquote?, ih, Option.map_some]
  | @other c b n hq hb _ ih =>
    have hstep : unquote? (c :: (b ++ '"' :: rest)) =
        (unquote? (b ++ '"' :: rest)).map fun r => (c :: r.1, r.2) := by
      by_cases hc : c = '\\'
      · obtain ⟨d, t, rfl, h1, h2, h3⟩ := hb hc
        rw [hc, List.cons_append, unquote?] <;> simp_all
      · rw [unquote?] <;> simp_all
    rw [List.cons_append, hstep, ih, Option.map_some]

theorem quoted_of_unquote? {s n rest : Text} (h : unquote? s = some (n, rest)) :
    ∃ b, s = b ++ '"' :: rest ∧ Quoted b n := by
  fun_induction unquote? s generalizing n rest with
  | case1 => cases h
  | case2 s =>
    cases h
    exact ⟨[], rfl, .nil⟩
  | case3 s ih =>
    obtain ⟨r, hr, e⟩ := Option.map_eq_some_iff.1 h
    cases e
    obtain ⟨b, rfl, hb⟩ := ih hr
    exact ⟨_, rfl, hb.quote⟩
  | case4 s ih =>
    obtain ⟨r, hr, e⟩ := Option.map_eq_some_iff.1 h
    cases e
    obtain ⟨b, rfl, hb⟩ := ih hr
    exact ⟨_, rfl, hb.backslash⟩
  | case5 s ih =>
    obtain ⟨r, hr, e⟩ := Option.map_eq_some_iff.1 h
    cases e
    obtain ⟨b, rfl, hb⟩ := ih hr
    exact ⟨_, rfl, hb.lineFeed⟩
  | case6 c s hq h1 h2 h3 ih =>
    obtain ⟨r, hr, e⟩ := Option.map_eq_some_iff.1 h
    cases e
    obtain ⟨b, rfl, hb⟩ := ih hr
    refine ⟨c :: b, rfl, .other (fun e => hq e) (fun hc => ?_) hb⟩
    cases b with
    | nil => exact absurd rfl (h1 _ hc)
    | cons d t =>
      have hback (e' : Char) (h : d = e') : d :: t ++ '"' :: r.2 = e' :: (t ++ '"' :: r.2) := by
        rw [h, List.cons_append]
      exact ⟨d, t, rfl, fun e => h1 _ hc (hback _ e), fun e => h2 _ hc (hback _ e),
        fun e => h3 _ hc (hback _ e)⟩

theorem unquote?_eq_some_iff {s n rest : Text} :
    unquote? s = some (n, rest) ↔ ∃ b, s = b ++ '"' :: rest ∧ Quoted b n := by
  constructor
  · exact quoted_of_unquote?
  · rintro ⟨b, rfl, hb⟩
    exact unquote?_of_quoted hb rest

theorem escape_of_ne {c : Char} (hq : c ≠ '"') (hb : c ≠ '\\') (hl : c ≠ '\n') :
    escape c = [c] := by
  unfold escape
  split
  · exact absurd rfl hq
  · exact absurd rfl hb
  · exact absurd rfl hl
  · rfl

theorem quoted_escape (s : Text) : Quoted (s.flatMap escape) s := by
  induction s with
  | nil => exact .nil
  | cons c s ih =>
    rw [List.flatMap_cons]
    by_cases hq : c = '"'
    · rw [hq]
      exact .quote ih
    by_cases hb : c = '\\'
    · rw [hb]
      exact .backslash ih
    by_cases hl : c = '\n'
    · rw [hl]
      exact .lineFeed ih
    · rw [escape_of_ne hq hb hl]
      exact .other hq (fun h => absurd h hb) ih

end EdgeDot.Dot
