import EdgeDot.Proofs.Dot.Names

/-!
# The longest lexeme

The lexemes of digraphs as sets of texts, and a reading that takes at each place the longest
lexeme that stands there.

* `Lexeme.Spells`        which texts a lexeme has
* `Lexeme.Longest`       a lexeme at the front of a text, none being longer there
* `Lexeme.read?_longest` the scanner takes the longest
* `Lexeme.Lexes`         a text as lexemes with white space around them, each the longest
* `Lexeme.readAll?_lexes`   the scanner reads a text so
-/

namespace EdgeDot.Dot.Lexeme

/-- the texts of a lexeme -/
inductive Spells : Lexeme → Text → Prop where
  | digraph {w : Text} (h : w.map Char.toLower = "digraph".toList) : Spells .digraph w
  | opening : Spells .opening ['\x7b']
  | closing : Spells .closing ['\x7d']
  | arrow : Spells .arrow ['-', '>']
  | semicolon : Spells .semicolon [';']
  | word {c : Char} {s : Text} (hc : isWordStart c = true) (hs : ∀ d ∈ s, isWordPart d = true)
    (hk : isKeyword (c :: s) = false) : Spells (.name (c :: s)) (c :: s)
  | numeral {w : Text} (h : Numeral w) : Spells (.name w) w
  | quoted {b n : Text} (h : Quoted b n) : Spells (.name n) ('"' :: (b ++ ['"']))

/-- the front of a text is a lexeme, and no longer part of it is one -/
def Longest (s : Text) (lexeme : Lexeme) (rest : Text) : Prop :=
  ∃ w, s = w ++ rest ∧ lexeme.Spells w ∧
    ∀ (l : Lexeme) (v t : Text), l.Spells v → s = v ++ t → v.length ≤ w.length

/-! ## how lexemes begin -/

theorem isWordPart_of_isWordStart {c : Char} (h : isWordStart c = true) : isWordPart c = true := by
  rw [isWordPart, h, Bool.true_or]

theorem isWordStart_of_toLower {c : Char} (h : c.toLower ∈ "digraph".toList) :
    isWordStart c = true := by
  by_cases hu : c.val ≥ 'A'.val ∧ c.val ≤ 'Z'.val
  · have hupper : c.isUpper = true := decide_eq_true hu
    show (c.isUpper || c.isLower || decide (c = '_') || decide (0x80 ≤ c.toNat)) = true
    rw [hupper]
    rfl
  · have hlower : c.toLower = c := dif_neg hu
    rw [hlower] at h
    have h : c ∈ ['d', 'i', 'g', 'r', 'a', 'p', 'h'] := h
    simp only [List.mem_cons, List.not_mem_nil, or_false] at h
    rcases h with rfl | rfl | rfl | rfl | rfl | rfl | rfl <;> decide

theorem isKeyword_of_digraph {w : Text} (h : w.map Char.toLower = "digraph".toList) :
    isKeyword w = true := by
  rw [isKeyword, h]
  decide

/-- what a lexeme can be, by the character with which it begins -/
inductive Begins (c : Char) (t : Text) : Prop where
  | word (hc : isWordStart c = true) (ht : ∀ d ∈ t, isWordPart d = true)
  | numeral (h : Numeral (c :: t))
  | quoted (hc : c = '"') (b n : Text) (ht : t = b ++ ['"']) (h : Quoted b n)
  | arrow (hc : c = '-') (ht : t = ['>'])
  | sign (hc : c = '\x7b' ∨ c = '\x7d' ∨ c = ';') (ht : t = [])

theorem Spells.begins {l : Lexeme} {w : Text} (h : Spells l w) :
    ∃ c t, w = c :: t ∧ Begins c t := by
  cases h with
  | digraph h =>
    have hw : ∀ d ∈ w, isWordStart d = true := by
      intro d hd
      refine isWordStart_of_toLower ?_
      rw [← h]
      exact List.mem_map_of_mem hd
    cases w with
    | nil => cases h
    | cons c t =>
      refine ⟨c, t, rfl, .word (hw c List.mem_cons_self) fun d hd => ?_⟩
      exact isWordPart_of_isWordStart (hw d (List.mem_cons_of_mem _ hd))
  | opening => exact ⟨_, [], rfl, .sign (.inl rfl) rfl⟩
  | closing => exact ⟨_, [], rfl, .sign (.inr (.inl rfl)) rfl⟩
  | arrow => exact ⟨_, _, rfl, .arrow rfl rfl⟩
  | semicolon => exact ⟨_, [], rfl, .sign (.inr (.inr rfl)) rfl⟩
  | word hc hs => exact ⟨_, _, rfl, .word hc hs⟩
  | numeral h =>
    obtain ⟨c, t, rfl, -⟩ := h.head
    exact ⟨c, t, rfl, .numeral h⟩
  | @quoted b n h => exact ⟨_, _, rfl, .quoted rfl b n rfl h⟩

theorem isWordStart_iff (c : Char) :
    isWordStart c = true ↔ (c.isAlpha = true ∨ c = '_') ∨ 0x80 ≤ c.toNat := by
  simp only [isWordStart, Bool.or_eq_true, decide_eq_true_eq]

theorem val_between_iff (a b c : Char) :
    (a.val ≤ c.val ∧ c.val ≤ b.val) ↔ a.toNat ≤ c.toNat ∧ c.toNat ≤ b.toNat :=
  and_congr UInt32.le_iff_toNat_le UInt32.le_iff_toNat_le

theorem isLower_iff (c : Char) : c.isLower = true ↔ 0x61 ≤ c.toNat ∧ c.toNat ≤ 0x7A := by
  show (decide (c.val ≥ 'a'.val) && decide (c.val ≤ 'z'.val)) = true ↔ _
  rw [Bool.and_eq_true, decide_eq_true_iff, decide_eq_true_iff]
  exact val_between_iff 'a' 'z' c

theorem isAlpha_iff (c : Char) : c.isAlpha = true ↔
    (0x41 ≤ c.toNat ∧ c.toNat ≤ 0x5A) ∨ (0x61 ≤ c.toNat ∧ c.toNat ≤ 0x7A) := by
  show (decide (c.val ≥ 'A'.val ∧ c.val ≤ 'Z'.val) || c.isLower) = true ↔ _
  rw [Bool.or_eq_true, decide_eq_true_iff, isLower_iff]
  exact or_congr (val_between_iff 'A' 'Z' c) Iff.rfl

/-- the letters begin with `A` -/
theorem le_toNat_of_isAlpha {c : Char} (h : c.isAlpha = true) : 65 ≤ c.toNat := by
  have hrange := (isAlpha_iff c).1 h
  omega

theorem not_isWordStart_of_isDigit {c : Char} (h : c.isDigit = true) : isWordStart c = false := by
  refine Bool.eq_false_iff.2 fun hc => ?_
  obtain ⟨h0, h9⟩ := Char.isDigit_iff_toNat.1 h
  have h9 : c.toNat ≤ 57 := h9
  rcases (isWordStart_iff c).1 hc with (ha | rfl) | hn
  · have := le_toNat_of_isAlpha ha
    omega
  · exact absurd h9 (by decide)
  · omega

theorem not_isWordStart_of_numeral {c : Char} {t : Text} (h : Numeral (c :: t)) :
    isWordStart c = false := by
  obtain ⟨d, u, e, hd⟩ := h.head
  rw [(List.cons.inj e).1]
  rcases hd with hd | rfl | rfl
  · exact not_isWordStart_of_isDigit hd
  · decide
  · decide

/-- a numeral begins with no character that is a lexeme alone or opens one -/
theorem Begins.not_numeral {c : Char} {t : Text} (h : Numeral (c :: t))
    (hc : c ∈ ['\x7b', '\x7d', ';', '"']) : False := by
  obtain ⟨d, u, e, hd⟩ := h.head
  rw [(List.cons.inj e).1] at hc
  simp only [List.mem_cons, List.not_mem_nil, or_false] at hc
  rcases hd with hd | rfl | rfl
  · rcases hc with rfl | rfl | rfl | rfl <;> exact absurd hd (by decide)
  · exact absurd hc (by decide)
  · exact absurd hc (by decide)

theorem Begins.sign_eq_nil {c : Char} {t : Text} (h : Begins c t)
    (hc : c = '\x7b' ∨ c = '\x7d' ∨ c = ';') : t = [] := by
  cases h with
  | word hw => rcases hc with rfl | rfl | rfl <;> exact absurd hw (by decide)
  | numeral hn => exact (Begins.not_numeral hn (by rcases hc with rfl | rfl | rfl <;> decide)).elim
  | quoted hq => rcases hc with rfl | rfl | rfl <;> exact absurd hq (by decide)
  | arrow ha => rcases hc with rfl | rfl | rfl <;> exact absurd ha (by decide)
  | sign _ ht => exact ht

/-! ## the scanner takes the longest -/

theorem longest_sign {c : Char} {s : Text} {lexeme : Lexeme} (h : lexeme.Spells [c])
    (hc : c = '\x7b' ∨ c = '\x7d' ∨ c = ';') : Longest (c :: s) lexeme s := by
  refine ⟨[c], rfl, h, fun l v t hv e => ?_⟩
  obtain ⟨d, u, rfl, hb⟩ := hv.begins
  have hd : c = d := (List.cons.inj e).1
  rw [(hd ▸ hb : Begins c u).sign_eq_nil hc]
  exact Nat.le_refl _

theorem longest_arrow (s : Text) : Longest ('-' :: '>' :: s) .arrow s := by
  refine ⟨['-', '>'], rfl, .arrow, fun l v t hv e => ?_⟩
  obtain ⟨d, u, rfl, hb⟩ := hv.begins
  obtain ⟨rfl, hu⟩ := List.cons.inj e
  cases hb with
  | word hc => exact absurd hc (by decide)
  | numeral h =>
    -- the sign of a numeral is followed by a digit or the point
    rcases h with h | ⟨w, e', hw⟩
    · exact absurd h UnsignedNumeral.not_minus
    · obtain ⟨c, x, rfl, hc⟩ := hw.head
      rw [(List.cons.inj e').2] at hu
      rw [← (List.cons.inj hu).1] at hc
      exact absurd hc (by decide)
  | quoted hc => exact absurd hc (by decide)
  | arrow _ ht =>
    subst ht
    exact Nat.le_refl _
  | sign hc => exact absurd hc (by decide)

theorem longest_quoted {s name rest : Text} (h : unquote? s = some (name, rest)) :
    Longest ('"' :: s) (.name name) rest := by
  obtain ⟨b, rfl, hq⟩ := unquote?_eq_some_iff.1 h
  refine ⟨'"' :: (b ++ ['"']), by simp, .quoted hq, fun l v t hv e => ?_⟩
  obtain ⟨d, u, rfl, hb⟩ := hv.begins
  obtain ⟨rfl, hu⟩ := List.cons.inj e
  cases hb with
  | word hc => exact absurd hc (by decide)
  | numeral hn => exact (Begins.not_numeral hn (by decide)).elim
  | quoted _ b' n ht hq' =>
    have hread := unquote?_of_quoted hq' t
    have hu : b ++ '"' :: rest = b' ++ '"' :: t := by simpa [ht] using hu
    rw [← hu, h] at hread
    have hrest : rest = t := (Prod.mk.inj (Option.some.inj hread)).2
    have hlen := congrArg List.length hu
    rw [ht]
    simp only [List.length_append, List.length_cons, List.length_nil, hrest] at hlen ⊢
    omega
  | arrow hc => exact absurd hc (by decide)
  | sign hc => exact absurd hc (by decide)

theorem spells_ofWord? {c : Char} {s : Text} {lexeme : Lexeme} (hc : isWordStart c = true)
    (hs : ∀ d ∈ s, isWordPart d = true) (h : ofWord? (c :: s) = some lexeme) :
    lexeme.Spells (c :: s) := by
  unfold ofWord? at h
  split at h
  next hd =>
    cases h
    exact .digraph hd
  · split at h
    · cases h
    next hk =>
      cases h
      exact .word hc hs (by simpa using hk)

theorem longest_word {c : Char} {s : Text} {lexeme : Lexeme} (hc : isWordStart c = true)
    (h : ofWord? (word (c :: s)).1 = some lexeme) :
    Longest (c :: s) lexeme (word (c :: s)).2 := by
  have hw : (word (c :: s)).1 = c :: s.takeWhile isWordPart :=
    List.takeWhile_cons_of_pos (isWordPart_of_isWordStart hc)
  have whole : c :: s = (word (c :: s)).1 ++ (word (c :: s)).2 :=
    List.takeWhile_append_dropWhile.symm
  have hspells : lexeme.Spells (word (c :: s)).1 := by
    rw [hw] at h ⊢
    exact spells_ofWord? hc (fun d hd => List.all_eq_true.1 List.all_takeWhile d hd) h
  refine ⟨_, whole, hspells, fun l v t hv e => ?_⟩
  obtain ⟨d, u, rfl, hb⟩ := hv.begins
  obtain ⟨rfl, -⟩ := List.cons.inj e
  cases hb with
  | word _ hu =>
    have hin : ∀ x ∈ c :: u, isWordPart x = true :=
      List.forall_mem_cons.2 ⟨isWordPart_of_isWordStart hc, hu⟩
    rw [e]
    exact length_le_takeWhile hin
  | numeral hn => rw [not_isWordStart_of_numeral hn] at hc; cases hc
  | quoted hq => rw [hq] at hc; exact absurd hc (by decide)
  | arrow ha => rw [ha] at hc; exact absurd hc (by decide)
  | sign hs => rcases hs with rfl | rfl | rfl <;> exact absurd hc (by decide)

theorem read?_longest {s rest : Text} {lexeme : Lexeme} (h : read? s = some (lexeme, rest)) :
    Longest s lexeme rest := by
  unfold read? at h
  split at h
  · cases h
  · cases h
    exact longest_sign .opening (.inl rfl)
  · cases h
    exact longest_sign .closing (.inr (.inl rfl))
  · cases h
    exact longest_sign .semicolon (.inr (.inr rfl))
  · cases h
    exact longest_arrow _
  · obtain ⟨r, hr, e⟩ := Option.map_eq_some_iff.1 h
    cases e
    exact longest_quoted hr
  next c s hopening hclosing hsemicolon harrow hquote =>
    split at h
    next hc =>
      obtain ⟨l, hl, e⟩ := Option.map_eq_some_iff.1 h
      cases e
      exact longest_word hc hl
    next hc =>
      obtain ⟨r, hr, e⟩ := Option.map_eq_some_iff.1 h
      cases e
      obtain ⟨same, hn⟩ := numeral?_sound hr
      refine ⟨_, same, .numeral hn, fun l v t hv e => ?_⟩
      obtain ⟨d, u, rfl, hb⟩ := hv.begins
      obtain ⟨rfl, hu⟩ := List.cons.inj e
      cases hb with
      | word hw => exact absurd hw hc
      | numeral hv =>
        obtain ⟨w, x, hw, hlen⟩ := numeral?_maximal hv t
        rw [← e, hr] at hw
        rw [(Option.some.inj hw : r = (w, x))]
        exact hlen
      | quoted hq => exact (hquote hq).elim
      | arrow ha ht => exact (harrow _ ha (by rw [hu, ht]; rfl)).elim
      | sign hs =>
        rcases hs with hs | hs | hs
        · exact (hopening hs).elim
        · exact (hclosing hs).elim
        · exact (hsemicolon hs).elim

/-! ## each lexeme is read as itself -/

/-- what may follow a name without becoming part of it -/
def Stops (rest : Text) : Prop := ∀ c, rest.head? = some c → isWordPart c = false ∧ c ≠ '.'

theorem stops_nil : Stops [] := by
  intro c hc
  cases hc

theorem ofWord?_of_not_isKeyword {w : Text} (h : isKeyword w = false) :
    ofWord? w = some (.name w) := by
  have hd : w.map Char.toLower ≠ "digraph".toList := by
    intro hd
    rw [isKeyword_of_digraph hd] at h
    cases h
  rw [ofWord?, if_neg hd, h]
  rfl

theorem read?_word {c : Char} {s rest : Text} (hc : isWordStart c = true)
    (hs : ∀ d ∈ s, isWordPart d = true) (hstop : Stops rest) :
    read? (c :: (s ++ rest)) = (ofWord? (c :: s)).map fun lexeme => (lexeme, rest) := by
  have hin : ∀ d ∈ c :: s, isWordPart d = true :=
    List.forall_mem_cons.2 ⟨isWordPart_of_isWordStart hc, hs⟩
  have hstop' : ∀ d, rest.head? = some d → isWordPart d = false := fun d hd => (hstop d hd).1
  have hw : word (c :: (s ++ rest)) = (c :: s, rest) :=
    Prod.ext (takeWhile_append_stop hin hstop') (dropWhile_append_stop hin hstop')
  unfold read?
  split
  next e => cases e
  next e => rw [(List.cons.inj e).1] at hc; exact absurd hc (by decide)
  next e => rw [(List.cons.inj e).1] at hc; exact absurd hc (by decide)
  next e => rw [(List.cons.inj e).1] at hc; exact absurd hc (by decide)
  next e => rw [(List.cons.inj e).1] at hc; exact absurd hc (by decide)
  next e => rw [(List.cons.inj e).1] at hc; exact absurd hc (by decide)
  next e =>
    obtain ⟨rfl, rfl⟩ := List.cons.inj e
    rw [if_pos hc, hw]

theorem read?_numeral {w rest : Text} (h : Numeral w) (hstop : Stops rest) :
    read? (w ++ rest) = some (.name w, rest) := by
  have hread : numeral? (w ++ rest) = some (w, rest) := by
    refine numeral?_of_numeral h fun c hc => ⟨?_, (hstop c hc).2⟩
    have := (hstop c hc).1
    rw [isWordPart, Bool.or_eq_false_iff] at this
    exact this.2
  obtain ⟨c, t, rfl, hc⟩ := h.head
  have hsign : ∀ d ∈ ['\x7b', '\x7d', ';', '"'], c ≠ d := by
    rintro d hd rfl
    exact Begins.not_numeral h hd
  unfold read?
  split
  next e => cases e
  next e => exact absurd (List.cons.inj e).1 (hsign _ (by decide))
  next e => exact absurd (List.cons.inj e).1 (hsign _ (by decide))
  next e => exact absurd (List.cons.inj e).1 (hsign _ (by decide))
  next s e =>
    -- no numeral goes on behind its sign with the head of the arrow
    rw [e] at hread
    exact absurd hread (by simp [numeral?, unsignedNumeral?, digits])
  next e => exact absurd (List.cons.inj e).1 (hsign _ (by decide))
  next e =>
    obtain ⟨rfl, rfl⟩ := List.cons.inj e
    rw [if_neg (by rw [not_isWordStart_of_numeral h]; decide)]
    rw [List.cons_append] at hread
    show Option.map _ (numeral? (c :: (t ++ rest))) = _
    rw [hread]
    rfl

/-- a lexeme is read whole where nothing follows that could belong to it -/
theorem read?_of_spells {lexeme : Lexeme} {w rest : Text} (h : lexeme.Spells w)
    (hstop : Stops rest) : read? (w ++ rest) = some (lexeme, rest) := by
  cases h with
  | digraph h =>
    obtain ⟨c, t, rfl, hb⟩ := (Spells.digraph h).begins
    have hw : ∀ d ∈ c :: t, isWordStart d = true := by
      intro d hd
      refine isWordStart_of_toLower ?_
      rw [← h]
      exact List.mem_map_of_mem hd
    have ht : ∀ d ∈ t, isWordPart d = true :=
      fun d hd => isWordPart_of_isWordStart (hw d (List.mem_cons_of_mem _ hd))
    rw [List.cons_append, read?_word (hw c List.mem_cons_self) ht hstop, ofWord?, if_pos h]
    rfl
  | opening => rfl
  | closing => rfl
  | arrow => rfl
  | semicolon => rfl
  | word hc hs hk =>
    rw [List.cons_append, read?_word hc hs hstop, ofWord?_of_not_isKeyword hk]
    rfl
  | numeral h => exact read?_numeral h hstop
  | @quoted b n h =>
    have hu := unquote?_of_quoted h rest
    rw [List.cons_append, List.append_assoc, List.singleton_append]
    show (unquote? (b ++ '"' :: rest)).map _ = _
    rw [hu]
    rfl

theorem Spells.unique {l m : Lexeme} {w : Text} (hl : l.Spells w) (hm : m.Spells w) : l = m := by
  have h := (read?_of_spells hl stops_nil).symm.trans (read?_of_spells hm stops_nil)
  exact (Prod.mk.inj (Option.some.inj h)).1

theorem Longest.unique {s r t : Text} {l m : Lexeme} (hl : Longest s l r) (hm : Longest s m t) :
    l = m ∧ r = t := by
  obtain ⟨v, hv, hsl, hmaxl⟩ := hl
  obtain ⟨w, hw, hsm, hmaxm⟩ := hm
  have hlen : v.length = w.length := Nat.le_antisymm (hmaxm l v r hsl hv) (hmaxl m w t hsm hw)
  obtain ⟨rfl, rfl⟩ := List.append_inj (hv.symm.trans hw) hlen
  exact ⟨hsl.unique hsm, rfl⟩

/-! ## texts as lexemes -/

theorem not_isGap_of_lt {c : Char} (h : 0x20 < c.toNat) : isGap c = false := by
  refine Bool.eq_false_iff.2 fun hg => ?_
  simp only [isGap, Bool.and_eq_true, decide_eq_true_eq] at hg
  have := (isBlank_iff_of_ascii hg.2).1 hg.1
  omega

theorem lt_of_isWordStart {c : Char} (h : isWordStart c = true) : 0x20 < c.toNat := by
  rcases (isWordStart_iff c).1 h with (ha | rfl) | hn
  · have := le_toNat_of_isAlpha ha
    omega
  · decide
  · omega

theorem Spells.not_isGap {l : Lexeme} {c : Char} {t : Text} (h : l.Spells (c :: t)) :
    isGap c = false := by
  obtain ⟨d, u, e, hb⟩ := h.begins
  rw [(List.cons.inj e).1]
  refine not_isGap_of_lt ?_
  cases hb with
  | word hd => exact lt_of_isWordStart hd
  | numeral hn =>
    obtain ⟨x, y, e, hx⟩ := hn.head
    rw [(List.cons.inj e).1]
    rcases hx with hx | rfl | rfl
    · have h0 : 48 ≤ x.toNat := (Char.isDigit_iff_toNat.1 hx).1
      omega
    · decide
    · decide
  | quoted hq => rw [hq]; decide
  | arrow ha => rw [ha]; decide
  | sign hs => rcases hs with rfl | rfl | rfl <;> decide

theorem Longest.head {s rest : Text} {l : Lexeme} (h : Longest s l rest) :
    ∃ c t, s = c :: t ∧ isGap c = false := by
  obtain ⟨w, rfl, hw, -⟩ := h
  obtain ⟨c, t, rfl, -⟩ := hw.begins
  exact ⟨c, t ++ rest, rfl, hw.not_isGap⟩

/-- a text as lexemes with white space around them, each lexeme the longest where it stands -/
inductive Lexes : Text → List Lexeme → Prop where
  | nil {gap : Text} (hgap : ∀ c ∈ gap, isGap c = true) : Lexes gap []
  | cons {gap s rest : Text} {lexeme : Lexeme} {lexemes : List Lexeme}
    (hgap : ∀ c ∈ gap, isGap c = true) (hs : Longest s lexeme rest) (h : Lexes rest lexemes) :
    Lexes (gap ++ s) (lexeme :: lexemes)

theorem readAll?_lexes {s : Text} {lexemes : List Lexeme} (h : readAll? s = some lexemes) :
    Lexes s lexemes := by
  fun_induction readAll? s generalizing lexemes with
  | case1 s hs =>
    cases h
    refine .nil fun c hc => ?_
    have whole := List.takeWhile_append_dropWhile (p := isGap) (l := s)
    rw [hs, List.append_nil] at whole
    rw [← whole] at hc
    exact List.all_eq_true.1 List.all_takeWhile c hc
  | case2 => cases h
  | case3 s c t hs lexeme rest hr ih =>
    obtain ⟨later, hl, e⟩ := Option.map_eq_some_iff.1 h
    cases e
    have whole := List.takeWhile_append_dropWhile (p := isGap) (l := s)
    rw [hs] at whole
    rw [← whole]
    exact .cons (fun c hc => List.all_eq_true.1 List.all_takeWhile c hc) (read?_longest hr) (ih hl)

/-- a text is lexemes in one way at most -/
theorem Lexes.unique {s : Text} {ls ms : List Lexeme} (hl : Lexes s ls) (hm : Lexes s ms) :
    ls = ms := by
  induction hl generalizing ms with
  | @nil gap hgap =>
    cases hm with
    | nil => rfl
    | @cons gap' s' rest m ms _ hs _ =>
      obtain ⟨c, t, rfl, hc⟩ := hs.head
      have := hgap c (List.mem_append_right _ List.mem_cons_self)
      rw [hc] at this
      cases this
  | @cons gap s rest l ls hgap hs _ ih =>
    obtain ⟨c, t, rfl, hc⟩ := hs.head
    have hstop : ∀ d, (c :: t).head? = some d → isGap d = false := by
      intro d hd
      rwa [← Option.some.inj hd]
    generalize e : gap ++ c :: t = whole at hm
    cases hm with
    | nil hgap' =>
      have := hgap' c (e ▸ List.mem_append_right _ List.mem_cons_self)
      rw [hc] at this
      cases this
    | @cons gap' s' rest' m ms hgap' hs' h' =>
      obtain ⟨c', t', rfl, hc'⟩ := hs'.head
      have hstop' : ∀ d, (c' :: t').head? = some d → isGap d = false := by
        intro d hd
        rwa [← Option.some.inj hd]
      have hsame : c :: t = c' :: t' := by
        rw [← dropWhile_append_stop hgap hstop, e, dropWhile_append_stop hgap' hstop']
      rw [← hsame] at hs'
      obtain ⟨rfl, rfl⟩ := hs.unique hs'
      rw [ih h']

end EdgeDot.Dot.Lexeme
