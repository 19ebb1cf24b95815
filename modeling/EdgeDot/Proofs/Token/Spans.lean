import EdgeDot.Proofs.Token.ByteSplitter

/-!
# Where tokens begin and end

The tokens of a text from a position on are its maximal runs of bytes that do not separate, each
told by the byte at which it begins and the one behind its end.  A splitter that is taken up at a
good position, or past the end, hands out what stands between these, and it can be taken up again
wherever it has got to.

* `TokenSpan`, `TokenSpans`        a maximal run of bytes, and all of them in order
* `passOver_token`                 what is found by passing over separators and then over a token
* `ByteSplitter.next_cases`        what a call makes of the runs that are left
* `Splitter.Of`                    splitters that their text and their position give again
* `Splitter.exists_spans`          calls one after the other
* `Splitter.tokens_from_position`  from any position of any text
-/

namespace EdgeDot

/-! ## runs of bytes -/

/-- whether a byte that does not separate stands at an index -/
def InToken (bytes : Bytes) (i : Nat) : Prop :=
  ∃ b, bytes[i]? = some b ∧ isSeparatorByte b = false

/-- a maximal run of bytes that do not separate, among those from a position on -/
structure TokenSpan (bytes : Bytes) (position start stop : Nat) : Prop where
  from_position : position ≤ start
  nonempty : start < stop
  inside : ∀ i, start ≤ i → i < stop → InToken bytes i
  left : start = position ∨ ¬ InToken bytes (start - 1)
  right : ¬ InToken bytes stop

/-- all maximal runs from a position on, in order -/
structure TokenSpans (bytes : Bytes) (position : Nat) (spans : List (Nat × Nat)) : Prop where
  ordered : spans.Pairwise fun a b => a.2 < b.1
  complete : ∀ start stop, (start, stop) ∈ spans ↔ TokenSpan bytes position start stop

section
variable {bytes : Bytes} {position start stop : Nat}

theorem TokenSpans.nil (h : ∀ i, position ≤ i → ¬ InToken bytes i) :
    TokenSpans bytes position [] where
  ordered := .nil
  complete start stop := by
    refine ⟨fun hm => absurd hm List.not_mem_nil, fun hspan => ?_⟩
    exact absurd (hspan.inside start (Nat.le_refl _) hspan.nonempty) (h start hspan.from_position)

/-- the first run, and those behind it -/
theorem TokenSpan.iff_first (hle : position ≤ start) (hlt : start < stop)
    (gap : ∀ i, position ≤ i → i < start → ¬ InToken bytes i)
    (token : ∀ i, start ≤ i → i < stop → InToken bytes i) (right : ¬ InToken bytes stop)
    (a b : Nat) : TokenSpan bytes position a b ↔
      (a = start ∧ b = stop) ∨ TokenSpan bytes stop a b := by
  constructor
  · intro h
    have ha : start ≤ a := by
      refine Nat.le_of_not_lt fun hbefore => ?_
      exact gap a h.from_position hbefore (h.inside a (Nat.le_refl a) h.nonempty)
    rcases Nat.eq_or_lt_of_le ha with rfl | hlater
    · left
      refine ⟨rfl, ?_⟩
      rcases Nat.lt_trichotomy b stop with hb | hb | hb
      · exact absurd (token b (Nat.le_of_lt h.nonempty) hb) h.right
      · exact hb
      · exact absurd (h.inside stop (Nat.le_of_lt hlt) hb) right
    · right
      have hleft : ¬ InToken bytes (a - 1) := h.left.resolve_left (by omega)
      have hstop : stop ≤ a := by
        refine Nat.le_of_not_lt fun hbefore => ?_
        exact hleft (token (a - 1) (by omega) (by omega))
      exact ⟨hstop, h.nonempty, h.inside, .inr hleft, h.right⟩
  · rintro (⟨rfl, rfl⟩ | h)
    · refine ⟨hle, hlt, token, ?_, right⟩
      rcases Nat.eq_or_lt_of_le hle with heq | hgap
      · exact .inl heq.symm
      · exact .inr (gap _ (by omega) (by omega))
    · have hle' := h.from_position
      refine ⟨by omega, h.nonempty, h.inside, .inr ?_, h.right⟩
      rcases h.left with rfl | hleft
      · exact absurd (h.inside a (Nat.le_refl a) h.nonempty) right
      · exact hleft

theorem TokenSpans.cons (right : ¬ InToken bytes stop)
    (hfirst : ∀ a b, TokenSpan bytes position a b ↔
      (a = start ∧ b = stop) ∨ TokenSpan bytes stop a b)
    {spans : List (Nat × Nat)} (h : TokenSpans bytes stop spans) :
    TokenSpans bytes position ((start, stop) :: spans) where
  ordered := by
    refine List.pairwise_cons.2 ⟨fun span hm => ?_, h.ordered⟩
    have hspan : TokenSpan bytes stop span.1 span.2 := (h.complete _ _).1 hm
    show stop < span.1
    refine Nat.lt_of_le_of_ne hspan.from_position fun heq => right ?_
    rw [heq]
    exact hspan.inside span.1 (Nat.le_refl _) hspan.nonempty
  complete a b := by
    rw [List.mem_cons, Prod.mk.injEq, h.complete, hfirst]

end

/-! ## passing over bytes -/

section
variable {kind : UInt8 → Bool} {bytes : Bytes} {position i : Nat}

theorem passOver_inside (hle : position ≤ i) (hlt : i < passOver kind bytes position) :
    ∃ b, bytes[i]? = some b ∧ kind b = true := by
  have hi : i - position < ((bytes.drop position).takeWhile kind).length := by
    rw [passOver] at hlt
    omega
  have hstart : (bytes.drop position).takeWhile kind <+: bytes.drop position :=
    List.takeWhile_prefix kind
  have hget := hstart.getElem hi
  refine ⟨_, ?_, List.all_eq_true.1 List.all_takeWhile _ (List.getElem_mem hi)⟩
  rw [hget, ← List.getElem?_eq_getElem, List.getElem?_drop, Nat.add_sub_cancel' hle]

theorem passOver_stop {b : UInt8} (h : bytes[passOver kind bytes position]? = some b) :
    kind b = false := by
  let front := (bytes.drop position).takeWhile kind
  let back := (bytes.drop position).dropWhile kind
  have hget : bytes[passOver kind bytes position]? = back.head? := calc
    bytes[passOver kind bytes position]? = (bytes.drop position)[front.length]? := by
      rw [List.getElem?_drop]
      rfl
    _ = (front ++ back)[front.length]? := by rw [List.takeWhile_append_dropWhile]
    _ = back.head? := by
      rw [List.getElem?_append_right (Nat.le_refl _), Nat.sub_self, List.head?_eq_getElem?]
  have hnot := List.head?_dropWhile_not kind (bytes.drop position)
  rw [← hget, h] at hnot
  exact hnot

/-- a token is found behind the separators, and it ends before the next one -/
theorem passOver_token (bytes : Bytes) (position : Nat) :
    let start := passOver isSeparatorByte bytes position
    let stop := passOver (!isSeparatorByte ·) bytes start
    position ≤ start ∧ start ≤ stop ∧
      (∀ i, position ≤ i → i < start → ¬ InToken bytes i) ∧
      (∀ i, start ≤ i → i < stop → InToken bytes i) ∧ ¬ InToken bytes stop ∧
      (start = stop → ∀ i, position ≤ i → ¬ InToken bytes i) := by
  intro start stop
  have hgap : ∀ i, position ≤ i → i < start → ¬ InToken bytes i := by
    rintro i hle hlt ⟨b, hb, hin⟩
    obtain ⟨b', hb', hsep⟩ := passOver_inside hle hlt
    rw [hb] at hb'
    rw [Option.some.inj hb', hsep] at hin
    cases hin
  have hright : ¬ InToken bytes stop := by
    rintro ⟨b, hb, hin⟩
    have hnot : (!isSeparatorByte b) = false := passOver_stop hb
    rw [hin] at hnot
    cases hnot
  refine ⟨Nat.le_add_right _ _, Nat.le_add_right _ _, hgap, ?_, hright, ?_⟩
  · intro i hle hlt
    obtain ⟨b, hb, hin⟩ := passOver_inside hle hlt
    exact ⟨b, hb, by simpa using hin⟩
  · -- what ends no gap and begins no token is the end
    intro heq i hle hin
    have hend : bytes[start]? = none := by
      refine Option.eq_none_iff_forall_ne_some.2 fun b hb => ?_
      exact hright (heq ▸ ⟨b, hb, passOver_stop hb⟩)
    rcases Nat.lt_or_ge i start with hbefore | hafter
    · exact hgap i hle hbefore hin
    · obtain ⟨b, hb, -⟩ := hin
      rw [List.getElem?_eq_none (Nat.le_trans (List.getElem?_eq_none_iff.1 hend) hafter)] at hb
      cases hb

end

/-! ## one call -/

namespace ByteSplitter

/-- a call that has no answer if it slices where no slice is legal -/
def next? (t : ByteSplitter) : Option (Option Text × ByteSplitter) :=
  let call := t.next
  if call.2.legal = true then some call else none

def isAtEnd? (t : ByteSplitter) : Option Bool := t.next?.map fun call => call.1.isNone

end ByteSplitter

/-- the next run of a text is handed out and passed over, or none is left -/
theorem ByteSplitter.next_cases {t : ByteSplitter} (hlegal : t.next.2.legal = true) :
    (t.next.1 = none ∧ ∀ i, t.position ≤ i → ¬ InToken t.text.encode i) ∨
      ∃ (start : Nat) (token : Text), t.next.1 = some token ∧
        t.text.slice? start t.next.2.position = some token ∧
        ¬ InToken t.text.encode t.next.2.position ∧
        ∀ a b, TokenSpan t.text.encode t.position a b ↔
          (a = start ∧ b = t.next.2.position) ∨ TokenSpan t.text.encode t.next.2.position a b := by
  obtain ⟨hle, hlt, hgap, htoken, hright, hnone⟩ := passOver_token t.text.encode t.position
  rw [next] at hlegal ⊢
  split
  next heq => exact .inl ⟨rfl, hnone heq⟩
  next hne =>
    rw [if_neg hne] at hlegal
    right
    cases hslice : t.text.slice? _ _ with
    | none =>
      rw [hslice] at hlegal
      cases hlegal
    | some token =>
      exact ⟨_, token, rfl, hslice, hright,
        TokenSpan.iff_first hle (Nat.lt_of_le_of_ne hlt hne) hgap htoken hright⟩

/-- a byte inside a character does not separate -/
theorem inToken_inside (before after : Text) {c : Char} {k : Nat} (hpos : 0 < k)
    (hk : k < c.utf8Size) : InToken (before ++ c :: after).encode (before.byteLength + k) := by
  have hlen : (String.utf8EncodeChar c).length = c.utf8Size := String.length_utf8EncodeChar c
  have hwide : 0x80 ≤ c.toNat := by
    refine Nat.le_of_not_lt fun hascii => ?_
    rw [utf8EncodeChar_of_lt hascii] at hlen
    rw [← hlen, List.length_singleton] at hk
    omega
  obtain ⟨b, hb⟩ : ∃ b, (String.utf8EncodeChar c)[k]? = some b :=
    ⟨_, List.getElem?_eq_getElem (by rwa [hlen])⟩
  refine ⟨b, ?_, ?_⟩
  · rw [Text.encode_append, ← Text.length_encode, List.getElem?_append_right (Nat.le_add_right _ _),
      Nat.add_sub_cancel_left, Text.encode_cons, List.getElem?_append_left (by rwa [hlen]), hb]
  · have hge := le_of_mem_utf8EncodeChar hwide b (List.mem_of_getElem? hb)
    rw [isSeparatorByte, decide_eq_false_iff_not]
    omega

/-- from inside a character no token can be sliced out of the text -/
theorem ByteSplitter.next?_inside {s : Text} {position : Nat} (h : s.isBoundary position = false)
    (hlt : position < s.byteLength) : next? { text := s, position } = none := by
  obtain ⟨hle, -, hgap, -, -, hnone⟩ := passOver_token s.encode position
  have hin : InToken s.encode position := by
    obtain ⟨before, after, c, k, rfl, rfl, hpos, hk⟩ := Text.exists_inside h hlt
    exact inToken_inside before after hpos hk
  have hstart : passOver isSeparatorByte s.encode position = position := by
    refine Nat.le_antisymm (Nat.le_of_not_lt fun hgt => ?_) hle
    exact hgap position (Nat.le_refl _) hgt hin
  rw [hstart] at hnone
  have hslice : ∀ stop, s.slice? position stop = none := by
    intro stop
    rw [Text.slice?, if_neg]
    rintro ⟨-, hgood, -⟩
    rw [h] at hgood
    cases hgood
  rw [next?, next]
  dsimp only
  rw [hstart, if_neg fun heq => hnone heq position (Nat.le_refl _) hin, hslice]
  exact if_neg Bool.false_ne_true

/-! ## calls one after the other -/

/-- a stream some calls later -/
def TokenStream.after {σ : Type} [TokenStream σ] (stream : σ) : Nat → σ
  | 0 => stream
  | calls + 1 => after (next stream).2 calls

theorem StreamMap.after {σ τ : Type} [TokenStream σ] [TokenStream τ] {P : σ → Prop} {f : σ → τ}
    (hf : StreamMap P f) {stream : σ} (h : P stream) (calls : Nat) :
    TokenStream.after (f stream) calls = f (TokenStream.after stream calls) ∧
      P (TokenStream.after stream calls) := by
  induction calls generalizing stream with
  | zero => exact ⟨rfl, h⟩
  | succ calls ih =>
    have hlater := ih (hf.keeps stream h)
    rw [TokenStream.after, hf.next_map stream h]
    exact hlater

namespace Splitter
variable {s : Text} {t : Splitter}

/-- a splitter that a text gives at the position of the splitter -/
def Of (s : Text) (t : Splitter) : Prop := at? s t.position = some t

theorem On.of (h : t.On s) : t.Of s := h.at?_eq

/-- such a splitter is inside its text, or past the end -/
theorem Of.cases (h : t.Of s) : t.On s ∨ (t.rest = [] ∧ s.byteLength ≤ t.position) := by
  rw [Of, at?] at h
  cases hgood : s.isBoundary t.position with
  | true =>
    obtain ⟨before, after, hs, hpos⟩ := Text.isBoundary_iff.1 hgood
    rw [← hpos, hs, Text.dropBytes?_byteLength] at h
    have hrest : after = t.rest := congrArg rest (Option.some.inj h)
    exact .inl ⟨before, hrest ▸ hs, hpos.symm⟩
  | false =>
    right
    rcases Nat.lt_or_ge t.position s.byteLength with hlt | hge
    · obtain ⟨before, after, c, k, hs, hpos, hk, hkc⟩ := Text.exists_inside hgood hlt
      rw [hpos, hs, Text.dropBytes?_inside before after hk hkc] at h
      cases h
    · rw [Text.dropBytes?_of_le hge] at h
      exact ⟨(congrArg rest (Option.some.inj h)).symm, hge⟩

/-- past the end nothing is left, and nothing moves -/
theorem next_of_nil (h : t.rest = []) : t.next = (none, t) := by
  have ht : t = ⟨t.position, []⟩ := by rw [← h]
  rw [next, h]
  show (none, Splitter.mk t.position []) = (none, t)
  rw [← ht]

theorem Of.next (h : t.Of s) : t.next.2.Of s := by
  rcases h.cases with hon | ⟨hrest, -⟩
  · exact hon.next.of
  · rw [next_of_nil hrest]
    exact h

theorem Of.end_eq (h : t.Of s) :
    t.position + t.rest.byteLength = max t.position s.byteLength := by
  rcases h.cases with ⟨before, hs, hpos⟩ | ⟨hrest, hpast⟩
  · rw [hs, Text.byteLength_append, ← hpos]
    exact (Nat.max_eq_right (Nat.le_add_right _ _)).symm
  · rw [hrest, Text.byteLength_nil, Nat.add_zero, Nat.max_eq_left hpast]

/-- the bytes are passed over as the characters are, also past the end -/
theorem streamMap_of (s : Text) : StreamMap (Of s) (ByteSplitter.ofSplitter s) where
  keeps _ h := h.next
  next_map t h := by
    rcases h.cases with hon | ⟨hrest, hpast⟩
    · exact ByteSplitter.next_ofSplitter hon
    · have hnone : ∀ kind, passOver kind s.encode t.position = t.position := by
        intro kind
        rw [passOver, List.drop_eq_nil_of_le (by rwa [Text.length_encode])]
        rfl
      show (ByteSplitter.ofSplitter s t).next = (t.next.1, ByteSplitter.ofSplitter s t.next.2)
      rw [next_of_nil hrest, ByteSplitter.next, ByteSplitter.ofSplitter]
      dsimp only
      rw [hnone, hnone, if_pos rfl]

theorem Of.next_eq (h : t.Of s) :
    (ByteSplitter.ofSplitter s t).next = (t.next.1, .ofSplitter s t.next.2) :=
  (streamMap_of s).next_map t h

theorem Of.next?_eq (h : t.Of s) : (ByteSplitter.ofSplitter s t).next? =
    some (t.next.1, .ofSplitter s t.next.2) := by
  rw [ByteSplitter.next?, h.next_eq]
  exact if_pos rfl

/-- the next run of a text is handed out and passed over, or none is left -/
theorem Of.next_cases (h : t.Of s) :
    (t.next.1 = none ∧ ∀ i, t.position ≤ i → ¬ InToken s.encode i) ∨
      ∃ (start : Nat) (token : Text), t.next.1 = some token ∧
        s.slice? start t.next.2.position = some token ∧
        ¬ InToken s.encode t.next.2.position ∧
        ∀ a b, TokenSpan s.encode t.position a b ↔
          (a = start ∧ b = t.next.2.position) ∨ TokenSpan s.encode t.next.2.position a b := by
  have hlegal : (ByteSplitter.ofSplitter s t).next.2.legal = true := by
    rw [h.next_eq]
    rfl
  have hcases := ByteSplitter.next_cases hlegal
  rw [h.next_eq] at hcases
  exact hcases

theorem Of.isAtEnd_iff (h : t.Of s) :
    t.isAtEnd = true ↔ ∀ i, t.position ≤ i → ¬ InToken s.encode i := by
  rw [isAtEnd, Option.isNone_iff_eq_none]
  rcases h.next_cases with ⟨hnone, hout⟩ | ⟨start, token, hsome, -, -, hspans⟩
  · exact iff_of_true hnone hout
  · have hspan := (hspans start t.next.2.position).2 (.inl ⟨rfl, rfl⟩)
    refine iff_of_false (by rw [hsome]; exact Option.some_ne_none token) fun hout => ?_
    exact hout start hspan.from_position (hspan.inside start (Nat.le_refl _) hspan.nonempty)

/-- what a call gives where a run comes next: its text, and the position behind it, where a
character begins or the text ends; where none comes next, nothing and the last position -/
def Gives (s : Text) (last : Nat) (t : Splitter) : Option (Nat × Nat) → Prop
  | some (start, stop) =>
    ∃ token, t.next.1 = some token ∧ s.slice? start stop = some token ∧
      t.next.2.position = stop ∧ s.isBoundary stop = true
  | none => t.next.1 = none ∧ t.next.2.position = last

theorem length_after (t : Splitter) (calls : Nat) :
    (TokenStream.after t calls).position + (TokenStream.after t calls).rest.byteLength =
      t.position + t.rest.byteLength := by
  induction calls generalizing t with
  | zero => rfl
  | succ calls ih => exact (ih t.next.2).trans t.length_next_snd

/-- where nothing is left, nothing ever will be -/
theorem next_after_of_none (h : t.next.1 = none) (calls : Nat) :
    (TokenStream.after t calls).next.1 = none := by
  induction calls generalizing t with
  | zero => exact h
  | succ calls ih => exact ih (congrArg Prod.fst (next_of_nil (rest_next_snd_of_none h)))

theorem Of.exists_spans (h : t.Of s) {last : Nat} (hlast : t.position + t.rest.byteLength = last) :
    ∃ spans, TokenSpans s.encode t.position spans ∧
      ∀ calls, (TokenStream.after t calls).Gives s last spans[calls]? := by
  induction hn : t.rest.length using Nat.strongRecOn generalizing t with
  | _ n ih =>
    rcases h.next_cases with ⟨hnone, hout⟩ | ⟨start, token, hsome, hslice, hright, hspans⟩
    · refine ⟨[], .nil hout, fun calls => ⟨next_after_of_none hnone calls, ?_⟩⟩
      have hend := position_next_snd_of_none (next_after_of_none hnone calls)
      exact hend.trans ((t.length_after calls).trans hlast)
    · have hlt : t.next.2.rest.length < n := hn ▸ Cut.length_rest_lt hsome
      obtain ⟨spans, hlater, hgives⟩ := ih _ hlt h.next (t.length_next_snd.trans hlast) rfl
      refine ⟨(start, t.next.2.position) :: spans, hlater.cons hright hspans, fun calls => ?_⟩
      cases calls with
      | zero => exact ⟨token, hsome, hslice, rfl, (Text.isBoundary_of_slice? hslice).2⟩
      | succ calls => exact hgives calls

/-- draining a splitter gathers what the calls give one after the other -/
theorem getElem?_drain (t : Splitter) (calls : Nat) :
    t.drain.1[calls]? = (TokenStream.after t calls).next.1.map fun token =>
      (token, (TokenStream.after t calls).next.2) := by
  fun_induction drain t generalizing calls with
  | case1 t hnone =>
    rw [next_after_of_none hnone]
    rfl
  | case2 t token hsome later ih =>
    cases calls with
    | zero =>
      show some (token, t.next.2) = t.next.1.map _
      rw [hsome]
      rfl
    | succ calls => exact ih calls

/-- A splitter that is taken up at a good position of a text, or past its end, hands out the
maximal runs of bytes that do not separate from there on, in order, each sliced out of the text at
good positions.  Its position is the end of the run each time, and the end of the text, or the
position of the start if that is past it, once none is left.  Before each call it is at its end if
and only if no such byte is left, and it can be rebuilt from its position; a splitter of bytes
answers as it does.  From inside a character there is no splitter, and a splitter of bytes has no
answer to its first call, whichever it is. -/
theorem tokens_from_position (s : Text) (p : Nat) :
    let start : ByteSplitter := { text := s, position := p }
    if s.isBoundary p = true ∨ s.byteLength ≤ p then
      ∃ (t : Splitter) (spans : List (Nat × Nat)), at? s p = some t ∧ t.position = p ∧
        TokenSpans s.encode p spans ∧
        ∀ calls,
          let now := TokenStream.after t calls
          let byBytes := TokenStream.after start calls
          now.Gives s (max p s.byteLength) spans[calls]? ∧
          (now.isAtEnd = true ↔ ∀ i, now.position ≤ i → ¬ InToken s.encode i) ∧
          at? s now.position = some now ∧
          byBytes.next? = some (now.next.1, .ofSplitter s now.next.2) ∧
          byBytes.isAtEnd? = some now.isAtEnd ∧
          t.drain.1[calls]? = now.next.1.map fun token => (token, now.next.2)
    else at? s p = none ∧ start.next? = none ∧ start.isAtEnd? = none := by
  intro start
  split
  next hgood =>
    obtain ⟨rest, hdrop⟩ : ∃ rest, s.dropBytes? p = some rest := by
      rcases hgood with hgood | hpast
      · obtain ⟨before, after, rfl, rfl⟩ := Text.isBoundary_iff.1 hgood
        exact ⟨after, Text.dropBytes?_byteLength before after⟩
      · exact ⟨[], Text.dropBytes?_of_le hpast⟩
    have hat : at? s p = some ⟨p, rest⟩ := by rw [at?, hdrop, Option.map_some]
    have hof : (Splitter.mk p rest).Of s := hat
    obtain ⟨spans, hspans, hgives⟩ := hof.exists_spans hof.end_eq
    refine ⟨⟨p, rest⟩, spans, hat, rfl, hspans, fun calls => ?_⟩
    obtain ⟨hbytes, hnow⟩ := (streamMap_of s).after hof calls
    have hnext : (TokenStream.after start calls).next? = _ :=
      (congrArg ByteSplitter.next? hbytes).trans hnow.next?_eq
    refine ⟨hgives calls, hnow.isAtEnd_iff, hnow, hnext, ?_, getElem?_drain _ calls⟩
    rw [ByteSplitter.isAtEnd?, hnext]
    rfl
  next hbad =>
    obtain ⟨hinside, hshort⟩ := not_or.1 hbad
    have hin : s.isBoundary p = false := Bool.eq_false_iff.2 hinside
    have hlt : p < s.byteLength := Nat.not_le.1 hshort
    have hnext : start.next? = none := ByteSplitter.next?_inside hin hlt
    refine ⟨?_, hnext, by rw [ByteSplitter.isAtEnd?, hnext, Option.map_none]⟩
    obtain ⟨before, after, c, k, hs, hp, hpos, hk⟩ := Text.exists_inside hin hlt
    rw [at?, hs, hp, Text.dropBytes?_inside before after hpos hk, Option.map_none]

example : (at? "éb c".toList 2).isSome = true ∧ (at? "éb c".toList 1).isSome = false := by
  decide

end Splitter

end EdgeDot
