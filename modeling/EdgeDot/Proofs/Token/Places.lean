import EdgeDot.Proofs.Token.Runs

/-!
# Where the tokens of a text stand

A token stands at a place of its text: between separators, or at an end of the text.  The place
is said here without a splitter, and a splitter that has passed some tokens finds the next one
there and stops right behind it.

* `Text.HasToken`               the place of the token of a number, counted from zero
* `Text.HasToken.getElem?_runs` the token of that number is there
* `Text.HasToken.unique`        and nowhere else
* `Splitter.Passed.hasToken`    a splitter stops behind the token that it hands out
-/

namespace EdgeDot

/-- the token with `n` tokens before it, and what is on both sides of it -/
structure Text.HasToken (s : Text) (n : Nat) (before token after : Text) : Prop where
  text : s = before ++ (token ++ after)
  number : (runs isSeparator before).length = n
  nonempty : token ≠ []
  inside : ∀ c ∈ token, isSeparator c = false
  left : ∀ c, before.getLast? = some c → isSeparator c = true
  right : ∀ c, after.head? = some c → isSeparator c = true

namespace Text.HasToken
variable {s before token after before' token' after' : Text} {n : Nat}

theorem runs_eq (h : s.HasToken n before token after) :
    runs isSeparator s = runs isSeparator before ++ token :: runs isSeparator after := by
  rw [h.text, runs_append_of_apart h.left, runs_append_of_token h.nonempty h.inside h.right]

theorem getElem?_runs (h : s.HasToken n before token after) :
    (runs isSeparator s)[n]? = some token := by
  rw [h.runs_eq, ← h.number, List.getElem?_append_right (Nat.le_refl _), Nat.sub_self,
    List.getElem?_cons_zero]

/-- what follows a token is found by going over the characters that do not separate -/
theorem dropWhile_eq (h : s.HasToken n before token after) :
    (token ++ after).dropWhile (fun c => !isSeparator c) = after := by
  have hpass : ∀ c ∈ token, (!isSeparator c) = true := fun c hc => by rw [h.inside c hc]; rfl
  rw [List.dropWhile_append_of_pos hpass]
  cases hafter : after with
  | nil => rfl
  | cons c rest =>
    have hc : isSeparator c = true := h.right c (by rw [hafter, List.head?_cons])
    exact List.dropWhile_cons_of_neg (by rw [hc]; exact Bool.false_ne_true)

/-- a token of a number does not stand further to the right than another one of that number -/
theorem length_le (h : s.HasToken n before token after) (h' : s.HasToken n before' token' after') :
    before'.length ≤ before.length := by
  refine Nat.le_of_not_lt fun hlt => ?_
  rcases List.append_eq_append_iff.1 (h.text.symm.trans h'.text) with ⟨gap, hb, ht⟩ | ⟨gap, hb, -⟩
  · have hgap : gap ≠ [] := by
      rintro rfl
      rw [hb, List.append_nil] at hlt
      exact Nat.lt_irrefl _ hlt
    rcases List.append_eq_append_iff.1 ht with ⟨rest, hg, ha⟩ | ⟨rest, hg, -⟩
    · -- the whole token would be one of those before the other
      have hrest : ∀ c, rest.head? = some c → isSeparator c = true := by
        intro c hc
        refine h.right c ?_
        rw [ha, List.head?_append, hc, Option.some_or]
      have hcount := h'.number
      rw [hb, runs_append_of_apart h.left, hg, runs_append_of_token h.nonempty h.inside hrest,
        List.length_append, List.length_cons, h.number] at hcount
      omega
    · -- the other one would begin inside the token
      obtain ⟨init, c, hc⟩ := (List.eq_nil_or_concat gap).resolve_left hgap
      rw [List.concat_eq_append] at hc
      have hsep : isSeparator c = true := by
        refine h'.left c ?_
        rw [hb, hc, ← List.append_assoc, List.getLast?_concat]
      have hmem : c ∈ token := by
        rw [hg, hc]
        exact List.mem_append_left _ (List.mem_append_right _ List.mem_cons_self)
      rw [h.inside c hmem] at hsep
      cases hsep
  · rw [hb, List.length_append] at hlt
    omega

theorem unique (h : s.HasToken n before token after) (h' : s.HasToken n before' token' after') :
    before = before' ∧ token = token' ∧ after = after' := by
  have hlen : before.length = before'.length := Nat.le_antisymm (h'.length_le h) (h.length_le h')
  obtain ⟨hbefore, hrest⟩ := List.append_inj (h.text.symm.trans h'.text) hlen
  have hafter : after = after' := by rw [← h.dropWhile_eq, hrest, h'.dropWhile_eq]
  rw [hafter] at hrest
  exact ⟨hbefore, List.append_cancel_right hrest, hafter⟩

end Text.HasToken

/-! ## splitters -/

theorem Cut.token_of_some {separates : Char → Bool} {s token : Text}
    (h : (of separates s).token? = some token) : (of separates s).token = token ∧ token ≠ [] := by
  have hne : (of separates s).token ≠ [] := by
    intro hempty
    rw [token?, hempty] at h
    cases h
  rw [token?, if_neg (by rwa [List.isEmpty_iff])] at h
  exact ⟨Option.some.inj h, Option.some.inj h ▸ hne⟩

/-- a splitter that has handed out `n` tokens of a text and stands right behind the last -/
def Splitter.Passed (s : Text) (n : Nat) (t : Splitter) : Prop :=
  ∃ before : Text, s = before ++ t.rest ∧ t.position = before.byteLength ∧
    (runs isSeparator before).length = n ∧
    (before = [] ∨ ∀ c, t.rest.head? = some c → isSeparator c = true)

theorem Text.HasToken.passed {s before token : Text} {n : Nat} {t : Splitter}
    (h : s.HasToken n before token t.rest) (ht : t.position = (before ++ token).byteLength) :
    t.Passed s (n + 1) := by
  have hend : ∀ c, ([] : Text).head? = some c → isSeparator c = true := fun c hc => by cases hc
  have hruns := runs_append_of_token h.nonempty h.inside hend
  rw [List.append_nil, runs_nil] at hruns
  refine ⟨before ++ token, ?_, ht, ?_, .inr h.right⟩
  · rw [h.text, List.append_assoc]
  · rw [runs_append_of_apart h.left, hruns, List.length_append, h.number]
    rfl

namespace Splitter.Passed
variable {s token : Text} {n : Nat} {t : Splitter}

theorem ofText (s : Text) : (Splitter.ofText s).Passed s 0 :=
  ⟨[], rfl, rfl, by rw [runs_nil]; rfl, .inl rfl⟩

/-- between two tokens there is a separator: without one they would be a single token -/
theorem gap_separates {before gap token rest : Text} {c : Char}
    (hgap : ∀ c ∈ gap, isSeparator c = true) (hne : token ≠ [])
    (hinside : ∀ c ∈ token, isSeparator c = false)
    (hapart : before = [] ∨ ∀ c, (gap ++ (token ++ rest)).head? = some c → isSeparator c = true)
    (hc : (before ++ gap).getLast? = some c) : isSeparator c = true := by
  rcases List.eq_nil_or_concat gap with rfl | ⟨front, last, rfl⟩
  · rw [List.append_nil] at hc
    rcases hapart with rfl | hhead
    · cases hc
    · obtain ⟨x, more, rfl⟩ := List.exists_cons_of_ne_nil hne
      have hx : isSeparator x = true := hhead x rfl
      rw [hinside x List.mem_cons_self] at hx
      cases hx
  · rw [List.concat_eq_append, ← List.append_assoc, List.getLast?_concat] at hc
    refine hgap c ?_
    rw [List.concat_eq_append, ← Option.some.inj hc]
    exact List.mem_append_right _ List.mem_cons_self

/-- the next token is the one of the next number, and the splitter stops behind it -/
theorem hasToken (h : t.Passed s n) (hnext : t.next.1 = some token) :
    ∃ before : Text, s.HasToken n before token t.next.2.rest ∧
      t.next.2.position = (before ++ token).byteLength := by
  obtain ⟨before, hs, hpos, hnumber, hapart⟩ := h
  let cut := Cut.of isSeparator t.rest
  have hwhole : cut.gap ++ (cut.token ++ cut.rest) = t.rest := Cut.append_eq isSeparator t.rest
  obtain ⟨htoken, hne⟩ := Cut.token_of_some (hnext : cut.token? = some token)
  have hgap : ∀ c ∈ cut.gap, isSeparator c = true :=
    fun c hc => List.all_eq_true.1 List.all_takeWhile c hc
  have hinside : ∀ c ∈ token, isSeparator c = false :=
    fun c hc => Cut.token_not_separates (htoken.symm ▸ hc)
  rw [← hwhole, htoken] at hs hapart
  refine ⟨before ++ cut.gap, ?_, ?_⟩
  · exact {
      text := hs.trans (List.append_assoc ..).symm
      number := by rw [runs_append_gap hgap, hnumber]
      nonempty := hne
      inside := hinside
      left := fun c => gap_separates hgap hne hinside hapart
      right := fun c => Cut.rest_head }
  · show t.position + Text.byteLength cut.gap + Text.byteLength cut.token = _
    rw [htoken, hpos, Text.byteLength_append, Text.byteLength_append]

end Splitter.Passed

end EdgeDot
