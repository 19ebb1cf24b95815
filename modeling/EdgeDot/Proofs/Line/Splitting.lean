import EdgeDot.Line.Source

/-!
# Cutting into lines

A line ends with its line feed and holds no other; only the last line may lack it.

* `splitLines_append`          the first line ends with the first line feed
* `splitLines_cases`           what a text can look like at its front
* `splitLines_flatten_drop`    the lines that are left are the lines of the bytes that are left
* `getLast?_of_splitLines_eq`  a line that is followed by another ends with its line feed
* `lineFeed_not_mem_dropLast`  and no line has one before its end
-/

namespace EdgeDot

theorem splitLines_cons_of_ne {b : UInt8} (h : b ≠ lineFeed) (bytes : Bytes) :
    splitLines (b :: bytes) = match splitLines bytes with
      | [] => [[b]]
      | line :: lines => (b :: line) :: lines := by
  show (if b = lineFeed then _ else _) = _
  rw [if_neg h]
  rfl

theorem splitLines_append {body : Bytes} (h : lineFeed ∉ body) (rest : Bytes) :
    splitLines (body ++ lineFeed :: rest) = (body ++ [lineFeed]) :: splitLines rest := by
  induction body with
  | nil => exact splitLines_cons_lineFeed rest
  | cons b body ih =>
    have hb : b ≠ lineFeed := fun e => h (e ▸ List.mem_cons_self)
    rw [List.cons_append, splitLines_cons_of_ne hb, ih fun hm => h (List.mem_cons_of_mem _ hm)]
    rfl

theorem splitLines_of_not_mem {body : Bytes} (hne : body ≠ []) (h : lineFeed ∉ body) :
    splitLines body = [body] := by
  induction body with
  | nil => exact absurd rfl hne
  | cons b body ih =>
    have hb : b ≠ lineFeed := fun e => h (e ▸ List.mem_cons_self)
    rw [splitLines_cons_of_ne hb]
    by_cases hbody : body = []
    · rw [hbody]
      rfl
    · rw [ih hbody fun hm => h (List.mem_cons_of_mem _ hm)]

/-- the front of some bytes: nothing, a last line without line feed, or a whole line -/
inductive Front (bytes : Bytes) : Prop where
  | nil (h : bytes = []) (hl : splitLines bytes = [])
  | last (hne : bytes ≠ []) (h : lineFeed ∉ bytes) (hl : splitLines bytes = [bytes])
  | line (body rest : Bytes) (h : lineFeed ∉ body) (hb : bytes = body ++ lineFeed :: rest)
    (hl : splitLines bytes = (body ++ [lineFeed]) :: splitLines rest)

theorem splitLines_cases (bytes : Bytes) : Front bytes := by
  by_cases hne : bytes = []
  · exact .nil hne (by rw [hne]; rfl)
  by_cases h : lineFeed ∈ bytes
  · obtain ⟨body, rest, hb, hn⟩ := List.eq_append_cons_of_mem h
    exact .line body rest hn hb (hb ▸ splitLines_append hn rest)
  · exact .last hne h (splitLines_of_not_mem hne h)

theorem splitLines_flatten_drop (n : Nat) (bytes : Bytes) :
    splitLines ((splitLines bytes).drop n).flatten = (splitLines bytes).drop n := by
  induction n generalizing bytes with
  | zero => rw [List.drop_zero, flatten_splitLines]
  | succ n ih =>
    cases splitLines_cases bytes with
    | nil _ hl => rw [hl]; rfl
    | last _ _ hl => rw [hl]; simp [splitLines_nil]
    | line body rest _ _ hl => rw [hl, List.drop_succ_cons, ih]

/-- a line that is followed by another ends with its line feed -/
theorem getLast?_of_splitLines_eq {bytes line next : Bytes} {front back : List Bytes}
    (h : splitLines bytes = front ++ line :: next :: back) : line.getLast? = some lineFeed := by
  induction front generalizing bytes with
  | nil =>
    cases splitLines_cases bytes with
    | nil _ hl => rw [hl] at h; cases h
    | last _ _ hl => rw [hl] at h; cases h
    | line body rest _ _ hl =>
      rw [hl] at h
      rw [← (List.cons.inj h).1, List.getLast?_concat]
  | cons first front ih =>
    cases splitLines_cases bytes with
    | nil _ hl => rw [hl] at h; cases h
    | last _ _ hl =>
      rw [hl] at h
      have := (List.cons.inj h).2
      simp at this
    | line body rest _ _ hl =>
      rw [hl] at h
      exact ih (List.cons.inj h).2

/-- only the last byte of a line can be a line feed -/
theorem lineFeed_not_mem_dropLast {bytes line : Bytes} (h : line ∈ splitLines bytes) :
    lineFeed ∉ line.dropLast := by
  induction hl : splitLines bytes generalizing bytes with
  | nil =>
    rw [hl] at h
    cases h
  | cons first lines ih =>
    rw [hl] at h
    cases splitLines_cases bytes with
    | nil _ hs => rw [hs] at hl; cases hl
    | last _ hbody hs =>
      rw [hs] at hl
      cases hl
      rw [List.mem_singleton] at h
      rw [h]
      exact fun hm => hbody (List.dropLast_subset _ hm)
    | line body rest hbody _ hs =>
      rw [hs] at hl
      cases hl
      rcases List.mem_cons.1 h with rfl | hlater
      · rwa [List.dropLast_concat]
      · exact ih hlater rfl

end EdgeDot
