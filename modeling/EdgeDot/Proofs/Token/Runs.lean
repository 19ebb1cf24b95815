import EdgeDot.Token.Splitter

/-!
# Maximal runs

The tokens of a list are its maximal runs of elements that do not separate: what is left of the
pieces between separators when the empty ones are dropped.

* `runs_append_of_separates`   separators in front change nothing
* `runs_append_of_token`       a run ends at the next separator or with the list
* `runs_append_of_apart`       behind a separator the runs start anew
* `not_separates_of_mem_runs`  no run holds an element that separates
* `runs_eq_cut`                the first run is what `Cut.of` cuts off
* `Splitter.next_fst`, `Splitter.runs_next_snd`   a splitter hands out the runs in order
-/

namespace EdgeDot

section
variable {α : Type} {p : α → Bool}

theorem splitOnP_append_of_not_mem {front : List α} (h : ∀ x ∈ front, p x = false)
    (rest : List α) : (front ++ rest).splitOnP p = (rest.splitOnP p).modifyHead (front ++ ·) := by
  induction front with
  | nil =>
    show rest.splitOnP p = (rest.splitOnP p).modifyHead id
    rw [List.modifyHead_id, id]
  | cons x front ih =>
    have hx : p x = false := h x List.mem_cons_self
    rw [List.cons_append, List.splitOnP_cons_eq_if_modifyHead, hx,
      ih fun y hy => h y (List.mem_cons_of_mem _ hy)]
    cases rest.splitOnP p <;> rfl

/-- the maximal runs of elements that do not separate -/
def runs (p : α → Bool) (l : List α) : List (List α) :=
  (l.splitOnP p).filter fun piece => !piece.isEmpty

theorem runs_nil : runs p [] = [] := by
  rw [runs, List.splitOnP_nil]
  rfl

theorem runs_cons_of_separates {x : α} (h : p x = true) (l : List α) :
    runs p (x :: l) = runs p l := by
  rw [runs, List.splitOnP_cons_eq_if_modifyHead, if_pos h]
  rfl

theorem runs_append_of_separates {gap : List α} (h : ∀ x ∈ gap, p x = true) (l : List α) :
    runs p (gap ++ l) = runs p l := by
  induction gap with
  | nil => rfl
  | cons x gap ih =>
    rw [List.cons_append, runs_cons_of_separates (h x List.mem_cons_self),
      ih fun y hy => h y (List.mem_cons_of_mem _ hy)]

theorem runs_append_of_token {token rest : List α} (hne : token ≠ [])
    (hin : ∀ x ∈ token, p x = false) (hrest : ∀ x, rest.head? = some x → p x = true) :
    runs p (token ++ rest) = token :: runs p rest := by
  have hkeep : (!token.isEmpty) = true := by simpa using hne
  cases rest with
  | nil =>
    rw [List.append_nil, runs, List.splitOnP_eq_singleton hin, runs_nil]
    exact List.filter_cons_of_pos hkeep
  | cons x rest =>
    have hx : p x = true := hrest x rfl
    rw [runs, List.splitOnP_append_cons_of_forall_mem hin x hx, runs_cons_of_separates hx]
    exact List.filter_cons_of_pos hkeep

theorem not_separates_of_mem_splitOnP {l piece : List α} (h : piece ∈ l.splitOnP p) :
    ∀ x ∈ piece, p x = false := by
  induction l generalizing piece with
  | nil =>
    rw [List.splitOnP_nil, List.mem_singleton] at h
    rw [h]
    exact List.forall_mem_nil _
  | cons y l ih =>
    rw [List.splitOnP_cons_eq_if_modifyHead] at h
    obtain ⟨first, later, hl⟩ := List.exists_cons_of_ne_nil (List.splitOnP_ne_nil p l)
    cases hy : p y with
    | true =>
      rw [if_pos hy, List.mem_cons] at h
      rcases h with rfl | h
      · exact List.forall_mem_nil _
      · exact ih h
    | false =>
      -- what does not separate goes in front of the first piece
      rw [if_neg (Bool.eq_false_iff.1 hy), hl, List.modifyHead_cons, List.mem_cons] at h
      rw [hl] at ih
      rcases h with rfl | h
      · exact List.forall_mem_cons.2 ⟨hy, ih List.mem_cons_self⟩
      · exact ih (List.mem_cons_of_mem _ h)

theorem not_separates_of_mem_runs {l run : List α} (h : run ∈ runs p l) :
    ∀ x ∈ run, p x = false :=
  not_separates_of_mem_splitOnP (List.mem_filter.1 h).1

theorem runs_eq_nil_of_separates {gap : List α} (h : ∀ x ∈ gap, p x = true) : runs p gap = [] := by
  have := runs_append_of_separates h []
  rwa [List.append_nil, runs_nil] at this

theorem runs_append_cons {x : α} (h : p x = true) (front rest : List α) :
    runs p (front ++ x :: rest) = runs p front ++ runs p rest := by
  rw [runs, List.splitOnP_append_cons front rest h, List.filter_append]
  rfl

/-- the runs depend only on what separates in the list -/
theorem runs_congr {q : α → Bool} {l : List α} (h : ∀ x ∈ l, p x = q x) : runs p l = runs q l := by
  have hsplit : l.splitOnP p = l.splitOnP q := by
    induction l with
    | nil => rw [List.splitOnP_nil, List.splitOnP_nil]
    | cons x l ih =>
      obtain ⟨hx, hl⟩ := List.forall_mem_cons.1 h
      rw [List.splitOnP_cons_eq_if_modifyHead, List.splitOnP_cons_eq_if_modifyHead, hx, ih hl]
  rw [runs, runs, hsplit]

/-- separators behind change nothing either -/
theorem runs_append_gap {gap : List α} (h : ∀ x ∈ gap, p x = true) (l : List α) :
    runs p (l ++ gap) = runs p l := by
  cases gap with
  | nil => rw [List.append_nil]
  | cons x gap =>
    obtain ⟨hx, hgap⟩ := List.forall_mem_cons.1 h
    rw [runs_append_cons hx, runs_eq_nil_of_separates hgap, List.append_nil]

/-- behind a separator, or at the front, the runs start anew -/
theorem runs_append_of_apart {front : List α} (h : ∀ x, front.getLast? = some x → p x = true)
    (rest : List α) : runs p (front ++ rest) = runs p front ++ runs p rest := by
  rcases List.eq_nil_or_concat front with rfl | ⟨front, x, hfront⟩
  · rw [runs_nil]
    rfl
  · rw [List.concat_eq_append] at hfront
    have hx : p x = true := h x (by rw [hfront, List.getLast?_concat])
    rw [hfront, List.append_assoc, List.singleton_append, runs_append_cons hx, runs_append_cons hx,
      runs_nil, List.append_nil]

end

/-! ## the runs of a text -/

theorem Cut.rest_eq_nil {separates : Char → Bool} {s : Text} (h : (of separates s).token = []) :
    (of separates s).rest = [] := by
  have hhead := List.head?_dropWhile_not separates s
  unfold of at h ⊢
  cases hs : s.dropWhile separates with
  | nil => rfl
  | cons c t =>
    rw [hs] at h hhead
    have hc : separates c = false := by simpa using hhead
    simp [hc] at h

theorem Cut.rest_head {separates : Char → Bool} {s : Text} {c : Char}
    (h : (of separates s).rest.head? = some c) : separates c = true := by
  have hhead := List.head?_dropWhile_not (fun c => !separates c) (s.dropWhile separates)
  unfold of at h
  rw [h] at hhead
  simpa using hhead

theorem runs_eq_cut (separates : Char → Bool) (s : Text) :
    runs separates s = match (Cut.of separates s).token? with
      | none => []
      | some token => token :: runs separates (Cut.of separates s).rest := by
  have whole := Cut.append_eq separates s
  have hgap : ∀ c ∈ (Cut.of separates s).gap, separates c = true :=
    fun c hc => List.all_eq_true.1 List.all_takeWhile c hc
  have hruns := runs_append_of_separates hgap
    ((Cut.of separates s).token ++ (Cut.of separates s).rest)
  rw [whole] at hruns
  rw [hruns]
  by_cases hne : (Cut.of separates s).token = []
  · rw [Cut.token?, hne, Cut.rest_eq_nil hne]
    exact runs_nil
  · rw [runs_append_of_token hne (fun c hc => Cut.token_not_separates hc) fun c => Cut.rest_head]
    simp [Cut.token?, hne]

/-- what is cut off is the first run -/
theorem Cut.token?_eq_head? (separates : Char → Bool) (s : Text) :
    (Cut.of separates s).token? = (runs separates s).head? := by
  rw [runs_eq_cut]
  cases (Cut.of separates s).token? <;> rfl

/-- behind it are the other runs -/
theorem Cut.runs_rest (separates : Char → Bool) (s : Text) :
    runs separates (Cut.of separates s).rest = (runs separates s).tail := by
  rw [runs_eq_cut separates s]
  by_cases hne : (Cut.of separates s).token = []
  · rw [Cut.rest_eq_nil hne, runs_nil, Cut.token?, hne]
    rfl
  · simp [Cut.token?, hne]

namespace Splitter

theorem next_fst (t : Splitter) : t.next.1 = (runs isSeparator t.rest).head? :=
  Cut.token?_eq_head? isSeparator t.rest

theorem runs_next_snd (t : Splitter) :
    runs isSeparator t.next.2.rest = (runs isSeparator t.rest).tail :=
  Cut.runs_rest isSeparator t.rest

theorem isAtEnd_iff (t : Splitter) : t.isAtEnd = true ↔ runs isSeparator t.rest = [] := by
  rw [isAtEnd, next_fst, Option.isNone_iff_eq_none, List.head?_eq_none_iff]

/-- a splitter ends where its text ends, wherever it is now -/
theorem length_next_snd (t : Splitter) :
    t.next.2.position + t.next.2.rest.byteLength = t.position + t.rest.byteLength := by
  have whole := congrArg Text.byteLength (Cut.append_eq isSeparator t.rest)
  rw [Text.byteLength_append, Text.byteLength_append] at whole
  show t.position + Text.byteLength (Cut.of isSeparator t.rest).gap
    + Text.byteLength (Cut.of isSeparator t.rest).token
    + Text.byteLength (Cut.of isSeparator t.rest).rest = _
  omega

theorem rest_next_snd_of_none {t : Splitter} (h : t.next.1 = none) : t.next.2.rest = [] := by
  have htoken : (Cut.of isSeparator t.rest).token? = none := h
  exact Cut.rest_eq_nil (by simpa [Cut.token?] using htoken)

/-- without a token left a splitter runs to the end of its text -/
theorem position_next_snd_of_none {t : Splitter} (h : t.next.1 = none) :
    t.next.2.position = t.position + t.rest.byteLength := by
  have hlen := t.length_next_snd
  rw [rest_next_snd_of_none h, Text.byteLength_nil] at hlen
  omega

end Splitter

end EdgeDot
