import EdgeDot.Proofs.Line.Walking

/-!
# What reads give

A read behind the count takes the next line and gives its edge or its failure; an empty line gives
nothing, and so does the end of the input unless it is a break.  A call for an edge reads on as long
as it is given nothing, and stops behind the read that gives something.

* `EdgeLine.item?`, `EdgeLine.items`   what a read gives, and several in order
* `LineReader.Obtains`           the readers before and behind some reads, with what these give
* `LineReader.Finds`             reads in vain, and one more
* `LineReader.finds_readEdge`    a call for an edge
-/

namespace EdgeDot

namespace EdgeLine

/-- what the read of a line gives, or a read at the end of the input -/
def item? (ending : Ending) (row : Nat) : Option Bytes → Option (Except Failure Edge)
  | some line =>
    if isSound ending line then (edge? line).map .ok else some (.error (failure ending row line))
  | none =>
    match ending with
    | .complete => none
    | .broken e => some (.error (.io e))

/-- what the next reads give where some lines are left, the first of which stands in a row -/
def items (ending : Ending) (row : Nat) (lines : List Bytes) (reads : Nat) :
    List (Except Failure Edge) :=
  (List.range reads).filterMap fun i => item? ending (row + i) lines[i]?

variable {ending : Ending} {row : Nat} {lines : List Bytes}

theorem items_add (reads more : Nat) : items ending row lines (reads + more) =
    items ending row lines reads ++ items ending (row + reads) (lines.drop reads) more := by
  simp only [items, List.range_add, List.filterMap_append, List.filterMap_map, List.getElem?_drop,
    Function.comp_def, Nat.add_assoc]

theorem items_one : items ending row lines 1 = (item? ending row lines.head?).toList := by
  rw [List.head?_eq_getElem?]
  show List.filterMap _ [0] = _
  rw [List.filterMap_cons, List.filterMap_nil, Nat.add_zero]
  cases item? ending row lines[0]? <;> rfl

end EdgeLine

/-- a result as the item of an iterator -/
def itemOf? : Except Failure (Option Edge) → Option (Except Failure Edge)
  | .ok e? => e?.map .ok
  | .error f => some (.error f)

theorem itemOf?_atEnd (ending : Ending) (row : Nat) :
    itemOf? ((ending.atEnd none).mapError .io) = EdgeLine.item? ending row none := by
  cases ending <;> rfl

namespace LineReader

/-! ## readers before and behind some reads -/

/-- behind some reads the lines are left that these did not take, and the row tells how many reads
there were; what they gave is what the lines give, in order -/
structure Obtains (r : LineReader) (reads : Nat) (items : List (Except Failure Edge))
    (r' : LineReader) : Prop where
  source : r'.source = ⟨r.source.lines.drop reads, r.source.ending⟩
  row : r'.row = r.row + reads
  items : items = EdgeLine.items r.source.ending (r.row + 1) r.source.lines reads

namespace Obtains
variable {r r₁ r₂ : LineReader} {reads more : Nat} {items later : List (Except Failure Edge)}

theorem refl (r : LineReader) : r.Obtains 0 [] r where
  source := rfl
  row := rfl
  items := rfl

theorem trans (h₁ : r.Obtains reads items r₁) (h₂ : r₁.Obtains more later r₂) :
    r.Obtains (reads + more) (items ++ later) r₂ where
  source := by rw [h₂.source, h₁.source, List.drop_drop]
  row := by rw [h₂.row, h₁.row, Nat.add_assoc]
  items := by
    rw [h₂.items, h₁.items, h₁.source, h₁.row, EdgeLine.items_add, Nat.add_right_comm]

end Obtains

/-- one read -/
theorem obtains_one {r r' : LineReader} {found : Option (Except Failure Edge)}
    (hsource : r'.source = ⟨r.source.lines.tail, r.source.ending⟩) (hrow : r'.row = r.row + 1)
    (hfound : found = EdgeLine.item? r.source.ending (r.row + 1) r.source.lines.head?) :
    r.Obtains 1 found.toList r' where
  source := by rw [hsource, List.drop_one]
  row := hrow
  items := by rw [hfound, EdgeLine.items_one]

/-- reads in vain, and one more that gives what is found; nothing is found only at the end -/
def Finds (r : LineReader) (found : Option (Except Failure Edge)) (r' : LineReader) : Prop :=
  ∃ (skipped : Nat) (last : LineReader), r.Obtains skipped [] last ∧
    last.Obtains 1 found.toList r' ∧ (found = none → last.source.lines = [])

namespace Finds
variable {r r₁ r' : LineReader} {skipped : Nat} {found : Option (Except Failure Edge)}

theorem obtains (h : r.Finds found r') : ∃ reads, r.Obtains reads found.toList r' := by
  obtain ⟨skipped, last, hskipped, hlast, -⟩ := h
  exact ⟨skipped + 1, hskipped.trans hlast⟩

theorem skip (hskipped : r.Obtains skipped [] r₁) (h : r₁.Finds found r') : r.Finds found r' := by
  obtain ⟨more, last, hmore, hlast, hend⟩ := h
  exact ⟨skipped + more, last, hskipped.trans hmore, hlast, hend⟩

/-- the first read gives something, or is at the end -/
theorem of_obtains (h : r.Obtains 1 found.toList r') (hend : found = none → r.source.lines = []) :
    r.Finds found r' :=
  ⟨0, r, .refl r, h, hend⟩

end Finds

/-- a call for an edge reads until it is given something -/
theorem finds_readEdge (r : LineReader) :
    r.Finds (itemOf? r.readEdge.result) r.readEdge.reader := by
  rcases hs : r.source with ⟨lines, ending⟩
  induction lines generalizing r with
  | nil =>
    rw [readEdge_of_nil hs]
    refine .of_obtains (obtains_one ?_ rfl ?_) fun _ => by rw [hs]
    · rw [hs]
      rfl
    · rw [hs]
      exact itemOf?_atEnd ending (r.row + 1)
  | cons line lines ih =>
    cases hsound : EdgeLine.isSound ending line with
    | false =>
      obtain ⟨r', hsource, hrow, hread⟩ := readEdge_of_unsound hs hsound
      rw [hread]
      refine .of_obtains (obtains_one ?_ hrow ?_) nofun
      · rw [hsource, hs, List.tail_cons]
      · rw [hs, List.head?_cons, EdgeLine.item?, hsound]
        rfl
    | true =>
      cases he : EdgeLine.edge? line with
      | none =>
        -- read in vain: the call goes on as one of the reader that stands on this line
        obtain ⟨hempty, text, ht⟩ := EdgeLine.text_of_sound hsound he
        have hskip : r.Obtains 1 [] (onLine lines ending (r.row + 1) text) := by
          refine @obtains_one r _ none ?_ rfl ?_
          · rw [hs, List.tail_cons]
            rfl
          · rw [hs, List.head?_cons, EdgeLine.item?, if_pos hsound, he]
            rfl
        rw [readEdge_of_empty hs ht hempty]
        exact .skip hskip (ih (onLine lines ending (r.row + 1) text) rfl)
      | some e =>
        obtain ⟨r', hsource, hrow, hread⟩ := readEdge_of_edge hs hsound he
        rw [hread]
        refine .of_obtains (obtains_one ?_ hrow ?_) nofun
        · rw [hsource, hs, List.tail_cons]
        · rw [hs, List.head?_cons, EdgeLine.item?, if_pos hsound, he]
          rfl

end LineReader

end EdgeDot
