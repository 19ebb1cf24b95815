import Mathlib.Data.List.Basic
import Mathlib.Algebra.GroupWithZero.Nat
import EdgeDot.Proofs.Dot.Names

/-!
# What quoting costs

A name that DOT does not take as it is gets longer by its two quotes and by a backslash for each
character that is escaped; any other name is written as it is.  So the statements of a digraph get
longer by what their names cost, and stay the same only if every name is bare.

* `Dot.surcharge`                   the bytes that a name costs, and none of them if it is bare
* `Dot.byteLength_render_quoted`    a name as DOT demands it beside the name itself
* `Dot.byteLength_header_quoted`, `Dot.byteLength_statements_quoted`   the same of statements
* `Dot.totalSurcharge_eq_zero_iff`  only a digraph whose names are bare costs nothing
* `Dot.statements_eq_of_isBare`     statements whose names are bare
-/

namespace EdgeDot.Dot

open Text

/-! ## names -/

/-- whether a character is written behind a backslash between quotes -/
def isEscaped (c : Char) : Bool := c = '"' || c = '\\' || c = '\n'

/-- the bytes by which a name gets longer when it is spelled as DOT demands -/
def surcharge (name : Text) : Nat := if isBare name then 0 else name.countP isEscaped + 2

theorem surcharge_eq_zero_iff (name : Text) : surcharge name = 0 ↔ isBare name = true := by
  rw [surcharge]
  split
  next hbare => exact ⟨fun _ => hbare, fun _ => rfl⟩
  next hbare => exact ⟨nofun, fun h => absurd h hbare⟩

theorem byteLength_escape (c : Char) :
    byteLength (escape c) = c.utf8Size + if isEscaped c then 1 else 0 := by
  by_cases hq : c = '"'
  · rw [hq]
    rfl
  by_cases hb : c = '\\'
  · rw [hb]
    rfl
  by_cases hl : c = '\n'
  · rw [hl]
    rfl
  · have hplain : isEscaped c = false := by simp [isEscaped, hq, hb, hl]
    rw [escape_of_ne hq hb hl, hplain]
    rfl

theorem byteLength_flatMap_escape (s : Text) :
    byteLength (s.flatMap escape) = byteLength s + s.countP isEscaped := by
  induction s with
  | nil => rfl
  | cons c s ih =>
    rw [List.flatMap_cons, byteLength_append, ih, byteLength_escape, byteLength_cons,
      List.countP_cons]
    omega

theorem byteLength_quote (s : Text) :
    byteLength (quote s) = byteLength s + (s.countP isEscaped + 2) := by
  have hquote : byteLength ['"'] = 1 := rfl
  have hsize : '"'.utf8Size = 1 := rfl
  rw [quote, byteLength_cons, byteLength_append, byteLength_flatMap_escape, hquote, hsize]
  omega

theorem byteLength_render_quoted (name : Text) :
    byteLength (Spelling.quoted.render name) = byteLength name + surcharge name := by
  show byteLength (if isBare name then name else quote name) = _
  rw [surcharge]
  split
  · rfl
  · exact byteLength_quote name

/-! ## statements -/

def edgeSurcharge (e : Edge) : Nat := surcharge e.source + surcharge e.target

theorem edgeSurcharge_eq_zero_iff (e : Edge) :
    edgeSurcharge e = 0 ↔ isBare e.source = true ∧ isBare e.target = true := by
  rw [edgeSurcharge, Nat.add_eq_zero_iff, surcharge_eq_zero_iff, surcharge_eq_zero_iff]

theorem byteLength_header (spelling : Spelling) (name : Text) :
    byteLength (header spelling name) = byteLength (spelling.render name) + 11 := by
  have hfront : byteLength "digraph ".toList = 8 := rfl
  have hback : byteLength " \x7b\n".toList = 3 := rfl
  unfold header
  rw [byteLength_append, byteLength_append, hfront, hback]
  omega

theorem byteLength_statement (spelling : Spelling) (e : Edge) :
    byteLength (statement spelling e) =
      byteLength (spelling.render e.source) + byteLength (spelling.render e.target) + 7 := by
  have htab : byteLength "\t".toList = 1 := rfl
  have harrow : byteLength " -> ".toList = 4 := rfl
  have hback : byteLength ";\n".toList = 2 := rfl
  unfold statement
  rw [byteLength_append, byteLength_append, byteLength_append, byteLength_append, htab, harrow,
    hback]
  omega

theorem byteLength_header_quoted (name : Text) :
    byteLength (header .quoted name) = byteLength (header .verbatim name) + surcharge name := by
  rw [byteLength_header, byteLength_header, byteLength_render_quoted, render_verbatim]
  omega

theorem byteLength_statement_quoted (e : Edge) :
    byteLength (statement .quoted e) = byteLength (statement .verbatim e) + edgeSurcharge e := by
  rw [byteLength_statement, byteLength_statement, byteLength_render_quoted,
    byteLength_render_quoted, render_verbatim, render_verbatim, edgeSurcharge]
  omega

theorem byteLength_statements_quoted (edges : List Edge) :
    byteLength (edges.flatMap (statement .quoted)) =
      byteLength (edges.flatMap (statement .verbatim)) + (edges.map edgeSurcharge).sum := by
  induction edges with
  | nil => rfl
  | cons e edges ih =>
    rw [List.flatMap_cons, List.flatMap_cons, byteLength_append, byteLength_append, ih,
      byteLength_statement_quoted, List.map_cons, List.sum_cons]
    omega

/-- the bytes by which the statements of a digraph get longer -/
def totalSurcharge (name : Text) (edges : List Edge) : Nat :=
  surcharge name + (edges.map edgeSurcharge).sum

theorem totalSurcharge_eq_zero_iff (name : Text) (edges : List Edge) :
    totalSurcharge name edges = 0 ↔
      isBare name = true ∧ ∀ e ∈ edges, isBare e.source = true ∧ isBare e.target = true := by
  rw [totalSurcharge, Nat.add_eq_zero_iff, surcharge_eq_zero_iff, List.sum_eq_zero_iff_forall_eq_nat,
    List.forall_mem_map]
  simp only [edgeSurcharge_eq_zero_iff]

theorem header_eq_of_isBare {name : Text} (h : isBare name = true) :
    header .quoted name = header .verbatim name := by
  unfold header
  rw [render_of_isBare h, render_of_isBare h]

theorem statement_eq_of_isBare {e : Edge} (hsource : isBare e.source = true)
    (htarget : isBare e.target = true) : statement .quoted e = statement .verbatim e := by
  unfold statement
  rw [render_of_isBare hsource, render_of_isBare htarget, render_of_isBare hsource,
    render_of_isBare htarget]

theorem statements_eq_of_isBare {edges : List Edge}
    (h : ∀ e ∈ edges, isBare e.source = true ∧ isBare e.target = true) :
    edges.flatMap (statement .quoted) = edges.flatMap (statement .verbatim) :=
  List.flatMap_congr fun e he => statement_eq_of_isBare (h e he).1 (h e he).2

end EdgeDot.Dot
