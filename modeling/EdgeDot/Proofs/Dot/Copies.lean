import EdgeDot.Proofs.Dot.RoundTrip

/-!
# Names that are copied

A digraph whose names are copied as they are is read back if no name of an edge holds a separator,
whatever else it holds: each statement is one line, and the two spaces of this line stand around
the arrow.  What the digraph itself is called does not matter, since the header is known.

* `Copies.line`          a statement as a line of bytes, and `Copies.splitOn_line` for its parts
* `Copies.splitLines_body`   the lines behind the header
* `Copies.readBack?_encode`  the edges of a digraph, from its bytes and its name
-/

namespace EdgeDot

/-- whether no name of an edge holds a separator -/
def Edge.IsTight (e : Edge) : Prop :=
  (∀ b ∈ e.source.encode, isSeparatorByte b = false) ∧
    ∀ b ∈ e.target.encode, isSeparatorByte b = false

theorem not_mem_of_not_separates {bytes : Bytes} (h : ∀ b ∈ bytes, isSeparatorByte b = false)
    {b : UInt8} (hb : isSeparatorByte b = true) : b ∉ bytes := by
  intro hmem
  rw [h b hmem] at hb
  cases hb

namespace Dot.Copies

/-! ## one line -/

def tab : UInt8 := 0x09

def space : UInt8 := 0x20

/-- the bytes `->` -/
def arrow : Bytes := [0x2D, 0x3E]

/-- a semicolon and the line feed behind it -/
def close : Bytes := [0x3B, lineFeed]

/-- the closing brace and the line feed behind it -/
def lastLine : Bytes := [0x7D, lineFeed]

/-- the statement of an edge whose names are copied -/
def line (e : Edge) : Bytes :=
  tab :: (e.source.encode ++ space :: (arrow ++ space :: (e.target.encode ++ close)))

theorem encode_statement (e : Edge) : (statement .verbatim e).encode = line e := by
  have parts : statement .verbatim e =
      ['\t'] ++ (e.source ++ ([' ', '-', '>', ' '] ++ (e.target ++ [';', '\n']))) := by
    simp [statement, render_verbatim]
  rw [parts, Text.encode_append, Text.encode_append, Text.encode_append, Text.encode_append]
  rfl

variable {e : Edge}

theorem splitOn_line (h : e.IsTight) :
    (line e).splitOn space = [tab :: e.source.encode, arrow, e.target.encode ++ close] := by
  have hsource : space ∉ tab :: e.source.encode := by
    rw [List.mem_cons]
    rintro (htab | hmem)
    · cases htab
    · exact not_mem_of_not_separates h.1 (by decide) hmem
  have htarget : space ∉ e.target.encode ++ close := by
    rw [List.mem_append]
    rintro (hmem | hclose)
    · exact not_mem_of_not_separates h.2 (by decide) hmem
    · exact absurd hclose (by decide)
  have hcut : line e = (tab :: e.source.encode) ++ space :: (arrow ++ space ::
      (e.target.encode ++ close)) := rfl
  rw [hcut, List.splitOn_append_cons_self_of_not_mem hsource,
    List.splitOn_append_cons_self_of_not_mem (by decide), List.splitOn_eq_singleton htarget]

/-- the edge of a line: the name before its first space, without the tab, and the one behind its
second, without the semicolon and the line feed -/
def edgeOfLine? (line : Bytes) : Option Edge :=
  match line.splitOn space with
  | [source, _, target] =>
    match Text.decode? source.tail, Text.decode? (target.take (target.length - 2)) with
    | some source, some target => some ⟨source, target⟩
    | _, _ => none
  | _ => none

theorem edgeOfLine?_line (h : e.IsTight) : edgeOfLine? (line e) = some e := by
  have htarget : (e.target.encode ++ close).take ((e.target.encode ++ close).length - 2) =
      e.target.encode := by
    rw [List.length_append]
    exact List.take_left
  rw [edgeOfLine?, splitOn_line h]
  dsimp only
  rw [htarget, List.tail_cons, Text.decode?_encode, Text.decode?_encode]

/-! ## all lines -/

variable {edges : List Edge}

theorem encode_statements (edges : List Edge) :
    Text.encode (edges.flatMap (statement .verbatim)) = edges.flatMap line := by
  induction edges with
  | nil => rfl
  | cons e edges ih =>
    rw [List.flatMap_cons, Text.encode_append, encode_statement, ih, List.flatMap_cons]

theorem encode_document (name : Text) (edges : List Edge) :
    (document .verbatim name edges).encode =
      (header .verbatim name).encode ++ (edges.flatMap line ++ lastLine) := by
  rw [document, Text.encode_append, Text.encode_append, encode_statements, encode_footer,
    List.append_assoc]
  rfl

theorem isLine_statement (h : e.IsTight) : Document.IsLine (statement .verbatim e) := by
  apply Document.isLine_statement_of
  · exact mt (lineFeed_mem_encode e.source).2 (not_mem_of_not_separates h.1 (by decide))
  · exact mt (lineFeed_mem_encode e.target).2 (not_mem_of_not_separates h.2 (by decide))

/-- behind the header each edge is one line, and the closing brace is the last -/
theorem splitLines_body (h : ∀ e ∈ edges, e.IsTight) :
    splitLines (edges.flatMap line ++ lastLine) = edges.map line ++ [lastLine] := by
  have hlines : ∀ s ∈ edges.map (statement .verbatim) ++ [footer], Document.IsLine s := by
    intro s hs
    rw [List.mem_append, List.mem_map, List.mem_singleton] at hs
    rcases hs with ⟨e, he, rfl⟩ | rfl
    · exact isLine_statement (h e he)
    · exact Document.isLine_footer
  have hsplit := Document.splitLines_encode_flatten hlines
  have hmap : (edges.map (statement .verbatim)).map Text.encode = edges.map line := by
    rw [List.map_map]
    exact List.map_congr_left fun e _ => encode_statement e
  rwa [List.flatten_append, ← List.flatMap_def, List.flatten_singleton, Text.encode_append,
    encode_statements, encode_footer, List.map_append, hmap, List.map_singleton,
    encode_footer] at hsplit

/-- the edges of a digraph of the given name, from its bytes -/
def readBack? (name : Text) (bytes : Bytes) : Option (List Edge) :=
  (splitLines (bytes.drop (header .verbatim name).encode.length)).dropLast.mapM edgeOfLine?

theorem mapM_edgeOfLine?_map_line (h : ∀ e ∈ edges, e.IsTight) :
    (edges.map line).mapM edgeOfLine? = some edges := by
  induction edges with
  | nil => rfl
  | cons e edges ih =>
    obtain ⟨he, hedges⟩ := List.forall_mem_cons.1 h
    rw [List.map_cons, List.mapM_cons, edgeOfLine?_line he, ih hedges]
    rfl

theorem readBack?_encode (name : Text) (h : ∀ e ∈ edges, e.IsTight) :
    readBack? name (document .verbatim name edges).encode = some edges := by
  rw [readBack?, encode_document, List.drop_left, splitLines_body h, List.dropLast_concat,
    mapM_edgeOfLine?_map_line h]

end Dot.Copies

end EdgeDot
