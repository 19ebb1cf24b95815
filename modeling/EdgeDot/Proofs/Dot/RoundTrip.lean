import EdgeDot.Proofs.Dot.Lexemes
import EdgeDot.Proofs.Dot.Writing
import EdgeDot.Proofs.Line.Splitting
import EdgeDot.Proofs.Text.AsciiClass

/-!
# Digraphs are read back

A digraph whose names are spelled as DOT demands is read back to the name and the edges that were
written.  Each name is one lexeme whatever it holds, and each statement is one line.

* `Dot.spells_render`            a name as it is written is one lexeme
* `Dot.Document.readAll?_render` the lexemes of a digraph
* `Dot.Document.parse?_render`   the digraph that they describe
* `Dot.Document.splitLines_bytes` the lines of a digraph
* `Dot.Document.quoted_bytes_read_back`   all of it for the bytes that a writer leaves
-/

namespace EdgeDot.Dot

open Lexeme

/-! ## names -/

theorem isPlain_cons_iff (c : Char) (s : Text) : isPlain (c :: s) = true ↔
    isWordStart c = true ∧ (∀ d ∈ s, isWordPart d = true) ∧ isKeyword (c :: s) = false := by
  simp only [isPlain, Bool.and_eq_true, List.all_eq_true, Bool.not_eq_true', and_assoc]

/-- a name as it is written is one lexeme -/
theorem spells_render (name : Text) : (Lexeme.name name).Spells (Spelling.quoted.render name) := by
  show (Lexeme.name name).Spells (if isBare name then name else quote name)
  by_cases hb : isBare name = true
  · rw [if_pos hb]
    rcases Bool.or_eq_true_iff.1 hb with hp | hn
    · cases name with
      | nil => cases hp
      | cons c s =>
        obtain ⟨hc, hs, hk⟩ := (isPlain_cons_iff c s).1 hp
        exact .word hc hs hk
    · exact .numeral ((isNumeral_iff name).1 hn)
  · rw [if_neg hb]
    exact .quoted (quoted_escape name)

theorem isWordPart_ne_lineFeed {c : Char} (h : isWordPart c = true) : c ≠ '\n' := by
  rintro rfl
  exact absurd h (by decide)

theorem lineFeed_not_mem_escape (c : Char) : '\n' ∉ escape c := by
  by_cases hq : c = '"'
  · rw [hq]; decide
  by_cases hb : c = '\\'
  · rw [hb]; decide
  by_cases hl : c = '\n'
  · rw [hl]; decide
  · rw [escape_of_ne hq hb hl, List.mem_singleton]
    exact fun e => hl e.symm

theorem lineFeed_not_mem_quote (s : Text) : '\n' ∉ quote s := by
  rw [quote, List.mem_cons, List.mem_append, List.mem_flatMap, List.mem_singleton]
  rintro (h | ⟨c, -, h⟩ | h)
  · cases h
  · exact lineFeed_not_mem_escape c h
  · cases h

theorem lineFeed_not_mem_render (name : Text) : '\n' ∉ Spelling.quoted.render name := by
  show '\n' ∉ (if isBare name then name else quote name)
  intro hmem
  by_cases hb : isBare name = true
  · rw [if_pos hb] at hmem
    rcases Bool.or_eq_true_iff.1 hb with hp | hn
    · cases name with
      | nil => cases hmem
      | cons c s =>
        obtain ⟨hc, hs, -⟩ := (isPlain_cons_iff c s).1 hp
        have hall : ∀ d ∈ c :: s, isWordPart d = true :=
          List.forall_mem_cons.2 ⟨isWordPart_of_isWordStart hc, hs⟩
        exact isWordPart_ne_lineFeed (hall _ hmem) rfl
    · have hnum := (isNumeral_iff name).1 hn
      obtain ⟨c, t, rfl, hc⟩ := hnum.head
      rcases List.mem_cons.1 hmem with rfl | ht
      · exact absurd hc (by decide)
      · exact absurd (hnum.tail_chars _ ht) (by decide)
  · rw [if_neg hb] at hmem
    exact lineFeed_not_mem_quote name hmem

/-! ## the scanner on a digraph -/

theorem readAll?_gap {gap : Text} (hgap : ∀ c ∈ gap, isGap c = true) (s : Text) :
    readAll? (gap ++ s) = readAll? s := by
  conv => lhs; rw [readAll?]
  conv => rhs; rw [readAll?]
  rw [List.dropWhile_append_of_pos hgap]

theorem readAll?_lexeme {lexeme : Lexeme} {w rest : Text} (h : lexeme.Spells w)
    (hstop : Stops rest) : readAll? (w ++ rest) = (readAll? rest).map (lexeme :: ·) := by
  have hread := read?_of_spells h hstop
  obtain ⟨c, t, rfl, -⟩ := h.begins
  have hgap : ¬ isGap c = true := by rw [h.not_isGap]; decide
  have hdrop : (c :: t ++ rest).dropWhile isGap = c :: (t ++ rest) :=
    List.dropWhile_cons_of_neg hgap
  rw [List.cons_append] at hread
  -- the scanner recurses on what a lexeme leaves, so only one step of it is opened
  conv => lhs; rw [readAll?]
  split
  next hs => rw [hdrop] at hs; cases hs
  next d u hs =>
    rw [hdrop] at hs
    obtain ⟨rfl, rfl⟩ := List.cons.inj hs
    split
    next hnone => rw [hread] at hnone; cases hnone
    next l r hsome =>
      rw [hread] at hsome
      obtain ⟨rfl, rfl⟩ := Prod.mk.inj (Option.some.inj hsome)
      rfl

theorem isGap_singleton {c : Char} (h : isGap c = true) : ∀ d ∈ [c], isGap d = true :=
  fun d hd => by rwa [List.mem_singleton.1 hd]

theorem stops_cons {c : Char} (h : isWordPart c = false) (hp : c ≠ '.') (rest : Text) :
    Stops (c :: rest) := by
  intro d hd
  rw [← Option.some.inj hd]
  exact ⟨h, hp⟩

theorem readAll?_header (name rest : Text) :
    readAll? (header .quoted name ++ rest) =
      (readAll? rest).map fun later => .digraph :: .name name :: .opening :: later := by
  have hfront : "digraph ".toList = "digraph".toList ++ [' '] := rfl
  have hback : " \x7b\n".toList = [' '] ++ (['\x7b'] ++ ['\n']) := rfl
  have parts : header .quoted name ++ rest = "digraph".toList ++ ([' '] ++
      (Spelling.quoted.render name ++ ([' '] ++ (['\x7b'] ++ (['\n'] ++ rest))))) := by
    show "digraph ".toList ++ Spelling.quoted.render name ++ " \x7b\n".toList ++ rest = _
    rw [hfront, hback]
    simp only [List.append_assoc]
  have hspace : ∀ s : Text, Stops ([' '] ++ s) := stops_cons (by decide) (by decide)
  have hend : Stops (['\n'] ++ rest) := stops_cons (by decide) (by decide) rest
  have hgap : ∀ d ∈ [' '], isGap d = true := isGap_singleton (by decide)
  have hword : Lexeme.digraph.Spells "digraph".toList := .digraph (by decide)
  rw [parts, readAll?_lexeme hword (hspace _), readAll?_gap hgap,
    readAll?_lexeme (spells_render name) (hspace _), readAll?_gap hgap,
    readAll?_lexeme .opening hend, readAll?_gap (isGap_singleton (by decide)),
    Option.map_map, Option.map_map]
  rfl

/-- the lexemes of an edge -/
def edgeLexemes (e : Edge) : List Lexeme := [.name e.source, .arrow, .name e.target, .semicolon]

theorem readAll?_statement (e : Edge) (rest : Text) :
    readAll? (statement .quoted e ++ rest) = (readAll? rest).map (edgeLexemes e ++ ·) := by
  have parts : statement .quoted e ++ rest =
      ['\t'] ++ (Spelling.quoted.render e.source ++ ([' '] ++ (['-', '>'] ++ ([' '] ++
        (Spelling.quoted.render e.target ++ ([';'] ++ (['\n'] ++ rest))))))) := by
    simp [statement]
  have hspace : ∀ s : Text, Stops ([' '] ++ s) := stops_cons (by decide) (by decide)
  have hend : ∀ s : Text, Stops ([';'] ++ s) := stops_cons (by decide) (by decide)
  have hline : Stops (['\n'] ++ rest) := stops_cons (by decide) (by decide) rest
  have hgap : ∀ d ∈ [' '], isGap d = true := isGap_singleton (by decide)
  rw [parts, readAll?_gap (isGap_singleton (by decide)),
    readAll?_lexeme (spells_render e.source) (hspace _), readAll?_gap hgap,
    readAll?_lexeme .arrow (hspace _), readAll?_gap hgap,
    readAll?_lexeme (spells_render e.target) (hend _),
    readAll?_lexeme .semicolon hline, readAll?_gap (isGap_singleton (by decide)),
    Option.map_map, Option.map_map, Option.map_map]
  rfl

theorem readAll?_footer : readAll? footer = some [.closing] := by
  have parts : footer = ['\x7d'] ++ (['\n'] ++ []) := rfl
  have hend : Stops (['\n'] ++ []) := stops_cons (by decide) (by decide) []
  rw [parts, readAll?_lexeme .closing hend, readAll?_gap (isGap_singleton (by decide)), readAll?]
  rfl

theorem readAll?_statements (edges : List Edge) :
    readAll? (edges.flatMap (statement .quoted) ++ footer) =
      some (edges.flatMap edgeLexemes ++ [.closing]) := by
  induction edges with
  | nil => exact readAll?_footer
  | cons e edges ih =>
    rw [List.flatMap_cons, List.append_assoc, readAll?_statement, ih, List.flatMap_cons,
      List.append_assoc]
    rfl

namespace Document

/-- the lexemes of a digraph -/
def lexemes (d : Document) : List Lexeme :=
  .digraph :: .name d.name :: .opening :: (d.edges.flatMap edgeLexemes ++ [.closing])

theorem readAll?_render (d : Document) : readAll? (d.render .quoted) = some d.lexemes := by
  show readAll? (header .quoted d.name ++ d.edges.flatMap (statement .quoted) ++ footer) = _
  rw [List.append_assoc, readAll?_header, readAll?_statements]
  rfl

theorem edges?_lexemes (edges : List Edge) :
    edges? (edges.flatMap edgeLexemes ++ [.closing]) = some edges := by
  induction edges with
  | nil => rfl
  | cons e edges ih =>
    show (edges? (edges.flatMap edgeLexemes ++ [.closing])).map (e :: ·) = _
    rw [ih]
    rfl

/-- a digraph is read back from its text -/
theorem parse?_render (d : Document) : parse? (d.render .quoted) = some d := by
  rw [parse?, readAll?_render]
  show (edges? (d.edges.flatMap edgeLexemes ++ [.closing])).map _ = _
  rw [edges?_lexemes]
  rfl

/-! ## the lines of a digraph -/

/-- the statements of a digraph in order, each with the line feed that ends it -/
def statements (spelling : Spelling) (d : Document) : List Text :=
  header spelling d.name :: (d.edges.map (statement spelling) ++ [footer])

/-- one line: a text without line feeds, and a line feed -/
def IsLine (s : Text) : Prop := ∃ body : Text, s = body ++ ['\n'] ∧ '\n' ∉ body

theorem isLine_header (name : Text) : IsLine (header .quoted name) := by
  refine ⟨"digraph ".toList ++ Spelling.quoted.render name ++ " \x7b".toList, ?_, ?_⟩
  · have hback : " \x7b\n".toList = " \x7b".toList ++ ['\n'] := rfl
    show "digraph ".toList ++ Spelling.quoted.render name ++ " \x7b\n".toList = _
    rw [hback]
    simp only [List.append_assoc]
  · rw [List.mem_append, List.mem_append]
    rintro ((h | h) | h)
    · exact absurd h (by decide)
    · exact lineFeed_not_mem_render name h
    · exact absurd h (by decide)

theorem isLine_statement_of {spelling : Spelling} {e : Edge}
    (hsource : '\n' ∉ spelling.render e.source) (htarget : '\n' ∉ spelling.render e.target) :
    IsLine (statement spelling e) := by
  refine ⟨"\t".toList ++ spelling.render e.source ++ " -> ".toList ++
    spelling.render e.target ++ ";".toList, ?_, ?_⟩
  · have hback : ";\n".toList = ";".toList ++ ['\n'] := rfl
    show "\t".toList ++ spelling.render e.source ++ " -> ".toList ++
      spelling.render e.target ++ ";\n".toList = _
    rw [hback]
    simp only [List.append_assoc]
  · rw [List.mem_append, List.mem_append, List.mem_append, List.mem_append]
    rintro ((((h | h) | h) | h) | h)
    · exact absurd h (by decide)
    · exact hsource h
    · exact absurd h (by decide)
    · exact htarget h
    · exact absurd h (by decide)

theorem isLine_statement (e : Edge) : IsLine (statement .quoted e) :=
  isLine_statement_of (lineFeed_not_mem_render e.source) (lineFeed_not_mem_render e.target)

theorem isLine_footer : IsLine footer := ⟨['\x7d'], rfl, by decide⟩

theorem isLine_of_mem_statements {d : Document} {s : Text} (h : s ∈ d.statements .quoted) :
    IsLine s := by
  rw [statements, List.mem_cons, List.mem_append, List.mem_map, List.mem_singleton] at h
  rcases h with rfl | ⟨e, -, rfl⟩ | rfl
  · exact isLine_header d.name
  · exact isLine_statement e
  · exact isLine_footer

theorem splitLines_line {s : Text} (h : IsLine s) (rest : Bytes) :
    splitLines (s.encode ++ rest) = s.encode :: splitLines rest := by
  obtain ⟨body, rfl, hbody⟩ := h
  have hbytes : Text.encode (body ++ ['\n']) = body.encode ++ [lineFeed] := by
    rw [Text.encode_append]
    rfl
  rw [hbytes, List.append_assoc, List.singleton_append,
    splitLines_append fun hm => hbody ((lineFeed_mem_encode body).1 hm)]

theorem splitLines_lines {lines : List Text} (h : ∀ s ∈ lines, IsLine s) (rest : Bytes) :
    splitLines (Text.encode lines.flatten ++ rest) = lines.map Text.encode ++ splitLines rest := by
  induction lines with
  | nil => rfl
  | cons s lines ih =>
    obtain ⟨hs, hlines⟩ := List.forall_mem_cons.1 h
    rw [List.flatten_cons, Text.encode_append, List.append_assoc, splitLines_line hs, ih hlines,
      List.map_cons, List.cons_append]

theorem splitLines_encode_flatten {lines : List Text} (h : ∀ s ∈ lines, IsLine s) :
    splitLines (Text.encode lines.flatten) = lines.map Text.encode := by
  have hlines := splitLines_lines h []
  rwa [List.append_nil, splitLines_nil, List.append_nil] at hlines

theorem count_lineFeed_flatten {lines : List Text} (h : ∀ s ∈ lines, IsLine s) :
    lines.flatten.count '\n' = lines.length := by
  induction lines with
  | nil => rfl
  | cons s lines ih =>
    obtain ⟨⟨body, rfl, hbody⟩, hlines⟩ := List.forall_mem_cons.1 h
    rw [List.flatten_cons, List.count_append, ih hlines, List.count_append,
      List.count_eq_zero.2 hbody, List.count_singleton_self, List.length_cons]
    omega

theorem flatten_statements (spelling : Spelling) (d : Document) :
    (d.statements spelling).flatten = d.render spelling := by
  show _ = header spelling d.name ++ d.edges.flatMap (statement spelling) ++ footer
  rw [statements, List.flatten_cons, List.flatten_append, List.flatten_singleton,
    ← List.flatMap_def, List.append_assoc]

/-- the lines of a digraph are its statements -/
theorem splitLines_bytes (d : Document) :
    splitLines (d.bytes .quoted) = (d.statements .quoted).map Text.encode := by
  rw [bytes_eq, ← flatten_statements]
  exact splitLines_encode_flatten fun s hs => isLine_of_mem_statements hs

theorem length_statements (spelling : Spelling) (d : Document) :
    (d.statements spelling).length = d.edges.length + 2 := by
  rw [statements, List.length_cons, List.length_append, List.length_map, List.length_singleton]

theorem count_lineFeed_bytes (d : Document) :
    (d.bytes .quoted).count lineFeed = d.edges.length + 2 := by
  rw [bytes_eq, ← flatten_statements, ← length_statements .quoted, count_lineFeed_encode]
  exact count_lineFeed_flatten fun s hs => isLine_of_mem_statements hs

/-! ## what a writer leaves is read back -/

theorem lexes_render_iff (d : Document) (lexemes : List Lexeme) :
    Lexes (d.render .quoted) lexemes ↔ lexemes = d.lexemes := by
  have hd := readAll?_lexes d.readAll?_render
  constructor
  · intro h
    exact h.unique hd
  · rintro rfl
    exact hd

theorem bytes_injective {d e : Document} (h : d.bytes .quoted = e.bytes .quoted) : d = e := by
  rw [bytes_eq, bytes_eq] at h
  have htext : d.render .quoted = e.render .quoted := by
    have := congrArg Text.decode? h
    rw [Text.decode?_encode, Text.decode?_encode] at this
    exact Option.some.inj this
  have hparse := d.parse?_render
  rw [htext, e.parse?_render] at hparse
  exact (Option.some.inj hparse).symm

/-- Every call of the writer succeeds.  What it leaves is the text of a digraph, which is cut into
lexemes in one way if each is the longest, and describes the name and the edges that were written;
no other digraph is written as the same bytes, and each statement is a line of them. -/
theorem quoted_bytes_read_back (d : Document) :
    (∀ m ∈ d.write .quoted, m.1 = .ok ()) ∧
    (∃ s, Text.decode? (d.bytes .quoted) = some s ∧ parse? s = some d ∧
      ∀ lexemes, Lexes s lexemes ↔ lexemes = d.lexemes) ∧
    (∀ e : Document, d.bytes .quoted = e.bytes .quoted → d = e) ∧
    splitLines (d.bytes .quoted) = (d.statements .quoted).map Text.encode ∧
    (splitLines (d.bytes .quoted)).length = d.edges.length + 2 ∧
    (d.bytes .quoted).count lineFeed = d.edges.length + 2 := by
  refine ⟨(write_spec .quoted d).1, ⟨d.render .quoted, ?_, d.parse?_render, d.lexes_render_iff⟩,
    fun e => bytes_injective, d.splitLines_bytes, ?_, d.count_lineFeed_bytes⟩
  · rw [bytes_eq, Text.decode?_encode]
  · rw [splitLines_bytes, List.length_map, length_statements]

end Document

end EdgeDot.Dot
