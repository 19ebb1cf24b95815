import EdgeDot.Proofs.Conversion.Grammar

/-!
# Reading and converting agree

An edge list that is read into memory and one that is converted as it is read meet the same first
fault.  Without a fault the conversion is the digraph of the edges that were read, unless their
number matters and is wrong.

* `EdgeIterator.collect_eq`       gathering edges is a walk whose consumer keeps them
* `readEdgeList_of_count`, `convertText_of_count`   reading and converting, told by their lines
* `output_convert`                what is written is a text
* `convertText_eq_readEdgeList`   what a conversion makes of what is read
-/

namespace EdgeDot

open Dot Conversion

/-! ## gathering edges -/

/-- a consumer that keeps the edges -/
def keepEdge (edges : EdgeList) (e : Edge) : Except Failure Unit × EdgeList :=
  (.ok (), edges.push e)

theorem EdgeList.toList_foldl_push (l : EdgeList) (edges : List Edge) :
    (edges.foldl push l).toList = l.toList ++ edges := by
  induction edges generalizing l with
  | nil => exact (List.append_nil _).symm
  | cons e edges ih =>
    rw [List.foldl_cons, ih, toList_push, List.append_assoc, List.singleton_append]

theorem EdgeList.foldl_push_empty (edges : List Edge) :
    edges.foldl push empty = ofList edges :=
  ext_toList (toList_foldl_push empty edges)

namespace EdgeIterator

theorem collect_eq_next (it : EdgeIterator) (edges : EdgeList) (earlier : Array Event) :
    it.collect edges earlier =
      match it.next with
      | (none, events, _) => (.ok edges, earlier.toList ++ events)
      | (some (.error f), events, _) => (.error f, earlier.toList ++ events)
      | (some (.ok e), events, it) => it.collect (edges.push e) (earlier ++ events) := by
  have hlist : (earlier ++ it.next.2.1).toList = earlier.toList ++ it.next.2.1 :=
    Array.toList_appendList
  rw [collect, hlist]
  rcases hnext : it.next with ⟨item, events, later⟩
  split
  next h =>
    have hitem : item = none := h
    rw [hitem]
  next f h =>
    have hitem : item = some (.error f) := h
    rw [hitem]
  next e h =>
    have hitem : item = some (.ok e) := h
    rw [hitem]

theorem next_of_running (r : LineReader) :
    (EdgeIterator.mk r false).next =
      match r.readEdge.result with
      | .ok none => (none, r.readEdge.events, ⟨r.readEdge.reader, false⟩)
      | .ok (some e) => (some (.ok e), r.readEdge.events, ⟨r.readEdge.reader, false⟩)
      | .error f => (some (.error f), r.readEdge.events, ⟨r.readEdge.reader, true⟩) := rfl

/-- gathering the edges that are left is a walk over them -/
theorem collect_eq (r : LineReader) (edges : EdgeList) (earlier : Array Event) :
    (EdgeIterator.mk r false).collect edges earlier =
      ((r.forEdges keepEdge edges earlier).result.map
          fun _ => (r.forEdges keepEdge edges earlier).state,
        (r.forEdges keepEdge edges earlier).events) := by
  induction hn : r.source.lines.length using Nat.strongRecOn generalizing r edges earlier with
  | _ n ih =>
    rw [collect_eq_next, LineReader.forEdges_eq_of_earlier, next_of_running]
    cases hresult : r.readEdge.result with
    | error f => rfl
    | ok e? =>
      cases e? with
      | none => rfl
      | some e =>
        have hlt := LineReader.length_lines_readEdge_lt hresult
        rw [hn] at hlt
        exact ih _ hlt r.readEdge.reader (edges.push e) (earlier ++ r.readEdge.events) rfl

end EdgeIterator

/-! ## in terms of lines -/

theorem readEdgeList_of_count_error {input : Text} {f : Failure} {r' : LineReader}
    (hcount : (LineReader.ofText input).readCount = ⟨.error f, [], r'⟩) :
    readEdgeList input = (.error f, []) := by
  rw [readEdgeList, hcount]

/-- what is read behind a count: the edges of the lines, if none of them is a fault -/
theorem readEdgeList_of_count {input : Text} {r' : LineReader} {declared : Nat}
    {later : List Bytes} {ending : Ending}
    (hcount : (LineReader.ofText input).readCount = ⟨.ok declared, [], r'⟩)
    (hs : r'.source = ⟨later, ending⟩) :
    let edges := (later.takeWhile (EdgeLine.isSound ending)).filterMap EdgeLine.edge?
    (readEdgeList input).1 = (EdgeLine.outcome ending (r'.row + 1) later).map fun _ =>
      (declared, .ofList edges) := by
  intro edges
  have hkeep : ∀ edges e, True → keepEdge edges e = (.ok (), edges.push e) ∧ True :=
    fun edges e _ => ⟨rfl, trivial⟩
  obtain ⟨r'', -, -, hwalk⟩ :=
    @LineReader.forEdges_spec EdgeList keepEdge _ EdgeList.push hkeep .empty trivial _ _ _ hs
  rw [readEdgeList, hcount]
  dsimp only
  rw [EdgeIterator.collect_eq, hwalk, EdgeList.foldl_push_empty]
  cases EdgeLine.outcome ending (r'.row + 1) later <;> rfl

theorem convertText_of_count_error {input : Text} {f : Failure} {r' : LineReader}
    (hcount : (LineReader.ofText input).readCount = ⟨.error f, [], r'⟩) (name : Text)
    (options : Options) : convertText name options input = (.error f, []) := by
  rw [convertText, convert_of_count_error hcount]
  rfl

/-- what a text is converted into behind a count: the digraph of the edges, unless a line is a
fault or the number of edges is -/
theorem convertText_of_count {input : Text} {r' : LineReader} {declared : Nat}
    {later : List Bytes} {ending : Ending}
    (hcount : (LineReader.ofText input).readCount = ⟨.ok declared, [], r'⟩)
    (hs : r'.source = ⟨later, ending⟩) (name : Text) (options : Options) :
    let edges := (later.takeWhile (EdgeLine.isSound ending)).filterMap EdgeLine.edge?
    (convertText name options input).1 =
      (verdict options.counting declared edges.length
        (EdgeLine.outcome ending (r'.row + 1) later)).map
          fun _ => document options.spelling name edges := by
  intro edges
  obtain ⟨hresult, hout, -⟩ := convert_of_count hcount hs name options
  rw [convertText, hresult, hout, Text.decodeLossy_encode]
  cases verdict options.counting declared edges.length
    (EdgeLine.outcome ending (r'.row + 1) later) <;> rfl

/-- what a conversion writes is a text, also before a failure -/
theorem output_convert (name : Text) (options : Options) (r : LineReader) :
    ∃ s : Text, (convert name options r .unlimited).sink.output = s.encode := by
  cases hresult : r.readCount.result with
  | error f =>
    refine ⟨[], ?_⟩
    rw [convert_of_count_error (LineReader.readCount_of_result hresult)]
    rfl
  | ok declared =>
    obtain ⟨-, hout, -⟩ :=
      convert_of_count (LineReader.readCount_of_result hresult) rfl name options
    exact ⟨_, hout⟩

/-! ## agreement -/

/-- A conversion of a text fails as reading it fails.  What can be read is converted into the bytes
that a writer leaves of its edges, unless their number has to be the declared one and is not.
These bytes, and those that are written before a failure, are UTF-8, so that none is replaced. -/
theorem convertText_eq_readEdgeList (name : Text) (options : Options) (input : Text) :
    let converted := (convertText name options input).1
    let t := convert name options (.ofText input) .unlimited
    (match (readEdgeList input).1 with
      | .error f => converted = .error f
      | .ok (declared, edges) =>
        if edges.length ≠ declared ∧ options.counting = .strict then
          converted = .error (.wrongCount declared edges.length)
        else ∃ s, converted = .ok s ∧
          s.encode = (Document.mk name edges.toList).bytes options.spelling) ∧
    ∃ s, Text.decode? t.sink.output = some s ∧ Text.decodeLossy t.sink.output = s ∧
      converted = t.result.map fun _ => s := by
  intro converted t
  constructor
  · cases hresult : (LineReader.ofText input).readCount.result with
    | error f =>
      have hcount := LineReader.readCount_of_result hresult
      rw [readEdgeList_of_count_error hcount]
      exact congrArg Prod.fst (convertText_of_count_error hcount name options)
    | ok declared =>
      have hcount := LineReader.readCount_of_result hresult
      have hconverted : converted = _ := convertText_of_count hcount rfl name options
      rw [readEdgeList_of_count hcount rfl, hconverted]
      generalize (List.takeWhile _ _).filterMap EdgeLine.edge? = edges
      cases EdgeLine.outcome _ _ _ with
      | error f => rfl
      | ok u =>
        show if edges.length ≠ declared ∧ options.counting = .strict then _ else _
        by_cases wrong : edges.length ≠ declared ∧ options.counting = .strict
        · rw [if_pos wrong, verdict, if_pos wrong]
          rfl
        · rw [if_neg wrong, verdict, if_neg wrong]
          exact ⟨_, rfl, (Document.bytes_eq options.spelling ⟨name, edges⟩).symm⟩
  · obtain ⟨s, hout⟩ := output_convert name options (.ofText input)
    have ht : t.sink.output = s.encode := hout
    have hlossy : Text.decodeLossy t.sink.output = s := by rw [ht, Text.decodeLossy_encode]
    refine ⟨s, ?_, hlossy, ?_⟩
    · rw [ht, Text.decode?_encode]
    · show t.result.map (fun _ => Text.decodeLossy t.sink.output) = _
      rw [hlossy]

end EdgeDot
