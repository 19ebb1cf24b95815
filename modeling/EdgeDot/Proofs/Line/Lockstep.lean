import EdgeDot.Proofs.Line.Walking

/-!
# Two walks side by side

Two consumers are handed the edges of the same lines.  As long as both take them the walks are the
same; if one of them stops, it has been told a part of what the other one is told.

* `LineReader.forEdges_invariant`     what each edge keeps, a walk keeps
* `LineReader.forEdges_of_lockstep`   a walk beside one that may stop earlier
-/

namespace EdgeDot.LineReader

variable {σ τ : Type}

theorem forEdges_invariant {consume : σ → Edge → Except Failure Unit × σ} {P : σ → Prop}
    (hstep : ∀ state e, P state → P (consume state e).2) {state : σ} (hstate : P state)
    (r : LineReader) : P (r.forEdges consume state).state := by
  induction hn : r.source.lines.length using Nat.strongRecOn generalizing state r with
  | _ n ih =>
    rw [forEdges_eq]
    cases hresult : r.readEdge.result with
    | error f => exact hstate
    | ok e? =>
      cases e? with
      | none => exact hstate
      | some e =>
        have hnext := hstep state e hstate
        dsimp only
        rcases hconsume : consume state e with ⟨f | u, state'⟩
        · rwa [hconsume] at hnext
        · rw [hconsume] at hnext
          have hlt := length_lines_readEdge_lt hresult
          rw [hn] at hlt
          exact ih _ hlt hnext r.readEdge.reader rfl

variable {long : σ → Edge → Except Failure Unit × σ} {short : τ → Edge → Except Failure Unit × τ}
  {Pace Past : σ → τ → Prop} {f : Failure}

/-- One consumer takes every edge, the other may stop with `f`.  While they keep pace they are
related by `Pace`, and from the edge at which the other stops on by `Past`. -/
theorem forEdges_of_lockstep
    (hpace : ∀ s t e, Pace s t → ∃ s', long s e = (.ok (), s') ∧
      ((∃ t', short t e = (.ok (), t') ∧ Pace s' t') ∨
        ∃ t', short t e = (.error f, t') ∧ Past s' t'))
    (hpast : ∀ s t e, Past s t → Past (long s e).2 t) {s : σ} {t : τ} (h : Pace s t)
    (r : LineReader) :
    ((r.forEdges short t).result = (r.forEdges long s).result ∧
      (r.forEdges short t).events = (r.forEdges long s).events ∧
      (r.forEdges short t).reader = (r.forEdges long s).reader ∧
      Pace (r.forEdges long s).state (r.forEdges short t).state) ∨
    ((r.forEdges short t).result = .error f ∧
      (r.forEdges short t).events <+: (r.forEdges long s).events ∧
      Past (r.forEdges long s).state (r.forEdges short t).state) := by
  induction hn : r.source.lines.length using Nat.strongRecOn generalizing s t r with
  | _ n ih =>
    rw [forEdges_eq, forEdges_eq long]
    cases hresult : r.readEdge.result with
    | error g => exact .inl ⟨rfl, rfl, rfl, h⟩
    | ok e? =>
      cases e? with
      | none => exact .inl ⟨rfl, rfl, rfl, h⟩
      | some e =>
        obtain ⟨s', hlong, ⟨t', hshort, h'⟩ | ⟨t', hshort, h'⟩⟩ := hpace s t e h
        · have hlt := length_lines_readEdge_lt hresult
          rw [hn] at hlt
          dsimp only
          rw [hlong, hshort]
          rcases ih _ hlt h' r.readEdge.reader rfl with
            ⟨hsame, hevents, hreader, hlast⟩ | ⟨hstop, hevents, hlast⟩
          · exact .inl ⟨hsame, congrArg (r.readEdge.events ++ ·) hevents, hreader, hlast⟩
          · exact .inr ⟨hstop, (List.prefix_append_right_inj _).2 hevents, hlast⟩
        · -- the other walk goes on alone
          dsimp only
          rw [hlong, hshort]
          exact .inr ⟨rfl, List.prefix_append _ _,
            forEdges_invariant (fun s e => hpast s t' e) h' r.readEdge.reader⟩

end EdgeDot.LineReader
