import EdgeDot.Proofs.Token.Runs
import EdgeDot.Record

/-!
# The tokens that a stream has left

A record sees of a stream no more than the tokens that it has left: an edge is the next two, a
count the next one, and what is taken is taken off the front of the list.

* `StreamMap.edge`, `StreamMap.count`   records off two streams that hand out the same tokens
* `Listing`                  the tokens that the states of a stream have left
* `Listing.edge_spec`, `Listing.count_spec`   the two records in terms of them
* `Splitter.listing`         a splitter has the runs of its text left
* `Splitter.position_edge`   an edge that lacks tokens runs to the end of the text
-/

namespace EdgeDot

open TokenStream

/-- the edge of the first two of some tokens -/
def Edge.ofTokens : List Text → Except RecordError Edge
  | source :: target :: _ => .ok ⟨source, target⟩
  | tokens => .error (.tooFew 2 tokens.length)

/-- the count of the first of some tokens -/
def Count.ofTokens : List Text → Except RecordError Nat
  | token :: _ => (parse token).mapError .notACount
  | [] => .error (.tooFew 1 0)

theorem Edge.read_list (tokens : List Text) :
    Edge.read tokens = (ofTokens tokens, tokens.drop 2) := by
  rcases tokens with _ | ⟨source, _ | ⟨target, more⟩⟩ <;> rfl

theorem Count.read_list (tokens : List Text) :
    Count.read tokens = (ofTokens tokens, tokens.tail) := by
  rcases tokens with _ | ⟨token, later⟩ <;> rfl

/-! ## streams seen through a map -/

/-- a map between two streams that hand out the same tokens, as long as `P` holds -/
structure StreamMap {σ τ : Type} [TokenStream σ] [TokenStream τ] (P : σ → Prop) (f : σ → τ) :
    Prop where
  keeps (stream : σ) (h : P stream) : P (next stream).2
  next_map (stream : σ) (h : P stream) : next (f stream) = ((next stream).1, f (next stream).2)

namespace StreamMap
variable {σ τ : Type} [TokenStream σ] [TokenStream τ] {P : σ → Prop} {f : σ → τ}
  (hf : StreamMap P f) {stream : σ} (h : P stream)
include hf h

theorem edge : Edge.read (f stream) = ((Edge.read stream).1, f (Edge.read stream).2) ∧
    P (Edge.read stream).2 := by
  have hfirst := hf.keeps stream h
  have hlast := hf.keeps _ hfirst
  have hnext := hf.next_map stream h
  have hlater := hf.next_map _ hfirst
  rw [Edge.read, Edge.read, hnext]
  rcases hs : next stream with ⟨source | source, stream₁⟩
  · rw [hs] at hfirst
    exact ⟨rfl, hfirst⟩
  · rw [hs] at hlast hlater
    dsimp only at hlast hlater ⊢
    rw [hlater]
    rcases ht : next stream₁ with ⟨target | target, stream₂⟩ <;> rw [ht] at hlast
    · exact ⟨rfl, hlast⟩
    · exact ⟨rfl, hlast⟩

theorem count : Count.read (f stream) = ((Count.read stream).1, f (Count.read stream).2) ∧
    P (Count.read stream).2 := by
  have hfirst := hf.keeps stream h
  rw [Count.read, Count.read, hf.next_map stream h]
  rcases hs : next stream with ⟨token | token, stream₁⟩ <;> rw [hs] at hfirst
  · exact ⟨rfl, hfirst⟩
  · exact ⟨rfl, hfirst⟩

end StreamMap

/-! ## listings -/

section
variable {σ : Type} [TokenStream σ]

/-- `tokens` tells what the states of a stream have left -/
structure Listing (tokens : σ → List Text) : Prop where
  next_fst (stream : σ) : (next stream).1 = (tokens stream).head?
  next_snd (stream : σ) : tokens (next stream).2 = (tokens stream).tail

namespace Listing
variable {tokens : σ → List Text} (h : Listing tokens)
include h

theorem streamMap : StreamMap (fun _ : σ => True) tokens where
  keeps _ _ := trivial
  next_map stream _ := by
    rw [h.next_fst, h.next_snd]
    cases tokens stream <;> rfl

theorem edge_spec (stream : σ) : (Edge.read stream).1 = Edge.ofTokens (tokens stream) ∧
    tokens (Edge.read stream).2 = (tokens stream).drop 2 := by
  have hread : Edge.read (tokens stream) = _ := (h.streamMap.edge trivial).1
  rw [Edge.read_list, Prod.mk.injEq] at hread
  exact ⟨hread.1.symm, hread.2.symm⟩

theorem count_spec (stream : σ) : (Count.read stream).1 = Count.ofTokens (tokens stream) ∧
    tokens (Count.read stream).2 = (tokens stream).tail := by
  have hread : Count.read (tokens stream) = _ := (h.streamMap.count trivial).1
  rw [Count.read_list, Prod.mk.injEq] at hread
  exact ⟨hread.1.symm, hread.2.symm⟩

end Listing

end

/-- a splitter has the maximal runs of its text left -/
theorem Splitter.listing : Listing fun t : Splitter => runs isSeparator t.rest where
  next_fst t := t.next_fst
  next_snd t := t.runs_next_snd

/-- an edge that lacks tokens has run to the end of its text -/
theorem Splitter.position_edge {t : Splitter} {e : RecordError} (h : (Edge.read t).1 = .error e) :
    (Edge.read t).2.position = t.position + t.rest.byteLength := by
  rw [Edge.read] at h ⊢
  cases hn : TokenStream.next t with
  | mk first later =>
    rw [hn] at h
    have hlater : t.next.2 = later := congrArg Prod.snd hn
    cases first with
    | none =>
      have hend := position_next_snd_of_none (congrArg Prod.fst hn : t.next.1 = none)
      rwa [hlater] at hend
    | some source =>
      dsimp only at h ⊢
      have hlen := t.length_next_snd
      rw [hlater] at hlen
      cases hm : TokenStream.next later with
      | mk second last =>
        rw [hm] at h
        have hlast : later.next.2 = last := congrArg Prod.snd hm
        cases second with
        | none =>
          have hend := position_next_snd_of_none (congrArg Prod.fst hm : later.next.1 = none)
          rw [hlast] at hend
          exact hend.trans hlen
        | some target => cases h

end EdgeDot
