import Mathlib.Algebra.GroupWithZero.Nat
import EdgeDot.Proofs.Token.Spans
import EdgeDot.Token.Words

/-!
# Records off any stream

Of a stream the records see its answers and nothing else, whichever stream it is.  If it hands out
some tokens and then none, each record is read off the tokens that those before it left: it takes
as many as it wants, or all that are left if these are fewer.  A text whose characters all separate
alike gives the same tokens, and so the same records, as a splitter and as words.

* `StreamMap.runAll`              requests on two streams that hand out the same tokens
* `TokenStream.answers`           what a stream answers to each call
* `TokenStream.Yields`            a stream that hands out some tokens and then none
* `Record.Request.getElem?_runAll`   requests on a list of tokens, in closed form
* `Splitter.yields`, `Words.yields`  splitters and words hand out runs
* `Record.runAll_depends_on_tokens`  requests on any stream
-/

namespace EdgeDot

open TokenStream

/-! ## requests through a map -/

namespace StreamMap
variable {σ τ : Type} [TokenStream σ] [TokenStream τ] {P : σ → Prop} {f : σ → τ}
  (hf : StreamMap P f) {stream : σ} (h : P stream)
include hf h

theorem run (request : Record.Request) :
    request.run (f stream) = ((request.run stream).1, f (request.run stream).2) ∧
      P (request.run stream).2 := by
  cases request with
  | edge =>
    obtain ⟨hread, hP⟩ := hf.edge h
    refine ⟨?_, hP⟩
    rw [Record.Request.run, hread]
    rfl
  | count =>
    obtain ⟨hread, hP⟩ := hf.count h
    refine ⟨?_, hP⟩
    rw [Record.Request.run, hread]
    rfl
  | token =>
    refine ⟨?_, hf.keeps stream h⟩
    rw [Record.Request.run, hf.next_map stream h]
    rfl

theorem runAll (requests : List Record.Request) :
    Record.Request.runAll (f stream) requests =
        ((Record.Request.runAll stream requests).1, f (Record.Request.runAll stream requests).2) ∧
      P (Record.Request.runAll stream requests).2 := by
  induction requests generalizing stream with
  | nil => exact ⟨rfl, h⟩
  | cons request requests ih =>
    obtain ⟨hfirst, hP⟩ := hf.run h request
    obtain ⟨hlater, hlast⟩ := ih hP
    refine ⟨?_, hlast⟩
    rw [Record.Request.runAll, hfirst]
    dsimp only
    rw [hlater]
    rfl

end StreamMap

/-! ## the answers of a stream -/

/-- a stream that is nothing but its answers -/
instance : TokenStream (Nat → Option Text) := ⟨fun answers => (answers 0, fun n => answers (n + 1))⟩

namespace TokenStream
variable {σ : Type} [TokenStream σ]

/-- what a stream answers to each of the calls that are made of it -/
def answers (stream : σ) (calls : Nat) : Option Text := (next (after stream calls)).1

/-- the stream hands out these tokens in order, and then none any more -/
def Yields (stream : σ) (tokens : List Text) : Prop := ∀ calls, answers stream calls = tokens[calls]?

theorem streamMap_answers : StreamMap (fun _ : σ => True) answers where
  keeps _ _ := trivial
  next_map _ _ := rfl

theorem yields_list (tokens : List Text) : Yields tokens tokens := by
  intro calls
  induction calls generalizing tokens with
  | zero => cases tokens <;> rfl
  | succ calls ih =>
    cases tokens with
    | nil => exact ih []
    | cons token tokens => exact ih tokens

end TokenStream

theorem StreamMap.answers {σ τ : Type} [TokenStream σ] [TokenStream τ] {P : σ → Prop} {f : σ → τ}
    (hf : StreamMap P f) {stream : σ} (h : P stream) (calls : Nat) :
    TokenStream.answers (f stream) calls = TokenStream.answers stream calls := by
  obtain ⟨hafter, hP⟩ := hf.after h calls
  rw [TokenStream.answers, hafter, hf.next_map _ hP]
  rfl

/-- a stream whose states tell what they have left hands that out -/
theorem Listing.yields {σ : Type} [TokenStream σ] {tokens : σ → List Text} (h : Listing tokens)
    (stream : σ) : Yields stream (tokens stream) :=
  fun calls => (h.streamMap.answers trivial calls).symm.trans (yields_list (tokens stream) calls)

/-! ## requests in closed form -/

namespace Record

namespace Request

/-- how many tokens a request takes where there are enough -/
def wanted : Request → Nat
  | .edge => 2
  | .count => 1
  | .token => 1

/-- the answer to a request by the tokens that are left -/
def answer (tokens : List Text) : Request → Answer
  | .edge => .edge (Edge.ofTokens tokens)
  | .count => .count (Count.ofTokens tokens)
  | .token => .token tokens.head?

theorem run_list (tokens : List Text) (request : Request) :
    request.run tokens = (request.answer tokens, tokens.drop request.wanted) := by
  cases request with
  | edge =>
    rw [run, Edge.read_list]
    rfl
  | count =>
    rw [run, Count.read_list, ← List.drop_one]
    rfl
  | token => cases tokens <;> rfl

/-- how many tokens requests want one after the other -/
def wantedBy (requests : List Request) : Nat := (requests.map wanted).sum

theorem wantedBy_cons (request : Request) (requests : List Request) :
    wantedBy (request :: requests) = request.wanted + wantedBy requests := List.sum_cons

theorem runAll_list (tokens : List Text) (requests : List Request) :
    (runAll tokens requests).1.length = requests.length ∧
      (runAll tokens requests).2 = tokens.drop (wantedBy requests) := by
  induction requests generalizing tokens with
  | nil => exact ⟨rfl, rfl⟩
  | cons request requests ih =>
    obtain ⟨hlen, hlast⟩ := ih (tokens.drop request.wanted)
    rw [runAll, run_list]
    refine ⟨congrArg (· + 1) hlen, ?_⟩
    rw [wantedBy_cons, ← List.drop_drop]
    exact hlast

/-- each request is answered by the tokens that those before it did not want -/
theorem getElem?_runAll (tokens : List Text) (requests : List Request) {k : Nat}
    {request : Request} (h : requests[k]? = some request) :
    (runAll tokens requests).1[k]? =
      some (request.answer (tokens.drop (wantedBy (requests.take k)))) := by
  induction requests generalizing tokens k with
  | nil => cases h
  | cons first requests ih =>
    rw [runAll, run_list]
    cases k with
    | zero =>
      cases h
      rfl
    | succ k =>
      rw [List.take_succ_cons, wantedBy_cons, ← List.drop_drop]
      exact ih _ h

end Request

end Record

/-! ## the streams of a text -/

theorem Splitter.yields (s : Text) : Yields (Splitter.ofText s) (runs isSeparator s) :=
  Splitter.listing.yields (Splitter.ofText s)

theorem Words.listing : Listing fun w : Words => runs isBlank w.rest where
  next_fst w := Cut.token?_eq_head? isBlank w.rest
  next_snd w := Cut.runs_rest isBlank w.rest

theorem Words.yields (s : Text) : Yields (Words.ofText s) (runs isBlank s) :=
  Words.listing.yields (Words.ofText s)

namespace Record

variable {σ : Type} [TokenStream σ]

theorem runAll_answers (stream : σ) (requests : List Request) :
    Request.runAll (answers stream) requests =
      ((Request.runAll stream requests).1, answers (Request.runAll stream requests).2) :=
  (streamMap_answers.runAll trivial requests).1

theorem runAll_of_answers {τ : Type} [TokenStream τ] {stream : σ} {other : τ}
    (h : answers stream = answers other) (requests : List Request) :
    (Request.runAll stream requests).1 = (Request.runAll other requests).1 ∧
      answers (Request.runAll stream requests).2 = answers (Request.runAll other requests).2 := by
  have hstream := runAll_answers stream requests
  rw [h, runAll_answers other requests] at hstream
  exact ⟨(congrArg Prod.fst hstream).symm, (congrArg Prod.snd hstream).symm⟩

theorem runAll_of_yields {stream : σ} {tokens : List Text} (h : Yields stream tokens)
    (requests : List Request) :
    (Request.runAll stream requests).1 = (Request.runAll tokens requests).1 ∧
      Yields (Request.runAll stream requests).2 (tokens.drop (Request.wantedBy requests)) := by
  have hanswers : answers stream = answers tokens :=
    funext fun calls => (h calls).trans (yields_list tokens calls).symm
  obtain ⟨hresults, hlast⟩ := runAll_of_answers hanswers requests
  rw [(Request.runAll_list tokens requests).2] at hlast
  exact ⟨hresults, fun calls => (congrFun hlast calls).trans (yields_list _ calls)⟩

/-- Requests on any stream, whichever it is.  Two streams that answer their calls alike answer
requests alike.  On a stream that hands out some tokens and then none, a request is answered by the
tokens that those before it did not want: an edge is the next two, or fails and tells how many are
left, a count is the next one, which is gone even if it is none; and the stream goes on with the
tokens that were not wanted.  A text without control characters, those among the blanks apart, and
without blanks beyond ASCII answers as a splitter and as words alike. -/
theorem runAll_depends_on_tokens (stream : σ) (requests : List Request) :
    (∀ {τ : Type} [TokenStream τ] (other : τ), (∀ calls, answers stream calls = answers other calls) →
      (Request.runAll stream requests).1 = (Request.runAll other requests).1) ∧
    (∀ tokens, Yields stream tokens →
      let made := Request.runAll stream requests
      let wanted := fun k => ((requests.take k).map Request.wanted).sum
      made.1.length = requests.length ∧
      (∀ k (request : Request), requests[k]? = some request →
        made.1[k]? = some (request.answer (tokens.drop (wanted k)))) ∧
      Yields made.2 (tokens.drop (wanted requests.length))) ∧
    ∀ s : Text, (∀ c ∈ s, ¬ (c.toNat ≤ 0x8 ∨ (0xE ≤ c.toNat ∧ c.toNat ≤ 0x1F) ∨
        (0x80 ≤ c.toNat ∧ isBlank c = true))) →
      (Request.runAll (Splitter.ofText s) requests).1 =
        (Request.runAll (Words.ofText s) requests).1 := by
  refine ⟨fun other h => (runAll_of_answers (funext h) requests).1, fun tokens h => ?_,
    fun s hs => ?_⟩
  · obtain ⟨hresults, hlast⟩ := runAll_of_yields h requests
    dsimp only
    rw [hresults, List.take_length]
    exact ⟨(Request.runAll_list tokens requests).1,
      fun k request hk => Request.getElem?_runAll tokens requests hk, hlast⟩
  · have hsame : runs isSeparator s = runs isBlank s := by
      refine runs_congr fun c hc => isSeparator_eq_isBlank ?_ ?_
      · intro hlow
        have := hs c hc
        omega
      · intro hhigh
        exact Bool.eq_false_iff.2 fun hblank => hs c hc (.inr (.inr ⟨hhigh, hblank⟩))
    rw [(runAll_of_yields (Splitter.yields s) requests).1,
      (runAll_of_yields (Words.yields s) requests).1, hsame]

/-- an edge, a token that is no count, and an edge that lacks its target -/
theorem runAll_depends_on_tokens_lacking :
    let s := "x\ty -7\x0b\r\nlast ".toList
    let tokens := ["x".toList, "y".toList, "-7".toList, "last".toList]
    let requests : List Request := [.edge, .count, .edge, .token, .edge]
    Yields (Words.ofText s) tokens ∧
      (∀ c ∈ s, ¬ (c.toNat ≤ 0x8 ∨ (0xE ≤ c.toNat ∧ c.toNat ≤ 0x1F) ∨
        (0x80 ≤ c.toNat ∧ isBlank c = true))) ∧
      (Request.runAll (Words.ofText s) requests).1[1]? =
        some (.count (.error (.notACount .invalidDigit))) ∧
      (Request.runAll (Splitter.ofText s) requests).1[2]? = some (.edge (.error (.tooFew 2 1))) ∧
      (Request.runAll (Splitter.ofText s) requests).1[4]? =
        some (.edge (.error (.tooFew 2 0))) := by
  intro s tokens requests
  have hyields : Yields (Words.ofText s) tokens := Words.yields s
  have hascii : s.all (fun c => (0x9 ≤ c.toNat && c.toNat ≤ 0xD) ||
      (0x20 ≤ c.toNat && c.toNat < 0x80)) = true := rfl
  have hs : ∀ c ∈ s, ¬ (c.toNat ≤ 0x8 ∨ (0xE ≤ c.toNat ∧ c.toNat ≤ 0x1F) ∨
      (0x80 ≤ c.toNat ∧ isBlank c = true)) := by
    intro c hc
    have hrange := List.all_eq_true.1 hascii c hc
    simp only [Bool.or_eq_true, Bool.and_eq_true, decide_eq_true_eq] at hrange
    rintro (hlow | hcontrol | ⟨hhigh, -⟩) <;> omega
  obtain ⟨-, htokens, hsame⟩ := runAll_depends_on_tokens (Words.ofText s) requests
  obtain ⟨-, hanswers, -⟩ := htokens tokens hyields
  rw [hsame s hs]
  exact ⟨hyields, hs, hanswers 1 .count rfl, hanswers 2 .edge rfl, hanswers 4 .edge rfl⟩

end Record

end EdgeDot
