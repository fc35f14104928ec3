import DasProtokoll.Lib.Result
import Mathlib.Data.List.Basic

/-!
# Data refinement

A data type is its operations. A concrete type refines an abstract one when each
operation gives the same output and keeps the two states related.
-/

namespace DasProtokoll

variable {σ τ ι ο : Type}

/-- The outputs of a sequence of operations, and the state after it. -/
def perform (next : σ → ι → Result (ο × σ)) (s : σ) : List ι → Result (List ο × σ)
  | [] => .ok ([], s)
  | i :: is => do
    let (o, s) ← next s i
    let (os, s) ← perform next s is
    return (o :: os, s)

/-- The same for operations that are total. -/
def transcript (spec : τ → ι → ο × τ) (t : τ) : List ι → List ο × τ
  | [] => ([], t)
  | i :: is =>
    let rest := transcript spec (spec t i).2 is
    ((spec t i).1 :: rest.1, rest.2)

section Rules

variable {next : σ → ι → Result (ο × σ)} {spec : τ → ι → ο × τ}

theorem perform_cons {s s' : σ} {i : ι} {o : ο} (h : next s i = .ok (o, s')) (is : List ι) :
    perform next s (i :: is) = (do
      let (os, s) ← perform next s' is
      return (o :: os, s)) := by
  rw [perform, h, Result.bind_ok]

/-- The simulation of one operation carries over to sequences. -/
theorem perform_refines {R : σ → τ → Prop} {is : List ι}
    (hstep : ∀ s t, ∀ i ∈ is, R s t → ∃ s', next s i = .ok ((spec t i).1, s') ∧ R s' (spec t i).2)
    {s : σ} {t : τ} (h : R s t) :
    ∃ s', perform next s is = .ok ((transcript spec t is).1, s') ∧ R s' (transcript spec t is).2 := by
  induction is generalizing s t with
  | nil => exact ⟨s, rfl, h⟩
  | cons i is ih =>
    obtain ⟨s', hnext, hrel⟩ := hstep s t i (by simp) h
    obtain ⟨u, hrest, hu⟩ := ih (fun s t j hj => hstep s t j (by simp [hj])) hrel
    refine ⟨u, ?_, hu⟩
    rw [perform_cons hnext, hrest]
    rfl

theorem perform_total {I : σ → Prop} {is : List ι}
    (hstep : ∀ s, ∀ i ∈ is, I s → ∃ o s', next s i = .ok (o, s') ∧ I s') {s : σ} (h : I s) :
    ∃ os s', perform next s is = .ok (os, s') ∧ I s' := by
  induction is generalizing s with
  | nil => exact ⟨[], s, rfl, h⟩
  | cons i is ih =>
    obtain ⟨o, s', hnext, hs'⟩ := hstep s i (by simp) h
    obtain ⟨os, u, hrest, hu⟩ := ih (fun s j hj => hstep s j (by simp [hj])) hs'
    refine ⟨o :: os, u, ?_, hu⟩
    rw [perform_cons hnext, hrest]
    rfl

end Rules

/-! ## A list that is taken from both ends -/

inductive End where
  | front
  | back
  deriving Repr, DecidableEq

variable {α : Type}

def pull (l : List α) : End → Option α × List α
  | .front => (l.head?, l.tail)
  | .back => (l.getLast?, l.dropLast)

/-- What came from one of the ends, in the order in which it came. -/
def taken (e : End) : List End → List (Option α) → List α
  | e' :: es, o :: os => (if e' = e then o.toList else []) ++ taken e es os
  | _, _ => []

theorem taken_append (ends : List End) (l : List α) :
    taken .front ends (transcript pull l ends).1 ++ (transcript pull l ends).2 ++
      (taken .back ends (transcript pull l ends).1).reverse = l := by
  induction ends generalizing l with
  | nil => simp [taken, transcript]
  | cons e ends ih =>
    simp only [transcript, taken]
    cases e with
    | front =>
      have htail := ih l.tail
      cases l with
      | nil => simpa [pull] using htail
      | cons a l => simpa [pull] using htail
    | back =>
      have hinit := ih l.dropLast
      rcases List.eq_nil_or_concat l with rfl | ⟨l, a, rfl⟩
      · simpa [pull] using hinit
      · simp only [pull, List.concat_eq_append, List.dropLast_concat, List.getLast?_concat] at hinit ⊢
        simp only [if_true, reduceCtorEq, if_false, List.nil_append, Option.toList_some,
          List.reverse_append, List.reverse_singleton]
        rw [← List.append_assoc, hinit]

theorem length_transcript_pull (ends : List End) (l : List α) :
    (transcript pull l ends).2.length = l.length - ends.length := by
  induction ends generalizing l with
  | nil => rfl
  | cons e ends ih =>
    rw [transcript, ih]
    cases e <;> simp [pull] <;> omega

end DasProtokoll
