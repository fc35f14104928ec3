import Mathlib.Tactic.Choose
import Mathlib.Tactic.TypeStar

/-!
# What a scheduler can bring about

A step takes a move of the scheduler and an answer of the environment. The
scheduler brings about a goal if its moves lead there, whatever the answers are.
-/

namespace DasProtokoll

variable {σ α β : Type*}

inductive Forces (step : σ → α → β → σ → Prop) (goal : σ → Prop) : σ → Prop
  | done {s : σ} : goal s → Forces step goal s
  | move {s : σ} (a : α) (next : β → σ) :
    (∀ b, step s a b (next b)) → (∀ b, Forces step goal (next b)) → Forces step goal s

namespace Forces

variable {step : σ → α → β → σ → Prop} {goal goal' : σ → Prop} {s : σ}

theorem play (a : α) (htotal : ∀ b, ∃ t, step s a b t)
    (h : ∀ b t, step s a b t → Forces step goal t) : Forces step goal s := by
  choose next hnext using htotal
  exact move a next hnext fun b => h b (next b) (hnext b)

theorem trans (h : Forces step goal s) (hgoal : ∀ t, goal t → Forces step goal' t) :
    Forces step goal' s := by
  induction h with
  | done ht => exact hgoal _ ht
  | move a next hstep _ ih => exact move a next hstep ih

theorem mono (h : Forces step goal s) (hgoal : ∀ t, goal t → goal' t) : Forces step goal' s :=
  h.trans fun t ht => done (hgoal t ht)

/-- Progress that is made again and again brings about the goal. -/
theorem of_progress {I : σ → Prop} (μ : σ → Nat)
    (hprogress : ∀ s, I s → Forces step (fun t => goal t ∨ I t ∧ μ t < μ s) s) (hs : I s) :
    Forces step goal s := by
  induction hn : μ s using Nat.strongRecOn generalizing s with
  | ind n ih =>
    apply (hprogress s hs).trans
    rintro t (ht | ⟨ht, hlt⟩)
    · exact done ht
    · exact ih (μ t) (hn ▸ hlt) ht rfl

theorem keeps {I : σ → Prop} (h : Forces step goal s) (hstep : ∀ s a b t, I s → step s a b t → I t)
    (hs : I s) : Forces step (fun t => goal t ∧ I t) s := by
  induction h with
  | done ht => exact done ⟨ht, hs⟩
  | move a next hnext _ ih => exact move a next hnext fun b => ih b (hstep _ a b _ hs (hnext b))

/-- A system that can follow each move, with an answer for each answer, can bring about the same. -/
theorem simulate {τ γ δ : Type*} {step' : τ → γ → δ → τ → Prop} (R : σ → τ → Prop) (h : Forces step goal s)
    (hmove : ∀ s t a (next : β → σ), R s t → (∀ b, step s a b (next b)) →
      ∃ c, ∀ d, ∃ b t', step' t c d t' ∧ R (next b) t') {t : τ} (ht : R s t) :
    Forces step' (fun u => ∃ s, goal s ∧ R s u) t := by
  induction h generalizing t with
  | done hgoal => exact done ⟨_, hgoal, ht⟩
  | move a next hstep _ ih =>
    obtain ⟨c, hc⟩ := hmove _ t a next ht hstep
    choose answer next' hstep' hrel using hc
    exact move c next' hstep' fun d => ih (answer d) (hrel d)

theorem lift {τ γ : Type*} {step' : τ → γ → β → τ → Prop} (f : σ → τ) (g : α → γ) (h : Forces step goal s)
    (hstep : ∀ s a b t, step s a b t → step' (f s) (g a) b (f t)) :
    Forces step' (fun u => ∃ t, goal t ∧ u = f t) (f s) := by
  refine simulate (fun s u => u = f s) h ?_ rfl
  rintro s t a next rfl hnext
  exact ⟨g a, fun b => ⟨b, _, hstep s a b _ (hnext b), rfl⟩⟩

end Forces

end DasProtokoll
