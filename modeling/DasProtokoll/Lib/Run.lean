import DasProtokoll.Lib.Result
import Mathlib.Data.List.Basic

/-!
# Runs of a labelled transition system

A run lists its transitions, so that a statement can speak about all states that
it passes through and about the steps between them.
-/

namespace DasProtokoll

variable {σ α : Type*}

structure Transition (σ α : Type*) where
  source : σ
  label : α
  target : σ

inductive Run (step : σ → α → σ → Prop) (s : σ) : List (Transition σ α) → σ → Prop
  | nil : Run step s [] s
  | snoc {l : List (Transition σ α)} {t : σ} {a : α} {u : σ} :
    Run step s l t → step t a u → Run step s (l ++ [⟨t, a, u⟩]) u

def Reachable (step : σ → α → σ → Prop) (s t : σ) : Prop := ∃ l, Run step s l t

variable {step : σ → α → σ → Prop} {s t u : σ}

theorem Reachable.refl : Reachable step s s := ⟨[], .nil⟩

theorem Reachable.snoc {a : α} (h : Reachable step s t) (ht : step t a u) : Reachable step s u := by
  obtain ⟨l, hl⟩ := h
  exact ⟨_, hl.snoc ht⟩

theorem Run.trans {l m : List (Transition σ α)} (h : Run step s l t) (h' : Run step t m u) :
    Run step s (l ++ m) u := by
  induction h' with
  | nil => simpa using h
  | snoc _ hs ih => rw [← List.append_assoc]; exact ih.snoc hs

theorem Reachable.trans (h : Reachable step s t) (h' : Reachable step t u) :
    Reachable step s u := by
  obtain ⟨l, hl⟩ := h
  obtain ⟨m, hm⟩ := h'
  exact ⟨_, hl.trans hm⟩

theorem Run.mem {l : List (Transition σ α)} (h : Run step s l t) {r : Transition σ α} (hr : r ∈ l) :
    Reachable step s r.source ∧ step r.source r.label r.target ∧ Reachable step r.target t := by
  induction h with
  | nil => simp at hr
  | @snoc l t a u hl ht ih =>
    rcases List.mem_append.mp hr with hr | hr
    · obtain ⟨hbefore, hstep, hafter⟩ := ih hr
      exact ⟨hbefore, hstep, hafter.snoc ht⟩
    · obtain rfl := List.mem_singleton.mp hr
      exact ⟨⟨l, hl⟩, ht, .refl⟩

theorem Reachable.invariant {I : σ → Prop} (h : Reachable step s t) (hs : I s)
    (hstep : ∀ t a u, I t → step t a u → I u) : I t := by
  obtain ⟨l, hl⟩ := h
  induction hl with
  | nil => exact hs
  | snoc _ ht ih => exact hstep _ _ _ ih ht

/-- An invariant that each guarded step keeps holds along the runs that meet the guard. -/
theorem Run.guarded {I : σ → Prop} {Guard : Transition σ α → Prop} {l : List (Transition σ α)}
    (h : Run step s l t) (hs : I s)
    (hstep : ∀ t a u, I t → step t a u → Guard ⟨t, a, u⟩ → I u) (hg : ∀ r ∈ l, Guard r) :
    I t ∧ ∀ r ∈ l, I r.source ∧ I r.target ∧ step r.source r.label r.target := by
  induction h with
  | nil => exact ⟨hs, by simp⟩
  | @snoc l t a u _ ht ih =>
    obtain ⟨hinv, hall⟩ := ih fun r hr => hg r (by simp [hr])
    have hu := hstep t a u hinv ht (hg _ (by simp))
    refine ⟨hu, ?_⟩
    intro r hr
    rcases List.mem_append.mp hr with hr | hr
    · exact hall r hr
    · obtain rfl := List.mem_singleton.mp hr
      exact ⟨hinv, hu, ht⟩

/-- Where a step is good exactly when it meets the guard, a run is. -/
theorem Run.guard_iff {I : σ → Prop} {Good Guard : Transition σ α → Prop}
    {l : List (Transition σ α)} (h : Run step s l t) (hs : I s)
    (hiff : ∀ t a u, I t → step t a u → (Good ⟨t, a, u⟩ ↔ Guard ⟨t, a, u⟩))
    (hstep : ∀ t a u, I t → step t a u → Guard ⟨t, a, u⟩ → I u) :
    (∀ r ∈ l, Good r) ↔ ∀ r ∈ l, Guard r := by
  induction h with
  | nil => simp
  | @snoc l t a u hl ht ih =>
    simp only [List.forall_mem_append, List.forall_mem_singleton, ih]
    constructor
    · rintro ⟨hg, hgood⟩
      exact ⟨hg, (hiff t a u (hl.guarded hs hstep hg).1 ht).mp hgood⟩
    · rintro ⟨hg, hguard⟩
      exact ⟨hg, (hiff t a u (hl.guarded hs hstep hg).1 ht).mpr hguard⟩

/-! ## Executable steps -/

/-- Takes one step for each label. -/
def replay (next : σ → α → Result σ) (s : σ) : List α → Result σ
  | [] => .ok s
  | a :: as => do
    let s ← next s a
    replay next s as

/-- The transitions of a replay, up to the first step that fails. -/
def transitions (next : σ → α → Result σ) (s : σ) : List α → List (Transition σ α)
  | [] => []
  | a :: as =>
    match next s a with
    | .ok t => ⟨s, a, t⟩ :: transitions next t as
    | _ => []

theorem replay_transitions {next : σ → α → Result σ}
    (hnext : ∀ s a t, next s a = .ok t → step s a t) {as : List α} (h : replay next s as = .ok t) :
    Run step s (transitions next s as) t ∧ (transitions next s as).map Transition.label = as := by
  induction as generalizing s with
  | nil =>
    rw [replay, Result.ok.injEq] at h
    exact ⟨h ▸ .nil, rfl⟩
  | cons a as ih =>
    obtain ⟨u, hu, h⟩ := Result.bind_eq_ok.mp h
    obtain ⟨hrun, hlabels⟩ := ih h
    simp only [transitions, hu]
    exact ⟨(Run.nil.snoc (hnext s a u hu)).trans hrun, by rw [List.map_cons, hlabels]⟩

theorem replay_run {next : σ → α → Result σ} {G : Transition σ α → Prop}
    (hnext : ∀ s a t, next s a = .ok t → step s a t ∧ G ⟨s, a, t⟩) {as : List α}
    (h : replay next s as = .ok t) : ∃ l, Run step s l t ∧ ∀ r ∈ l, G r := by
  induction as generalizing s with
  | nil =>
    rw [replay, Result.ok.injEq] at h
    exact ⟨[], h ▸ .nil, by simp⟩
  | cons a as ih =>
    obtain ⟨u, hu, h⟩ := Result.bind_eq_ok.mp h
    obtain ⟨hstep, hguard⟩ := hnext s a u hu
    obtain ⟨l, hl, hall⟩ := ih h
    refine ⟨[⟨s, a, u⟩] ++ l, (Run.nil.snoc hstep).trans hl, ?_⟩
    rw [List.forall_mem_append, List.forall_mem_singleton]
    exact ⟨hguard, hall⟩

theorem replay_reachable {next : σ → α → Result σ} (hnext : ∀ s a t, next s a = .ok t → step s a t)
    {as : List α} (h : replay next s as = .ok t) : Reachable step s t := by
  obtain ⟨l, hl, -⟩ := replay_run (G := fun _ => True) (fun s a t h => ⟨hnext s a t h, trivial⟩) h
  exact ⟨l, hl⟩

/-- Each step of a replay has the property, up to the first one that fails. -/
def Along (next : σ → α → Result σ) (P : σ → α → Prop) (s : σ) : List α → Prop
  | [] => True
  | a :: as => P s a ∧ ∀ t, next s a = .ok t → Along next P t as

instance Along.decidable {next : σ → α → Result σ} {P : σ → α → Prop} [∀ s a, Decidable (P s a)] :
    ∀ s as, Decidable (Along next P s as)
  | _, [] => isTrue trivial
  | s, a :: as =>
    have : ∀ t, Decidable (Along next P t as) := fun t => Along.decidable t as
    inferInstanceAs (Decidable (P s a ∧ ∀ t, next s a = .ok t → Along next P t as))

theorem Along.guard_iff {next : σ → α → Result σ} {I : σ → Prop} {Good Guard : σ → α → Prop}
    {as : List α} (hs : I s) (hiff : ∀ s, ∀ a ∈ as, I s → (Good s a ↔ Guard s a))
    (hstep : ∀ s t, ∀ a ∈ as, I s → Guard s a → next s a = .ok t → I t) :
    Along next Good s as ↔ Along next Guard s as := by
  induction as generalizing s with
  | nil => exact Iff.rfl
  | cons a as ih =>
    unfold Along
    rw [hiff s a (by simp) hs]
    apply and_congr_right
    intro hguard
    apply forall_congr'
    intro t
    apply imp_congr_right
    intro ht
    exact ih (hstep s t a (by simp) hs hguard ht) (fun s a ha => hiff s a (by simp [ha]))
      (fun s t a ha => hstep s t a (by simp [ha]))

theorem Along.congr {next : σ → α → Result σ} {I : σ → Prop} {P Q : σ → α → Prop} (hs : I s)
    (hiff : ∀ s a, I s → (P s a ↔ Q s a)) (hstep : ∀ s a t, I s → next s a = .ok t → I t)
    (as : List α) : Along next P s as ↔ Along next Q s as :=
  Along.guard_iff hs (fun s a _ => hiff s a) fun s t a _ hs _ => hstep s a t hs

end DasProtokoll
