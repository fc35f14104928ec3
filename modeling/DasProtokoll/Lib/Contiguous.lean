import Mathlib.Data.List.Basic

/-!
# Ranges handed out one after another

Each range belongs to a key and starts where the one before it ends. So no number
is in two of them, and every number up to the end is in one.
-/

namespace DasProtokoll

variable {κ : Type*}

def Contiguous (first : Nat) : List (Nat × Nat × κ) → Nat → Prop
  | [], stop => first = stop
  | t :: ts, stop => t.1 = first ∧ t.1 ≤ t.2.1 ∧ Contiguous t.2.1 ts stop

namespace Contiguous

variable {first stop : Nat} {ts : List (Nat × Nat × κ)}

theorem le (h : Contiguous first ts stop) : first ≤ stop := by
  induction ts generalizing first with
  | nil => exact Nat.le_of_eq h
  | cons t ts ih =>
    unfold Contiguous at h
    obtain ⟨rfl, hle, h⟩ := h
    exact Nat.le_trans hle (ih h)

theorem snoc (h : Contiguous first ts stop) (n : Nat) (k : κ) :
    Contiguous first (ts ++ [(stop, stop + n, k)]) (stop + n) := by
  induction ts generalizing first with
  | nil =>
    unfold Contiguous at h
    subst h
    exact ⟨rfl, Nat.le_add_right _ _, rfl⟩
  | cons t ts ih =>
    unfold Contiguous at h
    exact ⟨h.1, h.2.1, ih h.2.2⟩

theorem bounds (h : Contiguous first ts stop) {t : Nat × Nat × κ} (ht : t ∈ ts) :
    first ≤ t.1 ∧ t.1 ≤ t.2.1 ∧ t.2.1 ≤ stop := by
  induction ts generalizing first with
  | nil => cases ht
  | cons a ts ih =>
    unfold Contiguous at h
    obtain ⟨rfl, hle, h⟩ := h
    rcases List.mem_cons.mp ht with rfl | ht
    · exact ⟨Nat.le_refl _, hle, h.le⟩
    · obtain ⟨hlo, hmid, hhi⟩ := ih h ht
      exact ⟨Nat.le_trans hle hlo, hmid, hhi⟩

theorem ordered (h : Contiguous first ts stop) : ts.Pairwise fun a b => a.2.1 ≤ b.1 := by
  induction ts generalizing first with
  | nil => exact .nil
  | cons t ts ih =>
    unfold Contiguous at h
    refine .cons ?_ (ih h.2.2)
    intro b hb
    exact (h.2.2.bounds hb).1

theorem owner (h : Contiguous first ts stop) {t u : Nat × Nat × κ} (ht : t ∈ ts) (hu : u ∈ ts)
    {i : Nat} (hti : t.1 ≤ i ∧ i < t.2.1) (hui : u.1 ≤ i ∧ i < u.2.1) : t = u := by
  induction ts generalizing first with
  | nil => cases ht
  | cons a ts ih =>
    obtain ⟨hbefore, -⟩ := List.pairwise_cons.mp h.ordered
    unfold Contiguous at h
    rcases List.mem_cons.mp ht with rfl | htail <;> rcases List.mem_cons.mp hu with rfl | hutail
    · rfl
    · have := hbefore u hutail
      omega
    · have := hbefore t htail
      omega
    · exact ih h.2.2 htail hutail

end Contiguous

end DasProtokoll
