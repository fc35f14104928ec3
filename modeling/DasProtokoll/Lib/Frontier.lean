import Mathlib.Data.Set.Basic
import Mathlib.Logic.Relation

/-!
# Exploring a graph from its root

Nodes are fetched by their keys. What a fetched node leads to is waiting from then
on, unless it is there already. When nothing waits, all nodes are there.
-/

namespace DasProtokoll

open Relation

variable {α κ : Type*}

/-- What is not there yet is waiting, or something before it is. -/
structure Frontier (child : α → α → Prop) (key : α → κ) (root : α) (held waiting : Set κ) : Prop where
  atRoot : key root ∈ held ∨ key root ∈ waiting
  closed : ∀ n m, ReflTransGen child root n → key n ∈ held → child n m → key m ∈ held ∨ key m ∈ waiting

variable {child : α → α → Prop} {key : α → κ} {root x : α} {held waiting held' waiting' : Set κ}

theorem Frontier.start (hnone : ∀ n, ReflTransGen child root n → key n ∉ held) :
    Frontier child key root held {key root} :=
  ⟨Or.inr rfl, fun n _ hn hheld => absurd hheld (hnone n hn)⟩

theorem Frontier.complete (h : Frontier child key root held ∅) {n : α}
    (hn : ReflTransGen child root n) : key n ∈ held := by
  induction hn with
  | refl => exact h.atRoot.resolve_right (Set.notMem_empty _)
  | @tail n m hn hm ih => exact (h.closed n m hn ih hm).resolve_right (Set.notMem_empty _)

theorem Frontier.fetch (h : Frontier child key root held waiting)
    (hunique : ∀ n, ReflTransGen child root n → key n = key x → n = x)
    (hheld : ∀ k, k ∈ held' ↔ k = key x ∨ k ∈ held) (hwaiting : ∀ k ∈ waiting, k ≠ key x → k ∈ waiting')
    (hchildren : ∀ m, child x m → key m ∈ held' ∨ key m ∈ waiting') :
    Frontier child key root held' waiting' := by
  have hkeep {k : κ} (hk : k ∈ held ∨ k ∈ waiting) : k ∈ held' ∨ k ∈ waiting' := by
    by_cases hkx : k = key x
    · exact Or.inl ((hheld k).mpr (Or.inl hkx))
    · rcases hk with hk | hk
      · exact Or.inl ((hheld k).mpr (Or.inr hk))
      · exact Or.inr (hwaiting k hk hkx)
  refine ⟨hkeep h.atRoot, fun n m hn hkn hm => ?_⟩
  by_cases hnx : key n = key x
  · obtain rfl := hunique n hn hnx
    exact hchildren m hm
  · exact hkeep (h.closed n m hn (((hheld _).mp hkn).resolve_left hnx) hm)

end DasProtokoll
