import Mathlib.Data.Fintype.Card
import Mathlib.Logic.Relation

/-!
# Cycles of a relation

Following a relation with finitely many kinds of steps comes to an end where no
cycle can be reached, and never comes to an end on the way into a cycle.
-/

namespace DasProtokoll

open Relation

variable {α : Type*} {r : α → α → Prop} {a b : α}

/-- Some way from `a` leads into a cycle. -/
def Cyclic (r : α → α → Prop) (a : α) : Prop := ∃ b, ReflTransGen r a b ∧ TransGen r b b

theorem Cyclic.next (h : Cyclic r a) : ∃ b, r a b ∧ Cyclic r b := by
  obtain ⟨c, hac, hc⟩ := h
  rcases hac.cases_head with rfl | ⟨b, hab, hbc⟩
  · obtain ⟨b, hab, hba⟩ := TransGen.head'_iff.mp hc
    exact ⟨b, hab, _, hba, hc⟩
  · exact ⟨b, hab, c, hbc, hc⟩

/-- Without a cycle there is an induction along the relation, if the steps of an element depend on
finitely many values of it. -/
theorem acc_of_not_cyclic {β : Type*} [Finite β] (g : α → β)
    (hg : ∀ x x' y, g x = g x' → r x y → r x' y) (h : ¬ Cyclic r a) : Acc (fun y x => r x y) a := by
  -- the steps that can be taken from `a`, any number of them at once
  let below : β → β → Prop := fun v u => ∃ x y, ReflTransGen r a x ∧ TransGen r x y ∧ g x = u ∧ g y = v
  have hshift : ∀ {x x' y}, g x = g x' → TransGen r x y → TransGen r x' y := by
    intro x x' y heq hxy
    obtain ⟨z, hxz, hzy⟩ := TransGen.head'_iff.mp hxy
    exact TransGen.head'_iff.mpr ⟨z, hg x x' z heq hxz, hzy⟩
  have htrans : IsTrans β below := by
    constructor
    rintro _ _ _ ⟨x, y, hax, hxy, rfl, rfl⟩ ⟨x', y', hax', hxy', rfl, heq⟩
    exact ⟨x', y, hax', hxy'.trans (hshift heq.symm hxy), rfl, rfl⟩
  have hirrefl : Std.Irrefl below := by
    constructor
    rintro _ ⟨x, y, hax, hxy, hx, hy⟩
    exact h ⟨y, hax.trans hxy.to_reflTransGen, hshift (hx.trans hy.symm) hxy⟩
  have hwf : WellFounded below := Finite.wellFounded_of_trans_of_irrefl below
  have hacc : ∀ u x, g x = u → ReflTransGen r a x → Acc (fun y x => r x y) x := by
    intro u
    induction u using hwf.induction with
    | _ u ih =>
      intro x hx hax
      refine ⟨x, fun y hxy => ?_⟩
      exact ih (g y) ⟨x, y, hax, .single hxy, hx, rfl⟩ y rfl (hax.tail hxy)
  exact hacc (g a) a rfl .refl

end DasProtokoll
