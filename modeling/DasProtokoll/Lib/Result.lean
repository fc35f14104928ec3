import Mathlib.Logic.Basic
import Mathlib.Tactic.Basic

/-!
# The outcome of a computation that may panic or run for ever

A panic and an endless recursion are results, not errors that a caller sees, so
they pass through every bind.
-/

namespace DasProtokoll

universe u v

inductive Result (α : Type u) where
  | ok (v : α)
  | panic
  | diverge
  deriving Repr, DecidableEq

namespace Result

variable {α : Type u} {β : Type v}

protected def bind : Result α → (α → Result β) → Result β
  | ok v, f => f v
  | panic, _ => panic
  | diverge, _ => diverge

instance : Monad Result where
  pure := ok
  bind := Result.bind

/-- The value of an option, or a panic on `none`. -/
def unwrap : Option α → Result α
  | some v => ok v
  | none => panic

/-- Panics unless the condition holds. -/
def assert (p : Prop) [Decidable p] : Result Unit :=
  if p then ok () else panic

/-! ## Rewriting -/

section Monad

variable {α β : Type u}

@[simp] theorem pure_def (v : α) : (pure v : Result α) = ok v := rfl
@[simp] theorem bind_ok (v : α) (f : α → Result β) : (ok v >>= f) = f v := rfl
@[simp] theorem bind_panic (f : α → Result β) : (panic >>= f) = panic := rfl
@[simp] theorem bind_diverge (f : α → Result β) : (diverge >>= f) = diverge := rfl

@[simp] theorem map_ok (g : α → β) (v : α) : g <$> ok v = ok (g v) := rfl

theorem bind_eq_ok {x : Result α} {f : α → Result β} {b : β} :
    (x >>= f) = ok b ↔ ∃ a, x = ok a ∧ f a = ok b := by
  cases x <;> simp

end Monad

@[simp] theorem unwrap_some (v : α) : unwrap (some v) = ok v := rfl
@[simp] theorem unwrap_none : unwrap (none : Option α) = panic := rfl

@[simp] theorem unwrap_eq_ok {o : Option α} {v : α} : unwrap o = ok v ↔ o = some v := by
  cases o <;> simp

@[simp] theorem assert_eq_ok {p : Prop} {_ : Decidable p} {u : Unit} : assert p = ok u ↔ p := by
  unfold assert
  split <;> simp_all

theorem assert_of {p : Prop} {_ : Decidable p} (h : p) : assert p = ok () := by
  rw [assert, if_pos h]

theorem assert_of_not {p : Prop} {_ : Decidable p} (h : ¬ p) : assert p = panic := by
  rw [assert, if_neg h]

/-- What holds of the value, if there is one, can be checked. -/
instance {x : Result α} {p : α → Prop} [DecidablePred p] : Decidable (∀ v, x = ok v → p v) :=
  match x with
  | ok v => decidable_of_iff (p v) (by simp)
  | panic => isTrue (by simp)
  | diverge => isTrue (by simp)

end Result

end DasProtokoll
