import DasProtokoll.Lib.Result

/-!
# Computations with a bound on their depth

A function of the fuel terminates when some fuel gives a result that more fuel
does not change.
-/

namespace DasProtokoll

variable {α β : Type}

def Settles (f : Nat → Result α) (r : Result α) : Prop := ∃ fuel₀, ∀ fuel ≥ fuel₀, f fuel = r

def Terminates (f : Nat → Result α) : Prop := ∃ r, r ≠ .diverge ∧ Settles f r

theorem Settles.const {r : Result α} : Settles (fun _ => r) r := ⟨0, fun _ _ => rfl⟩

theorem Settles.succ {f : Nat → Result α} {r : Result α} (h : Settles (fun fuel => f (fuel + 1)) r) :
    Settles f r := by
  obtain ⟨fuel₀, h₀⟩ := h
  refine ⟨fuel₀ + 1, ?_⟩
  intro fuel hfuel
  obtain ⟨fuel, rfl⟩ := Nat.exists_eq_succ_of_ne_zero (by omega : fuel ≠ 0)
  exact h₀ fuel (by omega)

theorem Settles.bind {f : Nat → Result α} {g : Nat → α → Result β} {a : α} {r : Result β}
    (hf : Settles f (.ok a)) (hg : Settles (fun fuel => g fuel a) r) :
    Settles (fun fuel => f fuel >>= g fuel) r := by
  obtain ⟨fuel₁, h₁⟩ := hf
  obtain ⟨fuel₂, h₂⟩ := hg
  refine ⟨max fuel₁ fuel₂, ?_⟩
  intro fuel hfuel
  show f fuel >>= g fuel = r
  rw [h₁ fuel (by omega), Result.bind_ok]
  exact h₂ fuel (by omega)

theorem Settles.bind_panic {f : Nat → Result α} (g : Nat → α → Result β) (hf : Settles f .panic) :
    Settles (fun fuel => f fuel >>= g fuel) .panic := by
  obtain ⟨fuel₀, h₀⟩ := hf
  refine ⟨fuel₀, ?_⟩
  intro fuel hfuel
  show f fuel >>= g fuel = .panic
  rw [h₀ fuel hfuel, Result.bind_panic]

theorem Terminates.const {r : Result α} (h : r ≠ .diverge) : Terminates fun _ => r := ⟨r, h, .const⟩

theorem Terminates.succ {f : Nat → Result α} (h : Terminates fun fuel => f (fuel + 1)) :
    Terminates f := by
  obtain ⟨r, hr, hf⟩ := h
  exact ⟨r, hr, hf.succ⟩

theorem Terminates.bind {f : Nat → Result α} {g : Nat → α → Result β} (hf : Terminates f)
    (hg : ∀ a, Settles f (.ok a) → Terminates fun fuel => g fuel a) :
    Terminates fun fuel => f fuel >>= g fuel := by
  obtain ⟨r, hr, hf⟩ := hf
  cases r with
  | ok a =>
    obtain ⟨b, hb, hg⟩ := hg a hf
    exact ⟨b, hb, hf.bind hg⟩
  | panic => exact ⟨.panic, by simp, hf.bind_panic g⟩
  | diverge => exact absurd rfl hr

theorem not_terminates_of_diverge {f : Nat → Result α} (h : ∀ fuel, f fuel = .diverge) :
    ¬ Terminates f := by
  rintro ⟨r, hr, fuel₀, h₀⟩
  exact hr ((h₀ fuel₀ (Nat.le_refl _)).symm.trans (h fuel₀))

end DasProtokoll
