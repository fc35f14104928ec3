import DasProtokoll.Lib.Varint

/-! # Integers of a fixed number of bytes, the low byte first -/

namespace DasProtokoll

def leBytes : Nat → Nat → Bytes
  | 0, _ => []
  | k + 1, n => UInt8.ofNat (n % 256) :: leBytes k (n / 256)

def ofLeBytes : Bytes → Nat
  | [] => 0
  | b :: bs => b.toNat + 256 * ofLeBytes bs

@[simp] theorem leBytes_length (k n : Nat) : (leBytes k n).length = k := by
  induction k generalizing n with
  | zero => rfl
  | succ k ih => simp [leBytes, ih]

theorem leBytes_take (k m n : Nat) (h : m ≤ k) : (leBytes k n).take m = leBytes m n := by
  induction m generalizing k n with
  | zero => rfl
  | succ m ih =>
    obtain ⟨j, rfl⟩ : ∃ j, k = j + 1 := ⟨k - 1, by omega⟩
    rw [leBytes, leBytes, List.take_succ_cons, ih j _ (by omega)]

theorem ofLeBytes_leBytes (k n : Nat) (h : n < 256 ^ k) : ofLeBytes (leBytes k n) = n := by
  induction k generalizing n with
  | zero =>
    have : n = 0 := by simpa using h
    rw [this, leBytes, ofLeBytes]
  | succ k ih =>
    have hdiv : n / 256 < 256 ^ k := by
      rw [Nat.div_lt_iff_lt_mul (by omega), ← pow_succ]
      exact h
    have hlow : (UInt8.ofNat (n % 256)).toNat = n % 256 := by
      rw [UInt8.toNat_ofNat']
      omega
    rw [leBytes, ofLeBytes, hlow, ih _ hdiv]
    omega

theorem ofLeBytes_append_zeros (bs : Bytes) (k : Nat) :
    ofLeBytes (bs ++ List.replicate k 0) = ofLeBytes bs := by
  induction bs with
  | nil =>
    induction k with
    | zero => rfl
    | succ k ih =>
      rw [List.nil_append] at ih ⊢
      rw [List.replicate_succ]
      simp [ofLeBytes, ih]
  | cons b bs ih => rw [List.cons_append, ofLeBytes, ih, ofLeBytes]

end DasProtokoll
