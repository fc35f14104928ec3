import DasProtokoll.BitteEinBit.Operations
import DasProtokoll.Lib.Run

/-!
# Indices out of bounds

`check` lets the index `num_bits` pass, which is the first bit of the padding.
-/

namespace DasProtokoll.BitteEinBit

open DasProtokoll

/-- The calls that take an index and are expected to check it. -/
inductive Access where
  | get (bit : Nat)
  | set (bit : Nat) (new : Bool)
  deriving Repr, DecidableEq

def Access.bit : Access → Nat
  | get bit | set bit _ => bit

@[simp] theorem Access.bit_get (i : Nat) : (Access.get i).bit = i := rfl
@[simp] theorem Access.bit_set (i : Nat) (new : Bool) : (Access.set i new).bit = i := rfl

def Access.op : Access → Op
  | get bit => .get bit
  | set bit new => .set bit new

namespace BitMap

/-- The bitmap that a call leaves, also when it panics. -/
def left (m : BitMap) : Access → BitMap
  | .get _ => m
  | .set bit new =>
    match m.set bit new with
    | .ok (_, m) => m
    -- The byte is written before the counter is taken down.
    | _ => if bit ≤ m.numBits ∧ bit / 8 < m.buf.length then
        { m with buf := m.written bit new }
      else m

/-- A call panics just on an index out of bounds, and any other call keeps the counter right and the
padding as it is. -/
structure InBounds (m : BitMap) (a : Access) : Prop where
  panics : m.call a.op = .panic ↔ m.numBits ≤ a.bit
  zeroes : ∀ o m', m.call a.op = .ok (o, m') → m'.zeroes = m'.toBools.count false
  padding : ∀ o m', m.call a.op = .ok (o, m') → ∀ j, m.numBits ≤ j → m'.bit j = m.bit j
  all : ∀ o m', m.call a.op = .ok (o, m') → m'.all = true → ∀ i < m.numBits, m'.bit i = true

/-- The index is that of the first padding bit only where there is no padding, or where the counter
is at zero and the call would take it down. -/
def Guarded (m : BitMap) (a : Access) : Prop :=
  a.bit = m.numBits → m.numBits = m.buf.length * 8 ∨
    a = .set m.numBits true ∧ m.bit m.numBits = false ∧ m.zeroes = 0

instance {m : BitMap} {a : Access} : Decidable (m.Guarded a) :=
  inferInstanceAs (Decidable (_ → _))

/-! ## One call -/

theorem check_of_gt {m : BitMap} {i : Nat} (h : m.numBits < i) : m.check i = .panic :=
  Result.assert_of_not (by omega)

theorem byte_out {α : Type} {m : BitMap} {i : Nat}
    (h : m.numBits < i ∨ i = m.numBits ∧ m.buf.length ≤ i / 8) (f : UInt8 → Result α) :
    (do
      m.check i
      let byte ← Result.unwrap m.buf[i / 8]?
      f byte) = .panic := by
  rcases h with h | ⟨h, hlen⟩
  · rw [check_of_gt h]
    rfl
  · rw [check_of_le (le_of_eq h), List.getElem?_eq_none hlen]
    rfl

theorem call_out {m : BitMap} {a : Access}
    (h : m.numBits < a.bit ∨ a.bit = m.numBits ∧ m.buf.length ≤ a.bit / 8) :
    m.call a.op = .panic ∧ m.left a = m := by
  cases a with
  | get i =>
    rw [Access.bit_get] at h
    have hget : m.get i = .panic := byte_out h _
    refine ⟨?_, rfl⟩
    rw [Access.op, call, hget]
    rfl
  | set i new =>
    rw [Access.bit_set] at h
    have hset : m.set i new = .panic := byte_out h _
    refine ⟨by rw [Access.op, call, hset]; rfl, ?_⟩
    rw [left, hset]
    exact if_neg (by omega)

theorem call_in {m : BitMap} (hv : m.Valid) {a : Access} (ha : a.bit < m.numBits) :
    ∃ o, m.call a.op = .ok (o, m.left a) ∧ (m.left a).Valid ∧ (m.left a).numBits = m.numBits ∧
      ∀ j, m.numBits ≤ j → (m.left a).bit j = m.bit j := by
  cases a with
  | get i =>
    rw [Access.bit_get] at ha
    refine ⟨some (m.bit i), ?_, hv, rfl, fun _ _ => rfl⟩
    rw [Access.op, call, get_eq ha hv.fits]
    rfl
  | set i new =>
    rw [Access.bit_set] at ha
    obtain ⟨m', hset, hv', hn, -, hbit⟩ := set_eq new ha hv
    have hleft : m.left (.set i new) = m' := by rw [left, hset]
    rw [hleft]
    refine ⟨some (m.bit i), ?_, hv', hn, ?_⟩
    · rw [Access.op, call, hset]
      rfl
    · intro j hj
      rw [hbit, if_neg (by omega)]

theorem call_padding {m : BitMap} {a : Access} (ha : a.bit = m.numBits)
    (hlen : a.bit / 8 < m.buf.length) :
    m.call a.op = .panic ↔ a = .set m.numBits true ∧ m.bit m.numBits = false ∧ m.zeroes = 0 := by
  cases a with
  | get i =>
    rw [Access.bit_get] at ha hlen
    rw [Access.op, call, get, check_of_le (le_of_eq ha), buf_getElem? hlen]
    simp
  | set i new =>
    rw [Access.bit_set] at ha hlen
    subst ha
    rw [Access.op, call, set_written new le_rfl hlen]
    by_cases hsame : m.bit m.numBits = new
    · rw [if_pos hsame]
      cases new <;> simp [hsame]
    · rw [if_neg hsame]
      cases new with
      | false => simp
      | true =>
        by_cases hz : 0 < m.zeroes
        · rw [if_pos rfl, Result.assert_of hz]
          simp
          omega
        · rw [if_pos rfl, Result.assert_of_not hz]
          simp at hsame ⊢
          exact ⟨hsame, by omega⟩

theorem inBounds_of_panic {m : BitMap} {a : Access} (h : m.call a.op = .panic)
    (ha : m.numBits ≤ a.bit) : m.InBounds a where
  panics := by simp [h, ha]
  zeroes := by simp [h]
  padding := by simp [h]
  all := by simp [h]

theorem inBounds_iff {m : BitMap} (hv : m.Valid) (a : Access) : m.InBounds a ↔ m.Guarded a := by
  have hfits := hv.fits
  rcases Nat.lt_trichotomy a.bit m.numBits with hlt | heq | hgt
  · obtain ⟨o, hcall, hv', hn, hpadding⟩ := call_in hv hlt
    apply iff_of_true
    · refine ⟨?_, ?_, ?_, ?_⟩
      · simp [hcall, hlt]
      all_goals
        intro o' m' h
        rw [hcall, Result.ok.injEq, Prod.mk.injEq] at h
        rw [← h.2]
      · exact hv'.counted
      · exact hpadding
      · rw [← hn]
        exact hv'.all_iff.mp
    · intro h
      omega
  · by_cases hfull : m.numBits = m.buf.length * 8
    · have hpanic := (call_out (m := m) (a := a) (Or.inr ⟨heq, by omega⟩)).1
      exact iff_of_true (inBounds_of_panic hpanic (by omega)) fun _ => Or.inl hfull
    · have hpadding := call_padding heq (by omega)
      constructor
      · intro h _
        exact Or.inr (hpadding.mp (h.panics.mpr (by omega)))
      · intro h
        rcases h heq with h | h
        · exact absurd h hfull
        · exact inBounds_of_panic (hpadding.mpr h) (by omega)
  · have hpanic := (call_out (m := m) (a := a) (Or.inl hgt)).1
    apply iff_of_true (inBounds_of_panic hpanic (by omega))
    intro h
    omega

/-! ## Sequences of calls -/

theorem valid_left {m : BitMap} (hv : m.Valid) {a : Access} (hg : m.Guarded a) :
    (m.left a).Valid := by
  have hfits := hv.fits
  rcases Nat.lt_trichotomy a.bit m.numBits with hlt | heq | hgt
  · obtain ⟨-, -, hv', -⟩ := call_in hv hlt
    exact hv'
  · by_cases hlen : a.bit / 8 < m.buf.length
    · rcases hg heq with hfull | ⟨rfl, hbit, hz⟩
      · omega
      · -- The write has reached the padding, and the counter has stayed.
        have hset : m.set m.numBits true = .panic := by
          rw [set_written true le_rfl hlen, hbit, hz]
          rfl
        have hleft : m.left (.set m.numBits true) = { m with buf := m.written m.numBits true } := by
          rw [left, hset]
          exact if_pos ⟨le_rfl, hlen⟩
        rw [hleft]
        refine ⟨by simpa using hfits, ?_⟩
        rw [hv.counted, toBools, toBools]
        congr 1
        apply List.map_congr_left
        intro j hj
        have hne : j ≠ m.numBits := by
          rw [List.mem_range] at hj
          omega
        have hother := bit_written m (j := j) true hlen m.zeroes
        rw [Access.bit_set, if_neg hne] at hother
        exact hother.symm
    · rw [(call_out (Or.inr ⟨heq, by omega⟩)).2]
      exact hv
  · rw [(call_out (Or.inl hgt)).2]
    exact hv

/-- Whatever the indices are, all calls keep to the bounds exactly when none of them reaches into
the padding. -/
theorem bounds_iff (buf : Bytes) (n : Nat) (hn : n ≤ buf.length * 8) (accesses : List Access) :
    ∃ m, withLength buf n = .ok m ∧
      (Along (fun m a => .ok (m.left a)) InBounds m accesses ↔
        Along (fun m a => .ok (m.left a)) Guarded m accesses) := by
  obtain ⟨m, hm, -, -, hv⟩ := withLength_eq hn
  refine ⟨m, hm, Along.guard_iff hv ?_ ?_⟩
  · intro s a _ hs
    exact inBounds_iff hs a
  · intro s t a _ hs hg ht
    rw [Result.ok.injEq] at ht
    rw [← ht]
    exact valid_left hs hg

theorem bounds_iff_three :
    ∃ m, withLength [0] 3 = .ok m ∧
      (Along (fun m a => .ok (m.left a)) InBounds m [.get 2, .set 4 true, .set 3 true] ↔
        Along (fun m a => .ok (m.left a)) Guarded m [.get 2, .set 4 true, .set 3 true]) :=
  bounds_iff [0] 3 (by decide) _

/-- Index 3 of three bits is accepted, and makes the bitmap complete with bit 2 missing. -/
theorem get_set_num_bits :
    ∃ m outs m', withLength [0] 3 = .ok m ∧ m.get 3 = .ok false ∧
      perform call m [.set 0 true, .set 1 true, .set 3 true] = .ok (outs, m') ∧
      m'.all = true ∧ m'.bit 2 = false ∧ m'.bit 3 ≠ m.bit 3 :=
  ⟨⟨[0], 3, 3⟩, [some false, some false, some false], ⟨[11], 3, 0⟩, by decide⟩

end BitMap

end DasProtokoll.BitteEinBit
