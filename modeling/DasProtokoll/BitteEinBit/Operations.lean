import DasProtokoll.BitteEinBit.BitMap
import DasProtokoll.Lib.Refinement

/-!
# The bitmap as a list of bits

The rest of the interface, and what any sequence of calls means for the bits.
-/

namespace DasProtokoll.BitteEinBit

open DasProtokoll

namespace BitMap

/-! ## The code -/

/-- The new value of the bit, and the bitmap with it. -/
def flipBit (m : BitMap) (bit : Nat) : Result (Bool × BitMap) := do
  m.check bit
  let byte ← Result.unwrap m.buf[bit / 8]?
  let byte := byte ^^^ bitmask bit
  let buf := m.buf.set (bit / 8) byte
  -- The whole byte is compared here, not only the bit.
  let new := byte == bitmask bit
  if new then
    Result.assert (0 < m.zeroes)
    return (new, { m with buf, zeroes := m.zeroes - 1 })
  else
    return (new, { m with buf, zeroes := m.zeroes + 1 })

def reset (m : BitMap) : BitMap :=
  { m with buf := m.buf.map fun _ => 0, zeroes := m.numBits }

def ones (m : BitMap) : Result Nat := do
  Result.assert (m.zeroes ≤ m.numBits)
  return m.numBits - m.zeroes

def any (m : BitMap) : Bool := m.zeroes != m.numBits

def Iter.nextBack (it : Iter) : Result (Option Bool × Iter) := do
  if it.front = it.back then return (none, it)
  Result.assert (0 < it.back)
  let it := { it with back := it.back - 1 }
  let bit ← it.bitmap.get it.back
  return (some bit, it)

def Iter.nextFrom (it : Iter) : End → Result (Option Bool × Iter)
  | .front => it.next
  | .back => it.nextBack

end BitMap

/-! ## Sequences of calls -/

inductive Op where
  | get (bit : Nat)
  | set (bit : Nat) (new : Bool)
  | flipBit (bit : Nat)
  | reset
  deriving Repr, DecidableEq

/-- The index of the call, if it has one, is that of a bit. -/
def Op.Within (n : Nat) : Op → Prop
  | get bit | set bit _ | flipBit bit => bit < n
  | reset => True

instance {n : Nat} {op : Op} : Decidable (op.Within n) := by
  cases op <;> unfold Op.Within <;> infer_instance

def BitMap.call (m : BitMap) : Op → Result (Option Bool × BitMap)
  | .get bit => do
    let b ← m.get bit
    return (some b, m)
  | .set bit new => do
    let (old, m) ← m.set bit new
    return (some old, m)
  | .flipBit bit => do
    let (new, m) ← m.flipBit bit
    return (some new, m)
  | .reset => .ok (none, m.reset)

/-- What the calls do to a list of bits. -/
def callBools (l : List Bool) : Op → Option Bool × List Bool
  | .get bit => (l[bit]?, l)
  | .set bit new => (l[bit]?, l.set bit new)
  | .flipBit bit => (l[bit]?.map not, l.modify bit not)
  | .reset => (none, l.map fun _ => false)

namespace BitMap

/-! ## The reads of a valid bitmap -/

theorem Valid.zeroes_le {m : BitMap} (h : m.Valid) : m.zeroes ≤ m.numBits := by
  rw [h.counted, ← m.toBools_length]
  exact List.count_le_length

theorem Valid.ones_eq {m : BitMap} (h : m.Valid) : m.ones = .ok (m.numBits - m.zeroes) := by
  rw [ones, Result.assert_of h.zeroes_le, Result.bind_ok]
  rfl

theorem Valid.all_eq {m : BitMap} (h : m.Valid) : m.all = m.toBools.all id := by
  rw [Bool.eq_iff_iff, h.all_iff]
  simp [toBools]

theorem Valid.any_eq {m : BitMap} (h : m.Valid) : m.any = m.toBools.any id := by
  have hlen : m.toBools.count false = m.numBits ↔ ∀ b ∈ m.toBools, false = b := by
    rw [← m.toBools_length]
    exact List.count_eq_length
  rw [any, h.counted, Bool.eq_iff_iff, bne_iff_ne, ne_eq, hlen]
  simp

/-! ## The iterator -/

/-- The iterator holds the bits that it has not passed, from either end. -/
def Iter.Holds (m : BitMap) (it : Iter) (l : List Bool) : Prop :=
  it.bitmap = m ∧ it.front ≤ it.back ∧ it.back ≤ m.numBits ∧
    l = (List.range' it.front (it.back - it.front)).map m.bit

theorem Iter.holds_iter (m : BitMap) : Iter.Holds m m.iter m.toBools :=
  ⟨rfl, by simp [iter], by simp [iter], by simp [iter, toBools, List.range_eq_range']⟩

theorem Iter.next_holds {m : BitMap} (hf : m.numBits ≤ m.buf.length * 8) {it : Iter}
    {l : List Bool} (h : Holds m it l) :
    ∃ it', it.next = .ok (l.head?, it') ∧ Holds m it' l.tail := by
  obtain ⟨rfl, hle, hback, rfl⟩ := h
  unfold next
  by_cases hend : it.front = it.back
  · refine ⟨it, by simp [hend], rfl, hle, hback, by simp [hend]⟩
  · rw [if_neg hend, get_eq (by omega) hf]
    obtain ⟨n, hn⟩ : ∃ n, it.back - it.front = n + 1 := ⟨it.back - it.front - 1, by omega⟩
    refine ⟨{ it with front := it.front + 1 }, by simp [hn, List.range'_succ], rfl, ?_, hback, ?_⟩
    · simp only
      omega
    · have hrest : it.back - (it.front + 1) = n := by omega
      simp [hn, hrest, List.range'_succ]

theorem Iter.nextBack_holds {m : BitMap} (hf : m.numBits ≤ m.buf.length * 8) {it : Iter}
    {l : List Bool} (h : Holds m it l) :
    ∃ it', it.nextBack = .ok (l.getLast?, it') ∧ Holds m it' l.dropLast := by
  obtain ⟨rfl, hle, hback, rfl⟩ := h
  unfold nextBack
  by_cases hend : it.front = it.back
  · refine ⟨it, by simp [hend], rfl, hle, hback, by simp [hend]⟩
  · rw [if_neg hend, Result.assert_of (by omega), Result.bind_ok]
    simp only
    rw [get_eq (by omega) hf]
    obtain ⟨n, hn⟩ : ∃ n, it.back - it.front = n + 1 := ⟨it.back - it.front - 1, by omega⟩
    have hlast : it.back - 1 = it.front + n := by omega
    refine ⟨{ it with back := it.back - 1 }, by simp [hn, hlast, List.range'_concat], rfl, ?_, ?_, ?_⟩
    · simp only
      omega
    · simp only
      omega
    · have hrest : it.front + n - it.front = n := by omega
      simp [hn, hlast, hrest, List.range'_concat]

theorem Iter.nextFrom_refines {m : BitMap} (hf : m.numBits ≤ m.buf.length * 8) (ends : List End) :
    ∃ it, perform Iter.nextFrom m.iter ends =
      .ok ((transcript pull m.toBools ends).1, it) := by
  have hstep : ∀ it l, ∀ e ∈ ends, Holds m it l →
      ∃ it', nextFrom it e = .ok ((pull l e).1, it') ∧ Holds m it' (pull l e).2 := by
    rintro it l e - h
    cases e with
    | front => exact next_holds hf h
    | back => exact nextBack_holds hf h
  obtain ⟨it, hrun, -⟩ := perform_refines hstep (holds_iter m)
  exact ⟨it, hrun⟩

/-! ## The calls -/

theorem toBools_set {m m' : BitMap} {i : Nat} {new : Bool} (hn : m'.numBits = m.numBits)
    (hbit : ∀ j, m'.bit j = if j = i then new else m.bit j) : m'.toBools = m.toBools.set i new := by
  apply List.ext_getElem?
  intro j
  rw [List.getElem?_set]
  by_cases hj : j < m.numBits
  · rw [toBools_getElem? (by omega), toBools_getElem? hj, hbit, toBools_length]
    by_cases hij : i = j
    · simp [hij, hj]
    · simp [hij, show j ≠ i by omega]
  · simp [show m.numBits ≤ j by omega, hn]
    omega

@[simp] theorem bit_reset (m : BitMap) (i : Nat) : m.reset.bit i = false := by
  simp only [bit, reset, List.getD_eq_getElem?_getD, List.getElem?_map]
  cases m.buf[i / 8]? <;> simp

theorem toBools_reset (m : BitMap) : m.reset.toBools = m.toBools.map fun _ => false := by
  rw [toBools, List.map_congr_left fun i _ => bit_reset m i, toBools, List.map_map]
  rfl

theorem reset_excess {m : BitMap} (hf : m.numBits ≤ m.buf.length * 8) : m.reset.Excess 0 := by
  refine ⟨by simpa [reset] using hf, ?_⟩
  rw [toBools_reset, List.map_const', List.count_replicate_self, toBools_length]
  rfl

theorem Excess.call_eq {m : BitMap} {e : Nat} (h : m.Excess e) {op : Op}
    (hop : op.Within m.numBits) (hflip : ∀ i, op ≠ .flipBit i) :
    ∃ m' e', m.call op = .ok ((callBools m.toBools op).1, m') ∧ m'.Excess e' ∧ e' ≤ e ∧
      m'.numBits = m.numBits ∧ m'.toBools = (callBools m.toBools op).2 := by
  cases op with
  | get i =>
    refine ⟨m, e, ?_, h, le_rfl, rfl, rfl⟩
    rw [call, get_eq hop h.fits, callBools, toBools_getElem? hop]
    rfl
  | set i new =>
    obtain ⟨m', hset, hm', hn, -, hbit⟩ := h.set_eq hop new
    refine ⟨m', e, ?_, hm', le_rfl, hn, toBools_set hn hbit⟩
    rw [call, hset, callBools, toBools_getElem? hop]
    rfl
  | flipBit i => exact absurd rfl (hflip i)
  | reset => exact ⟨m.reset, 0, rfl, reset_excess h.fits, Nat.zero_le e, rfl, toBools_reset m⟩

theorem Valid.call_refines {m : BitMap} (hv : m.Valid) {ops : List Op}
    (hops : ∀ op ∈ ops, op.Within m.numBits ∧ ∀ i, op ≠ .flipBit i) :
    ∃ m', perform call m ops = .ok ((transcript callBools m.toBools ops).1, m') ∧ m'.Valid ∧
      m'.numBits = m.numBits ∧ m'.toBools = (transcript callBools m.toBools ops).2 := by
  have hstep : ∀ s l, ∀ op ∈ ops,
      (s.Valid ∧ s.numBits = m.numBits ∧ s.toBools = l) →
      ∃ s', call s op = .ok ((callBools l op).1, s') ∧
        (s'.Valid ∧ s'.numBits = m.numBits ∧ s'.toBools = (callBools l op).2) := by
    rintro s l op hop ⟨hs, hn, rfl⟩
    obtain ⟨hin, hflip⟩ := hops op hop
    obtain ⟨s', e', hcall, hs', he, hn', hbools⟩ :=
      (valid_iff.mp hs).call_eq (by rw [hn]; exact hin) hflip
    rw [Nat.le_zero.mp he] at hs'
    exact ⟨s', hcall, valid_iff.mpr hs', hn'.trans hn, hbools⟩
  exact perform_refines hstep ⟨hv, rfl, rfl⟩

/-- What the bitmap answers is what its bits say, and a write touches one bit only. -/
structure Faithful (m : BitMap) : Prop where
  zeroes : m.zeroes = m.toBools.count false
  ones : m.ones = .ok (m.numBits - m.zeroes)
  all : m.all = m.toBools.all id
  any : m.any = m.toBools.any id
  set : ∀ i < m.numBits, ∀ new, ∃ m', m.set i new = .ok (m.bit i, m') ∧
    m'.buf.length = m.buf.length ∧ ∀ j, m'.bit j = if j = i then new else m.bit j
  iter : ∀ ends, ∃ outs it rest, perform Iter.nextFrom m.iter ends = .ok (outs, it) ∧
    outs = (transcript pull m.toBools ends).1 ∧
    taken .front ends outs ++ rest ++ (taken .back ends outs).reverse = m.toBools ∧
    rest.length = m.numBits - ends.length

theorem Valid.faithful {m : BitMap} (hv : m.Valid) : m.Faithful where
  zeroes := hv.counted
  ones := hv.ones_eq
  all := hv.all_eq
  any := hv.any_eq
  set := by
    intro i hi new
    obtain ⟨m', hset, -, -, hlen, hbit⟩ := set_eq new hi hv
    exact ⟨m', hset, hlen, hbit⟩
  iter := by
    intro ends
    obtain ⟨it, hrun⟩ := Iter.nextFrom_refines hv.fits ends
    refine ⟨_, it, _, hrun, rfl, taken_append ends m.toBools, ?_⟩
    rw [length_transcript_pull, toBools_length]

/-- A bitmap over any buffer is the list of its bits, through all calls. -/
theorem refines_bools (buf : Bytes) (n : Nat) (hn : n ≤ buf.length * 8) (ops : List Op)
    (hops : ∀ op ∈ ops, op.Within n ∧ ∀ i, op ≠ .flipBit i) :
    ∃ m₀ m outs, withLength buf n = .ok m₀ ∧ m₀.buf = buf ∧ m₀.numBits = n ∧
      perform call m₀ ops = .ok (outs, m) ∧ m.numBits = n ∧
      (outs, m.toBools) = transcript callBools m₀.toBools ops ∧ m.Faithful := by
  obtain ⟨m₀, hm₀, hbuf, rfl, hv⟩ := withLength_eq hn
  obtain ⟨m, hrun, hm, hnum, hbools⟩ := hv.call_refines hops
  exact ⟨m₀, m, _, hm₀, hbuf, rfl, hrun, hnum, by rw [hbools], hm.faithful⟩

theorem refines_bools_three :
    ∃ m₀ m outs, withLength [0xA5] 3 = .ok m₀ ∧ m₀.buf = [0xA5] ∧ m₀.numBits = 3 ∧
      perform call m₀ [.set 1 true, .get 1, .reset, .set 2 true] = .ok (outs, m) ∧ m.numBits = 3 ∧
      (outs, m.toBools) =
        transcript callBools m₀.toBools [.set 1 true, .get 1, .reset, .set 2 true] ∧
      m.Faithful :=
  refines_bools [0xA5] 3 (by decide) _ (by simp [Op.Within])

end BitMap

end DasProtokoll.BitteEinBit
