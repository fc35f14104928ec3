import DasProtokoll.Lib.Varint
import Mathlib.Data.List.Count
import Mathlib.Tactic.IntervalCases

/-! # The bitmap over a byte buffer -/

namespace DasProtokoll.BitteEinBit

open DasProtokoll

structure BitMap where
  buf : Bytes
  numBits : Nat
  zeroes : Nat
  deriving Repr, DecidableEq

namespace BitMap

/-! ## The code -/

-- The index `num_bits` passes this check.
def check (m : BitMap) (bit : Nat) : Result Unit := Result.assert (¬ m.numBits < bit)

def bitmask (bit : Nat) : UInt8 := 1 <<< UInt8.ofNat (bit % 8)

def get (m : BitMap) (bit : Nat) : Result Bool := do
  m.check bit
  let byte ← Result.unwrap m.buf[bit / 8]?
  return (byte &&& bitmask bit) == bitmask bit

/-- The old value of the bit, and the bitmap with the new one. -/
def set (m : BitMap) (bit : Nat) (new : Bool) : Result (Bool × BitMap) := do
  m.check bit
  let byte ← Result.unwrap m.buf[bit / 8]?
  let old := (byte &&& bitmask bit) == bitmask bit
  if old = new then return (old, m)
  let byte := (byte &&& ~~~ bitmask bit) ||| (new.toUInt8 <<< UInt8.ofNat (bit % 8))
  let buf := m.buf.set (bit / 8) byte
  if new then
    Result.assert (0 < m.zeroes)
    return (old, { m with buf, zeroes := m.zeroes - 1 })
  else
    return (old, { m with buf, zeroes := m.zeroes + 1 })

def all (m : BitMap) : Bool := m.zeroes == 0

structure Iter where
  bitmap : BitMap
  front : Nat
  back : Nat

def iter (m : BitMap) : Iter := { bitmap := m, front := 0, back := m.numBits }

def Iter.next (it : Iter) : Result (Option Bool × Iter) := do
  if it.front = it.back then return (none, it)
  let bit ← it.bitmap.get it.front
  return (some bit, { it with front := it.front + 1 })

/-- What a `for` loop over the iterator sees. -/
def Iter.collect : Nat → Iter → Result (List Bool)
  | 0, _ => .diverge
  | fuel + 1, it => do
    match ← it.next with
    | (none, _) => return []
    | (some bit, it) =>
      let rest ← collect fuel it
      return bit :: rest

def bits (m : BitMap) : Result (List Bool) := m.iter.collect (m.numBits + 1)

def withLength (buf : Bytes) (numBits : Nat) : Result BitMap := do
  Result.assert (¬ buf.length * 8 < numBits)
  let map : BitMap := { buf, numBits, zeroes := 0 }
  let bits ← map.bits
  return { map with zeroes := bits.count false }

/-! ## The bits of a buffer -/

/-- Bit `i` of the buffer, low bits of a byte first. -/
def bit (m : BitMap) (i : Nat) : Bool := (m.buf.getD (i / 8) 0).toBitVec.getLsbD (i % 8)

def toBools (m : BitMap) : List Bool := (List.range m.numBits).map m.bit

/-- The buffer holds all bits, and `zeroes` counts the ones that are `0`. -/
structure Valid (m : BitMap) : Prop where
  fits : m.numBits ≤ m.buf.length * 8
  counted : m.zeroes = m.toBools.count false

@[simp] theorem toBools_length (m : BitMap) : m.toBools.length = m.numBits := by simp [toBools]

theorem toBools_getElem? {m : BitMap} {i : Nat} (h : i < m.numBits) :
    m.toBools[i]? = some (m.bit i) := by
  simp [toBools, List.getElem?_range h]

theorem bitmask_twoPow (i : Nat) : (bitmask i).toBitVec = BitVec.twoPow 8 (i % 8) := by
  have h8 : i % 8 < 8 := Nat.mod_lt _ (by omega)
  rw [bitmask]
  generalize i % 8 = k at h8
  interval_cases k <;> rfl

theorem test_mask (b : UInt8) (i : Nat) :
    ((b &&& bitmask i) == bitmask i) = b.toBitVec.getLsbD (i % 8) := by
  have h8 : i % 8 < 8 := Nat.mod_lt _ (by omega)
  have hne : (0#8 : BitVec 8) ≠ BitVec.twoPow 8 (i % 8) := by
    generalize i % 8 = k at h8
    interval_cases k <;> decide
  rw [Bool.eq_iff_iff, beq_iff_eq, ← UInt8.toBitVec_inj, UInt8.toBitVec_and, bitmask_twoPow,
    BitVec.and_twoPow]
  split
  · simp [*]
  · simp only [hne, false_iff]
    assumption

theorem set_mask (b : UInt8) (new : Bool) (i j : Nat) (hj : j < 8) :
    ((b &&& ~~~ bitmask i) ||| (new.toUInt8 <<< UInt8.ofNat (i % 8))).toBitVec.getLsbD j =
      if j = i % 8 then new else b.toBitVec.getLsbD j := by
  have h8 : i % 8 < 8 := Nat.mod_lt _ (by omega)
  have hn : (new.toUInt8 <<< UInt8.ofNat (i % 8)).toBitVec =
      if new then BitVec.twoPow 8 (i % 8) else 0#8 := by
    generalize i % 8 = k at h8
    cases new <;> interval_cases k <;> rfl
  simp only [UInt8.toBitVec_or, UInt8.toBitVec_and, UInt8.toBitVec_not, bitmask_twoPow, hn]
  cases new with
  | false =>
    simp [hj]
    grind
  | true =>
    simp [hj]
    grind

theorem check_of_le {m : BitMap} {i : Nat} (h : i ≤ m.numBits) : m.check i = .ok () :=
  Result.assert_of (by omega)

theorem le_of_check {m : BitMap} {i : Nat} {u : Unit} (h : m.check i = .ok u) : i ≤ m.numBits := by
  rw [check, Result.assert_eq_ok] at h
  omega

theorem buf_getElem? {m : BitMap} {i : Nat} (h : i / 8 < m.buf.length) :
    m.buf[i / 8]? = some (m.buf.getD (i / 8) 0) := by
  rw [List.getD_eq_getElem?_getD, List.getElem?_eq_getElem h]
  rfl

/-! ## Reading -/

theorem get_eq {m : BitMap} {i : Nat} (hi : i < m.numBits) (hf : m.numBits ≤ m.buf.length * 8) :
    m.get i = .ok (m.bit i) := by
  rw [get, check_of_le (by omega), buf_getElem? (by omega)]
  simp [test_mask, bit]

theorem le_of_get {m : BitMap} {i : Nat} {b : Bool} (h : m.get i = .ok b) : i ≤ m.numBits := by
  obtain ⟨_, hcheck, -⟩ := Result.bind_eq_ok.mp h
  exact le_of_check hcheck

theorem bit_of_get {m : BitMap} {i : Nat} {b : Bool} (h : m.get i = .ok b) : m.bit i = b := by
  simp only [get, Result.bind_eq_ok, Result.unwrap_eq_ok, Result.pure_def, Result.ok.injEq] at h
  obtain ⟨_, -, byte, hbyte, rfl⟩ := h
  rw [test_mask, bit, List.getD_eq_getElem?_getD, hbyte]
  rfl

theorem collect_eq (m : BitMap) (hf : m.numBits ≤ m.buf.length * 8) (n front : Nat)
    (hn : front + n = m.numBits) (fuel : Nat) (hfuel : n < fuel) :
    Iter.collect fuel { bitmap := m, front, back := m.numBits } =
      .ok ((List.range' front n).map m.bit) := by
  induction n generalizing front fuel with
  | zero =>
    obtain ⟨f, rfl⟩ : ∃ f, fuel = f + 1 := ⟨fuel - 1, by omega⟩
    simp [Iter.collect, Iter.next, show front = m.numBits by omega]
  | succ n ih =>
    obtain ⟨f, rfl⟩ : ∃ f, fuel = f + 1 := ⟨fuel - 1, by omega⟩
    have hnext : Iter.next { bitmap := m, front, back := m.numBits } =
        .ok (some (m.bit front), { bitmap := m, front := front + 1, back := m.numBits }) := by
      simp [Iter.next, show front ≠ m.numBits by omega, get_eq (show front < m.numBits by omega) hf]
    rw [Iter.collect, hnext, Result.bind_ok]
    simp [ih (front + 1) (by omega) f (by omega), List.range'_succ]

theorem bits_eq {m : BitMap} (hf : m.numBits ≤ m.buf.length * 8) : m.bits = .ok m.toBools := by
  rw [bits, iter, collect_eq m hf m.numBits 0 (by omega) _ (by omega), toBools,
    List.range_eq_range']

theorem withLength_eq {buf : Bytes} {n : Nat} (h : n ≤ buf.length * 8) :
    ∃ m, withLength buf n = .ok m ∧ m.buf = buf ∧ m.numBits = n ∧ m.Valid := by
  refine ⟨{ buf, numBits := n, zeroes := (toBools ⟨buf, n, 0⟩).count false }, ?_, rfl, rfl, h, rfl⟩
  have hbits : bits { buf, numBits := n, zeroes := 0 } = .ok _ := bits_eq h
  rw [withLength, Result.assert_of (by omega), Result.bind_ok]
  simp only [hbits]
  rfl

theorem withLength_ok {buf : Bytes} {n : Nat} {m : BitMap} (h : withLength buf n = .ok m) :
    m.buf = buf ∧ m.numBits = n ∧ m.Valid := by
  by_cases hf : n ≤ buf.length * 8
  · obtain ⟨m', hm', h1, h2, h3⟩ := withLength_eq hf
    rw [hm', Result.ok.injEq] at h
    subst h
    exact ⟨h1, h2, h3⟩
  · rw [withLength, Result.assert_of_not (by omega)] at h
    simp at h

theorem Valid.all_iff {m : BitMap} (h : m.Valid) :
    m.all = true ↔ ∀ i < m.numBits, m.bit i = true := by
  rw [all, beq_iff_eq, h.counted, List.count_eq_zero, toBools]
  simp

/-! ## Writing -/

/-- The buffer with one bit written. -/
def written (m : BitMap) (bit : Nat) (new : Bool) : Bytes :=
  m.buf.set (bit / 8) ((m.buf.getD (bit / 8) 0 &&& ~~~ bitmask bit) |||
    (new.toUInt8 <<< UInt8.ofNat (bit % 8)))

@[simp] theorem written_length (m : BitMap) (i : Nat) (new : Bool) :
    (m.written i new).length = m.buf.length := by
  simp [written]

theorem bit_written (m : BitMap) {i j : Nat} (new : Bool) (hi : i / 8 < m.buf.length) (z : Nat) :
    bit { m with buf := m.written i new, zeroes := z } j = if j = i then new else m.bit j := by
  have h8 : j % 8 < 8 := Nat.mod_lt _ (by omega)
  simp only [bit, written, List.getD_eq_getElem?_getD, List.getElem?_set]
  by_cases hd : i / 8 = j / 8
  · rw [if_pos hd, if_pos hi, Option.getD_some, set_mask _ _ _ _ h8, hd]
    by_cases hji : j = i
    · rw [if_pos hji, if_pos (by rw [hji])]
    · rw [if_neg hji, if_neg (by omega)]
  · rw [if_neg hd, if_neg (by omega)]

theorem set_written {m : BitMap} {i : Nat} (new : Bool) (hle : i ≤ m.numBits)
    (hi : i / 8 < m.buf.length) :
    m.set i new =
      if m.bit i = new then .ok (m.bit i, m)
      else if new then do
        Result.assert (0 < m.zeroes)
        return (m.bit i, { m with buf := m.written i new, zeroes := m.zeroes - 1 })
      else .ok (m.bit i, { m with buf := m.written i new, zeroes := m.zeroes + 1 }) := by
  rw [set, check_of_le hle, buf_getElem? hi]
  simp only [Result.bind_ok, Result.unwrap_some, test_mask]
  rfl

theorem zeroes_of_set {m m' : BitMap} {i : Nat} {old : Bool} (h : m.set i true = .ok (old, m'))
    (hbit : m.bit i = false) : m'.zeroes + 1 = m.zeroes := by
  have hbounds : i ≤ m.numBits ∧ i / 8 < m.buf.length := by
    simp only [set, Result.bind_eq_ok, Result.unwrap_eq_ok] at h
    obtain ⟨_, hcheck, byte, hbyte, -⟩ := h
    exact ⟨le_of_check hcheck, (List.getElem?_eq_some_iff.mp hbyte).1⟩
  rw [set_written true hbounds.1 hbounds.2, hbit, if_neg (by simp), if_pos rfl] at h
  simp only [Result.bind_eq_ok, Result.assert_eq_ok, Result.pure_def, Result.ok.injEq,
    Prod.mk.injEq] at h
  obtain ⟨_, hpos, -, rfl⟩ := h
  simp only
  omega

theorem set_length {m m' : BitMap} {i : Nat} {new old : Bool} (h : m.set i new = .ok (old, m')) :
    m'.buf.length = m.buf.length := by
  have hle : i ≤ m.numBits := by
    obtain ⟨_, hcheck, -⟩ := Result.bind_eq_ok.mp h
    exact le_of_check hcheck
  have hlen : i / 8 < m.buf.length := by
    by_contra hge
    rw [set, check_of_le hle, List.getElem?_eq_none (by omega)] at h
    cases h
  rw [set_written new hle hlen] at h
  split at h
  · cases h
    rfl
  · split at h
    · obtain ⟨_, -, h⟩ := Result.bind_eq_ok.mp h
      cases h
      simp
    · cases h
      simp

theorem count_map_range {f g : Nat → Bool} {i n : Nat} (hi : i < n)
    (h : ∀ j, j ≠ i → f j = g j) (hf : f i = false) (hg : g i = true) :
    ((List.range n).map f).count false = ((List.range n).map g).count false + 1 := by
  induction n with
  | zero => omega
  | succ n ih =>
    rw [List.range_succ, List.map_append, List.map_append, List.count_append, List.count_append]
    by_cases hin : i = n
    · subst hin
      have hcongr : (List.range i).map f = (List.range i).map g := by
        apply List.map_congr_left
        intro j hj
        exact h j (by rw [List.mem_range] at hj; omega)
      simp [hcongr, hf, hg]
    · rw [ih (by omega)]
      simp [h n (by omega)]
      omega

theorem count_written {m : BitMap} {i : Nat} (hi : i < m.numBits)
    (hf : m.numBits ≤ m.buf.length * 8) (new : Bool) (hne : m.bit i ≠ new) (z : Nat) :
    (toBools { m with buf := m.written i new, zeroes := z }).count false + new.toNat =
      m.toBools.count false + (!new).toNat := by
  have hbit := fun j => bit_written m (j := j) new (show i / 8 < m.buf.length by omega) z
  have hself := hbit i
  rw [if_pos rfl] at hself
  have hother : ∀ j, j ≠ i → bit { m with buf := m.written i new, zeroes := z } j = m.bit j := by
    intro j hj
    rw [hbit j, if_neg hj]
  cases new with
  | true =>
    exact (count_map_range hi (fun j hj => (hother j hj).symm) (by simpa using hne) hself).symm
  | false => exact count_map_range hi hother hself (by simpa using hne)

/-- The counter is this much above the number of zero bits. -/
structure Excess (m : BitMap) (e : Nat) : Prop where
  fits : m.numBits ≤ m.buf.length * 8
  counted : m.zeroes = m.toBools.count false + e

theorem valid_iff {m : BitMap} : m.Valid ↔ m.Excess 0 :=
  ⟨fun h => ⟨h.fits, h.counted⟩, fun h => ⟨h.fits, h.counted⟩⟩

theorem Excess.byte_lt {m : BitMap} {e i : Nat} (h : m.Excess e) (hi : i < m.numBits) :
    i / 8 < m.buf.length := by
  have := h.fits
  omega

theorem Excess.write {m : BitMap} {e i : Nat} (h : m.Excess e) (hi : i < m.numBits) {new : Bool}
    (hne : m.bit i ≠ new) {z e' : Nat} (hz : z + new.toNat + e = m.zeroes + (!new).toNat + e') :
    Excess { m with buf := m.written i new, zeroes := z } e' := by
  refine ⟨by simpa using h.fits, ?_⟩
  have hcount := count_written hi h.fits new hne z
  have hbefore := h.counted
  simp only
  omega

theorem Excess.zeroes_pos {m : BitMap} {e : Nat} (h : m.Excess e) {i : Nat} (hi : i < m.numBits)
    (hbit : m.bit i = false) : 0 < m.zeroes := by
  have hmem : false ∈ m.toBools := by
    rw [toBools, List.mem_map]
    exact ⟨i, List.mem_range.mpr hi, hbit⟩
  have := List.count_pos_iff.mpr hmem
  rw [h.counted]
  omega

theorem Excess.set_eq {m : BitMap} {e i : Nat} (h : m.Excess e) (hi : i < m.numBits) (new : Bool) :
    ∃ m', m.set i new = .ok (m.bit i, m') ∧ m'.Excess e ∧ m'.numBits = m.numBits ∧
      m'.buf.length = m.buf.length ∧ ∀ j, m'.bit j = if j = i then new else m.bit j := by
  have hlen := h.byte_lt hi
  rw [set_written new (by omega) hlen]
  by_cases hsame : m.bit i = new
  · refine ⟨m, by rw [if_pos hsame], h, rfl, rfl, ?_⟩
    intro j
    split
    · rename_i hj
      rw [hj, hsame]
    · rfl
  have hbit := fun z j => bit_written m (j := j) new hlen z
  rw [if_neg hsame]
  cases new with
  | true =>
    have hz := h.zeroes_pos hi (by simpa using hsame)
    rw [if_pos rfl, Result.assert_of hz, Result.bind_ok]
    refine ⟨_, rfl, h.write hi hsame ?_, rfl, by simp, hbit _⟩
    simp
    omega
  | false =>
    rw [if_neg (by simp)]
    refine ⟨_, rfl, h.write hi hsame ?_, rfl, by simp, hbit _⟩
    simp

theorem set_eq {m : BitMap} {i : Nat} (new : Bool) (hi : i < m.numBits) (hv : m.Valid) :
    ∃ m', m.set i new = .ok (m.bit i, m') ∧ m'.Valid ∧ m'.numBits = m.numBits ∧
      m'.buf.length = m.buf.length ∧ ∀ j, m'.bit j = if j = i then new else m.bit j := by
  simp only [valid_iff]
  exact (valid_iff.mp hv).set_eq hi new

theorem toBools_getElem?_false {m : BitMap} {i : Nat} :
    m.toBools[i]? = some false ↔ i < m.numBits ∧ m.bit i = false := by
  by_cases h : i < m.numBits
  · rw [toBools_getElem? h]
    simp [h]
  · rw [List.getElem?_eq_none (by simp; omega)]
    simp [h]

end BitMap

end DasProtokoll.BitteEinBit
