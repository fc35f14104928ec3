import DasProtokoll.BitteEinBit.Operations
import DasProtokoll.Lib.Run

/-!
# Flipping a bit

`flip_bit` looks at the whole byte for the new value, so its counter is right only
where no other bit of the byte says otherwise.
-/

namespace DasProtokoll.BitteEinBit

open DasProtokoll

namespace BitMap

/-! ## The byte that is written -/

theorem xor_bitmask (b : UInt8) (i : Nat) :
    b ^^^ bitmask i = (b &&& ~~~ bitmask i) |||
      ((!b.toBitVec.getLsbD (i % 8)).toUInt8 <<< UInt8.ofNat (i % 8)) := by
  rw [← UInt8.toBitVec_inj]
  apply BitVec.eq_of_getLsbD_eq
  intro j hj
  rw [set_mask b _ i j hj, UInt8.toBitVec_xor, BitVec.getLsbD_xor, bitmask_twoPow,
    BitVec.getLsbD_twoPow]
  by_cases hji : j = i % 8
  · simp [hji, Nat.mod_lt]
  · simp [hji, show ¬ i % 8 = j by omega]

theorem xor_beq_bitmask (b : UInt8) (i : Nat) : (b ^^^ bitmask i == bitmask i) = (b == 0) := by
  rw [Bool.eq_iff_iff, beq_iff_eq, beq_iff_eq]
  constructor
  · intro h
    have hb : b ^^^ bitmask i ^^^ bitmask i = 0 := by rw [h, UInt8.xor_self]
    rwa [UInt8.xor_assoc, UInt8.xor_self, UInt8.xor_zero] at hb
  · rintro rfl
    exact UInt8.zero_xor

def byteOf (m : BitMap) (i : Nat) : UInt8 := m.buf.getD (i / 8) 0

theorem bit_of_byte_zero {m : BitMap} {i : Nat} (h : m.byteOf i = 0) : m.bit i = false := by
  rw [bit, ← byteOf, h]
  exact BitVec.getLsbD_zero

theorem flipBit_written {m : BitMap} {i : Nat} (hle : i ≤ m.numBits) (hi : i / 8 < m.buf.length) :
    m.flipBit i =
      if m.byteOf i = 0 then do
        Result.assert (0 < m.zeroes)
        return (true, { m with buf := m.written i (!m.bit i), zeroes := m.zeroes - 1 })
      else .ok (false, { m with buf := m.written i (!m.bit i), zeroes := m.zeroes + 1 }) := by
  have hbuf : m.buf.set (i / 8) (m.byteOf i ^^^ bitmask i) = m.written i (!m.bit i) := by
    rw [xor_bitmask]
    rfl
  rw [flipBit, check_of_le hle, buf_getElem? hi, ← byteOf]
  simp only [Result.bind_ok, Result.unwrap_some, xor_beq_bitmask, hbuf, beq_iff_eq]
  by_cases hzero : m.byteOf i = 0
  · rw [if_pos hzero, if_pos hzero, beq_iff_eq.mpr hzero]
  · rw [if_neg hzero, if_neg hzero, beq_false_of_ne hzero]
    rfl

/-! ## Against a write of the other value -/

/-- `set` of the other value, with the value that is then read. -/
def setOther (m : BitMap) (bit : Nat) : Result (Bool × BitMap) := do
  let old ← m.get bit
  let (_, m) ← m.set bit (!old)
  let new ← m.get bit
  return (new, m)

theorem setOther_written {m : BitMap} {e i : Nat} (h : m.Excess e) (hi : i < m.numBits) :
    m.setOther i = .ok (!m.bit i, { m with
      buf := m.written i (!m.bit i)
      zeroes := if m.bit i then m.zeroes + 1 else m.zeroes - 1 }) := by
  have hlen := h.byte_lt hi
  have hget : ∀ new z, get { m with buf := m.written i new, zeroes := z } i = .ok new := by
    intro new z
    have hbit := bit_written m (j := i) new hlen z
    rw [if_pos rfl] at hbit
    rw [get_eq, hbit]
    · exact hi
    · simpa using h.fits
  rw [setOther, get_eq hi h.fits, Result.bind_ok, set_written _ (by omega) hlen, if_neg (by simp)]
  cases hbit : m.bit i with
  | true =>
    simp only [Bool.not_true, Bool.false_eq_true, if_false, if_true, Result.bind_ok]
    rw [hget]
    rfl
  | false =>
    simp only [Bool.not_false, Bool.false_eq_true, if_false, if_true,
      Result.assert_of (h.zeroes_pos hi hbit), Result.bind_ok, Result.pure_def]
    rw [hget]
    rfl

/-- The bit is set, or no bit of its byte is. -/
def FlipsWell (m : BitMap) (i : Nat) : Prop := m.bit i = true ∨ m.byteOf i = 0

instance {m : BitMap} {i : Nat} : Decidable (m.FlipsWell i) :=
  inferInstanceAs (Decidable (m.bit i = true ∨ m.byteOf i = 0))

theorem not_flipsWell {m : BitMap} {i : Nat} :
    ¬ m.FlipsWell i ↔ m.bit i = false ∧ m.byteOf i ≠ 0 := by
  simp [FlipsWell]

theorem flipBit_of_flipsWell {m : BitMap} {e i : Nat} (h : m.Excess e) (hi : i < m.numBits)
    (hwell : m.FlipsWell i) : m.flipBit i = m.setOther i := by
  rw [setOther_written h hi, flipBit_written (by omega) (h.byte_lt hi)]
  rcases hwell with hbit | hzero
  · have hne : m.byteOf i ≠ 0 := by
      intro hzero
      rw [bit_of_byte_zero hzero] at hbit
      simp at hbit
    simp [hbit, hne]
  · have hbit := bit_of_byte_zero hzero
    rw [if_pos hzero, Result.assert_of (h.zeroes_pos hi hbit), hbit]
    rfl

theorem flipBit_of_not_flipsWell {m : BitMap} {i : Nat} (hi : i < m.numBits)
    (hf : m.numBits ≤ m.buf.length * 8) (hwell : ¬ m.FlipsWell i) :
    m.flipBit i = .ok (false, { m with buf := m.written i true, zeroes := m.zeroes + 1 }) := by
  obtain ⟨hbit, hne⟩ := not_flipsWell.mp hwell
  rw [flipBit_written (by omega) (by omega), if_neg hne, hbit]
  rfl

theorem flipBit_eq_iff {m : BitMap} {e i : Nat} (h : m.Excess e) (hi : i < m.numBits) :
    m.flipBit i = m.setOther i ↔ m.FlipsWell i := by
  constructor
  · intro heq
    by_contra hwell
    rw [flipBit_of_not_flipsWell hi h.fits hwell, setOther_written h hi,
      (not_flipsWell.mp hwell).1] at heq
    simp at heq
  · exact flipBit_of_flipsWell h hi

/-! ## Sequences of calls -/

theorem Excess.flipBit_eq {m : BitMap} {e i : Nat} (h : m.Excess e) (hi : i < m.numBits) :
    ∃ new m', m.flipBit i = .ok (new, m') ∧ m'.numBits = m.numBits ∧
      m'.Excess (if m.FlipsWell i then e else e + 2) := by
  by_cases hwell : m.FlipsWell i
  · rw [flipBit_of_flipsWell h hi hwell, setOther_written h hi, if_pos hwell]
    refine ⟨_, _, rfl, rfl, h.write hi (by simp) ?_⟩
    cases hbit : m.bit i with
    | true => simp
    | false =>
      have := h.zeroes_pos hi hbit
      simp
      omega
  · rw [flipBit_of_not_flipsWell hi h.fits hwell, if_neg hwell]
    have hne : m.bit i ≠ true := by simp [(not_flipsWell.mp hwell).1]
    refine ⟨_, _, rfl, rfl, h.write hi hne ?_⟩
    simp
    omega

/-- If the call is a flip, it finds the bit set or the whole byte clear. -/
def CallsWell (m : BitMap) (op : Op) : Prop := ∀ i, op = .flipBit i → m.FlipsWell i

theorem Excess.call_total {m : BitMap} {e : Nat} (h : m.Excess e) {op : Op}
    (hop : op.Within m.numBits) :
    ∃ o m' e', m.call op = .ok (o, m') ∧ m'.numBits = m.numBits ∧ m'.Excess e' ∧
      (m.CallsWell op → e' ≤ e) ∧ (¬ m.CallsWell op → 0 < e') := by
  by_cases hflip : ∃ i, op = .flipBit i
  · obtain ⟨i, rfl⟩ := hflip
    obtain ⟨new, m', hm', hn, hexcess⟩ := h.flipBit_eq hop
    refine ⟨some new, m', _, by rw [call, hm']; rfl, hn, hexcess, ?_, ?_⟩
    · intro hwell
      rw [if_pos (hwell i rfl)]
    · intro hwell
      have hnot : ¬ m.FlipsWell i := by
        intro hi
        apply hwell
        rintro j ⟨⟩
        exact hi
      rw [if_neg hnot]
      omega
  · have hnone : ∀ i, op ≠ .flipBit i := fun i hi => hflip ⟨i, hi⟩
    obtain ⟨m', e', hcall, hm', he, hn, -⟩ := h.call_eq hop hnone
    refine ⟨_, m', e', hcall, hn, hm', fun _ => he, ?_⟩
    intro hwell
    exact absurd (fun i hi => absurd hi (hnone i)) hwell

def next (m : BitMap) (op : Op) : Result BitMap := Prod.snd <$> m.call op

/-- A flip does what `set` of the other value does, and the counter is right after each call. -/
def AgreesWithSet (m : BitMap) (op : Op) : Prop :=
  (∀ i, op = .flipBit i → m.flipBit i = m.setOther i) ∧
    ∀ m', m.next op = .ok m' → m'.zeroes = m'.toBools.count false

theorem agreesWithSet_iff {m : BitMap} (hv : m.Valid) {op : Op} (hop : op.Within m.numBits) :
    m.AgreesWithSet op ↔ m.CallsWell op := by
  have hexcess := valid_iff.mp hv
  obtain ⟨o, m', e', hcall, -, hm', hle, hpos⟩ := hexcess.call_total hop
  have hnext : m.next op = .ok m' := by
    rw [next, hcall]
    rfl
  constructor
  · rintro ⟨-, hzeroes⟩
    by_contra hwell
    have := hzeroes m' hnext
    have := hm'.counted
    have := hpos hwell
    omega
  · intro hwell
    refine ⟨?_, ?_⟩
    · rintro i rfl
      exact flipBit_of_flipsWell hexcess hop (hwell i rfl)
    · intro u hu
      rw [hnext, Result.ok.injEq] at hu
      subst hu
      have := hm'.counted
      have := hle hwell
      omega

theorem valid_next {m : BitMap} (hv : m.Valid) {op : Op} (hop : op.Within m.numBits)
    (hwell : m.CallsWell op) {m' : BitMap} (h : m.next op = .ok m') :
    m'.Valid ∧ m'.numBits = m.numBits := by
  obtain ⟨o, u, e', hcall, hn, hu, hle, -⟩ := (valid_iff.mp hv).call_total hop
  rw [next, hcall, Result.map_ok, Result.ok.injEq] at h
  subst h
  rw [Nat.le_zero.mp (hle hwell)] at hu
  exact ⟨valid_iff.mpr hu, hn⟩

/-- No sequence of calls panics. Each flip is right in itself where it finds the bit set or the byte
clear, and the counter is right all along the sequences whose flips all do. -/
theorem flipBit_agrees_iff (buf : Bytes) (n : Nat) (hn : n ≤ buf.length * 8) (ops : List Op)
    (hops : ∀ op ∈ ops, op.Within n) :
    ∃ m₀ m outs, withLength buf n = .ok m₀ ∧ perform call m₀ ops = .ok (outs, m) ∧
      (∀ i < n, m.flipBit i = m.setOther i ↔ m.FlipsWell i) ∧
      (Along next AgreesWithSet m₀ ops ↔ Along next CallsWell m₀ ops) := by
  obtain ⟨m₀, hm₀, -, rfl, hv⟩ := withLength_eq hn
  have hstep : ∀ s, ∀ op ∈ ops, (s.numBits = m₀.numBits ∧ ∃ e, s.Excess e) →
      ∃ o s', call s op = .ok (o, s') ∧ (s'.numBits = m₀.numBits ∧ ∃ e, s'.Excess e) := by
    rintro s op hop ⟨hs, e, hexcess⟩
    obtain ⟨o, s', e', hcall, hs', he', -, -⟩ :=
      hexcess.call_total (by rw [hs]; exact hops op hop)
    exact ⟨o, s', hcall, hs'.trans hs, e', he'⟩
  obtain ⟨outs, m, hrun, hm, e, hexcess⟩ := perform_total hstep ⟨rfl, 0, valid_iff.mp hv⟩
  refine ⟨m₀, m, outs, hm₀, hrun, ?_, ?_⟩
  · intro i hi
    exact flipBit_eq_iff hexcess (by rw [hm]; exact hi)
  · apply Along.guard_iff (I := fun s => s.Valid ∧ s.numBits = m₀.numBits) ⟨hv, rfl⟩
    · rintro s op hop ⟨hs, hsn⟩
      exact agreesWithSet_iff hs (by rw [hsn]; exact hops op hop)
    · rintro s t op hop ⟨hs, hsn⟩ hwell ht
      obtain ⟨ht, htn⟩ := valid_next hs (by rw [hsn]; exact hops op hop) hwell ht
      exact ⟨ht, htn.trans hsn⟩

theorem flipBit_agrees_iff_two :
    ∃ m₀ m outs, withLength [1] 2 = .ok m₀ ∧
      perform call m₀ [.flipBit 0, .flipBit 1] = .ok (outs, m) ∧
      (∀ i < 2, m.flipBit i = m.setOther i ↔ m.FlipsWell i) ∧
      (Along next AgreesWithSet m₀ [.flipBit 0, .flipBit 1] ↔
        Along next CallsWell m₀ [.flipBit 0, .flipBit 1]) :=
  flipBit_agrees_iff [1] 2 (by decide) _ (by decide)

/-- With bit 0 set, flipping bit 1 sets it too, reports it clear and counts one more zero. -/
theorem flipBit_ne_set :
    ∃ m m', withLength [1] 2 = .ok m ∧ m.flipBit 1 = .ok (false, m') ∧
      m.flipBit 1 ≠ m.setOther 1 ∧ m'.toBools = [true, true] ∧ m'.zeroes = 2 ∧ m'.all = false :=
  ⟨⟨[1], 2, 1⟩, ⟨[3], 2, 2⟩, by decide⟩

end BitMap

end DasProtokoll.BitteEinBit
