import DasProtokoll.Lib.LittleEndian
import DasProtokoll.Lib.Overwrite
import Mathlib.Order.Bounds.Basic
import Mathlib.Tactic.Linarith

/-!
# Chunks and their geometry

The file length decides how wide the index in front of each chunk is, and with
it the size and the number of the chunks. The index `num_chunks` is left over
for the extension message that ends an upload.
-/

namespace DasProtokoll.Csync

open DasProtokoll

def mtu : Nat := 1460

structure ChunkInfo where
  indexFieldSize : Nat
  chunkSize : Nat
  numChunks : Nat
  lastChunkSize : Nat
  deriving Repr, DecidableEq

def indexFieldSizeLoop (length : Nat) : Nat → Nat → Result ChunkInfo
  -- Width 8: `1 << 64` overflows.
  | 0, _ => .panic
  | fuel + 1, indexFieldSize =>
    let chunkSize := mtu - indexFieldSize
    let numChunks := length / chunkSize + (if length % chunkSize ≠ 0 then 1 else 0) + 1
    if numChunks ≤ 1 <<< (indexFieldSize * 8) then
      return {
        indexFieldSize
        chunkSize
        numChunks := length / chunkSize + (if length % chunkSize ≠ 0 then 1 else 0)
        lastChunkSize := length % chunkSize }
    else indexFieldSizeLoop length fuel (indexFieldSize + 1)

/-- The chunks of a file of the given length. -/
def indexFieldSize (length : Nat) : Result ChunkInfo := indexFieldSizeLoop length 7 1

structure Chunk where
  indexFieldSize : Nat
  index : Nat
  buf : Bytes
  deriving Repr, DecidableEq

namespace Chunk

-- The recycled buffer that the source passes in is cleared first.
def new (index indexFieldSize dataSize : Nat) : Result Chunk := do
  Result.assert (0 < indexFieldSize ∧ indexFieldSize ≤ 8)
  return { indexFieldSize, index, buf := resize 0 (leBytes 8 index) (indexFieldSize + dataSize) }

def decode (src : Bytes) (indexFieldSize : Nat) : Result Chunk := do
  Result.assert (indexFieldSize ≤ 8)
  Result.assert (indexFieldSize ≤ src.length)
  let buf := src.take indexFieldSize ++ List.replicate (8 - indexFieldSize) 0
  return { indexFieldSize, index := ofLeBytes buf, buf := src }

def asRef (c : Chunk) : Result Bytes := do
  Result.assert (c.indexFieldSize ≤ c.buf.length)
  return c.buf.drop c.indexFieldSize

/-- `read_exact` into the chunk fills all of its data. -/
def readExact (c : Chunk) (data : Bytes) : Chunk :=
  { c with buf := c.buf.take c.indexFieldSize ++ data }

def wire (indexFieldSize index : Nat) (data : Bytes) : Bytes := leBytes indexFieldSize index ++ data

theorem wire_length (w i : Nat) (data : Bytes) : (wire w i data).length = w + data.length := by
  simp [wire]

theorem new_eq {w : Nat} (i n : Nat) (hw : 0 < w) (hw8 : w ≤ 8) :
    ∃ c, new i w n = .ok c ∧ c.index = i ∧ c.indexFieldSize = w ∧
      c.buf.length = w + n ∧ c.buf.take w = leBytes w i := by
  refine ⟨_, by rw [new, Result.assert_of ⟨hw, hw8⟩]; rfl, rfl, rfl, ?_, ?_⟩
  · simp [resize]
    omega
  · rw [resize, List.take_append_of_le_length (by simp; omega), List.take_take,
      Nat.min_eq_left (by omega), leBytes_take _ _ _ hw8]

theorem new_readExact {w : Nat} (i : Nat) (data : Bytes) (hw : 0 < w) (hw8 : w ≤ 8) :
    ∃ c, new i w data.length = .ok c ∧ c.indexFieldSize = w ∧ c.buf.length = w + data.length ∧
      (c.readExact data).buf = wire w i data := by
  obtain ⟨c, hc, -, hcw, hlen, htake⟩ := new_eq i data.length hw hw8
  refine ⟨c, hc, hcw, hlen, ?_⟩
  rw [readExact, hcw, htake]
  rfl

theorem new_empty {w : Nat} (i : Nat) (hw : 0 < w) (hw8 : w ≤ 8) :
    ∃ c, new i w 0 = .ok c ∧ c.buf = wire w i [] := by
  obtain ⟨c, hc, -, -, hlen, htake⟩ := new_eq i 0 hw hw8
  refine ⟨c, hc, ?_⟩
  rw [wire, List.append_nil, ← htake, List.take_of_length_le (by omega)]

theorem decode_wire {w i : Nat} (data : Bytes) (hw8 : w ≤ 8) (hi : i < 256 ^ w) :
    decode (wire w i data) w = .ok { indexFieldSize := w, index := i, buf := wire w i data } := by
  have htake : (wire w i data).take w = leBytes w i := by
    rw [wire, List.take_append_of_le_length (by simp), List.take_of_length_le (by simp)]
  rw [decode, Result.assert_of hw8, Result.assert_of (by rw [wire_length]; omega)]
  simp only [Result.bind_ok, htake, ofLeBytes_append_zeros, ofLeBytes_leBytes w i hi, Result.pure_def]

theorem asRef_wire (w i : Nat) (data : Bytes) :
    asRef { indexFieldSize := w, index := i, buf := wire w i data } = .ok data := by
  rw [asRef, Result.assert_of (by simp only [wire_length]; omega)]
  simp [wire]

theorem decode_asRef {src : Bytes} {w : Nat} {c : Chunk} (h : decode src w = .ok c) :
    ∃ data, c.asRef = .ok data := by
  simp only [decode, Result.bind_eq_ok, Result.pure_def, Result.ok.injEq] at h
  obtain ⟨_, -, _, hlen, rfl⟩ := h
  rw [Result.assert_eq_ok] at hlen
  exact ⟨_, by rw [asRef, Result.assert_of hlen]; rfl⟩

end Chunk

/-! ## What the geometry says -/

structure Geometry (length : Nat) (info : ChunkInfo) : Prop where
  width_pos : 0 < info.indexFieldSize
  width_le : info.indexFieldSize ≤ 7
  chunkSize_eq : info.chunkSize = mtu - info.indexFieldSize
  numChunks_eq : info.numChunks =
    length / info.chunkSize + (if length % info.chunkSize ≠ 0 then 1 else 0)
  lastChunkSize_eq : info.lastChunkSize = length % info.chunkSize
  index_fits : info.numChunks < 256 ^ info.indexFieldSize

theorem indexFieldSizeLoop_spec {length fuel w : Nat} (h : length < u64Size) (hw : 0 < w)
    (hfuel : w + fuel = 8) (hpos : 0 < fuel) :
    ∃ info, indexFieldSizeLoop length fuel w = .ok info ∧ Geometry length info := by
  induction fuel generalizing w with
  | zero => omega
  | succ fuel ih =>
    rw [indexFieldSizeLoop]
    by_cases hfits : length / (mtu - w) + (if length % (mtu - w) ≠ 0 then 1 else 0) + 1 ≤ 1 <<< (w * 8)
    · have hw7 : w ≤ 7 := by omega
      refine ⟨_, if_pos hfits, hw, hw7, rfl, rfl, rfl, ?_⟩
      rw [Nat.one_shiftLeft, Nat.mul_comm, Nat.pow_mul] at hfits
      exact hfits
    · simp only [if_neg hfits]
      by_cases hlast : fuel = 0
      · -- Seven bytes index any file of 64 bit length.
        obtain rfl : w = 7 := by omega
        have hdiv : length / (mtu - 7) ≤ u64Size / (mtu - 7) := Nat.div_le_div_right (le_of_lt h)
        have hlim : u64Size / (mtu - 7) + 2 ≤ 1 <<< (7 * 8) := by decide
        split at hfits <;> omega
      · exact ih (by omega) (by omega) (by omega)

theorem indexFieldSize_spec {length : Nat} (h : length < u64Size) :
    ∃ info, indexFieldSize length = .ok info ∧ Geometry length info :=
  indexFieldSizeLoop_spec h (by omega) (by omega) (by omega)

namespace Geometry

variable {length : Nat} {info : ChunkInfo}

theorem chunkSize_pos (g : Geometry length info) : 0 < info.chunkSize := by
  have := g.width_le
  rw [g.chunkSize_eq, mtu]
  omega

theorem before_last (g : Geometry length info) {i : Nat} (h : i + 1 < info.numChunks) :
    (i + 1) * info.chunkSize ≤ length := by
  have hn := g.numChunks_eq
  have hle : i + 1 ≤ length / info.chunkSize := by split at hn <;> omega
  exact (Nat.le_div_iff_mul_le g.chunkSize_pos).mp hle

theorem start_lt (g : Geometry length info) {i : Nat} (h : i < info.numChunks) :
    i * info.chunkSize < length := by
  have hn := g.numChunks_eq
  have hdm := Nat.div_add_mod length info.chunkSize
  have hpos := g.chunkSize_pos
  have hle : i ≤ length / info.chunkSize := by split at hn <;> omega
  have hmul : i * info.chunkSize ≤ info.chunkSize * (length / info.chunkSize) := by
    rw [Nat.mul_comm]
    exact Nat.mul_le_mul_left _ hle
  by_cases hz : length % info.chunkSize = 0
  · rw [if_neg (by omega)] at hn
    have hlt : i + 1 ≤ length / info.chunkSize := by omega
    have : (i + 1) * info.chunkSize ≤ length := (Nat.le_div_iff_mul_le hpos).mp hlt
    rw [Nat.add_mul] at this
    omega
  · omega

theorem length_le (g : Geometry length info) : length ≤ info.numChunks * info.chunkSize := by
  have hn := g.numChunks_eq
  have hdm := Nat.div_add_mod length info.chunkSize
  have hpos := g.chunkSize_pos
  have hlt := Nat.mod_lt length hpos
  by_cases hz : length % info.chunkSize = 0
  · rw [if_neg (by omega)] at hn
    rw [hn, Nat.add_zero, Nat.mul_comm]
    omega
  · rw [if_pos hz] at hn
    rw [hn, Nat.add_mul, Nat.mul_comm]
    omega

theorem slot_of (g : Geometry length info) {j : Nat} (h : j < length) :
    j / info.chunkSize < info.numChunks ∧ j / info.chunkSize * info.chunkSize ≤ j ∧
      j < (j / info.chunkSize + 1) * info.chunkSize := by
  have hpos := g.chunkSize_pos
  refine ⟨?_, Nat.div_mul_le_self j _, ?_⟩
  · rw [Nat.div_lt_iff_lt_mul hpos]
    exact lt_of_lt_of_le h g.length_le
  · rw [Nat.add_mul, Nat.mul_comm]
    have := Nat.div_add_mod j info.chunkSize
    have := Nat.mod_lt j hpos
    omega

theorem last_remainder (g : Geometry length info) (hz : length % info.chunkSize ≠ 0) :
    (info.numChunks - 1) * info.chunkSize + info.lastChunkSize = length := by
  have hn := g.numChunks_eq
  rw [if_pos hz] at hn
  have hdm := Nat.div_add_mod length info.chunkSize
  rw [hn, Nat.add_sub_cancel, g.lastChunkSize_eq, Nat.mul_comm]
  exact hdm

end Geometry

/-! ## The width -/

def chunksAt (length w : Nat) : Nat :=
  length / (mtu - w) + (if length % (mtu - w) ≠ 0 then 1 else 0)

/-- The width has an index for each chunk and for the extension message. -/
def Fits (length w : Nat) : Prop := chunksAt length w + 1 ≤ 256 ^ w

theorem Geometry.numChunks {length : Nat} {info : ChunkInfo} (g : Geometry length info) :
    info.numChunks = chunksAt length info.indexFieldSize := by
  rw [g.numChunks_eq, g.chunkSize_eq, chunksAt]

theorem indexFieldSizeLoop_passed {length fuel w : Nat} {info : ChunkInfo}
    (h : indexFieldSizeLoop length fuel w = .ok info) :
    w ≤ info.indexFieldSize ∧ ∀ v, w ≤ v → v < info.indexFieldSize → ¬ Fits length v := by
  induction fuel generalizing w with
  | zero => simp [indexFieldSizeLoop] at h
  | succ fuel ih =>
    have hshift : 1 <<< (w * 8) = 256 ^ w := by
      rw [Nat.one_shiftLeft, Nat.mul_comm, Nat.pow_mul]
    rw [indexFieldSizeLoop] at h
    simp only [hshift] at h
    by_cases hfits : chunksAt length w + 1 ≤ 256 ^ w
    · unfold chunksAt at hfits
      rw [if_pos hfits, Result.pure_def, Result.ok.injEq] at h
      subst h
      refine ⟨le_rfl, ?_⟩
      intro v hle hlt
      exact absurd hlt (Nat.not_lt.mpr hle)
    · have hnot := hfits
      unfold chunksAt at hfits
      rw [if_neg hfits] at h
      obtain ⟨hle, hpassed⟩ := ih h
      refine ⟨by omega, ?_⟩
      intro v hv hlt
      by_cases hvw : v = w
      · rw [hvw]
        exact hnot
      · exact hpassed v (by omega) hlt

theorem indexFieldSize_isLeast {length : Nat} {info : ChunkInfo}
    (h : indexFieldSize length = .ok info) (g : Geometry length info) :
    IsLeast {w | 1 ≤ w ∧ Fits length w} info.indexFieldSize := by
  have hfits : Fits length info.indexFieldSize := by
    rw [Fits, ← g.numChunks]
    exact g.index_fits
  refine ⟨⟨g.width_pos, hfits⟩, ?_⟩
  rintro w ⟨hw, hwf⟩
  by_contra hlt
  exact (indexFieldSizeLoop_passed h).2 w hw (by omega) hwf

theorem chunksAt_succ_lt {length w : Nat} (h : length < u64Size) (hw : w ≤ 7) :
    chunksAt length w + 1 < u64Size := by
  have hdiv : length / (mtu - w) ≤ u64Size / (mtu - 7) := by
    apply (Nat.div_le_div_left (show mtu - 7 ≤ mtu - w by omega) (by decide)).trans
    exact Nat.div_le_div_right (le_of_lt h)
  have hlim : u64Size / (mtu - 7) + 2 < u64Size := by decide
  unfold chunksAt
  split <;> omega

theorem Geometry.wire_length_le {length : Nat} {info : ChunkInfo} (g : Geometry length info)
    {n : Nat} (hn : n ≤ info.chunkSize) : info.indexFieldSize + n ≤ mtu := by
  have := g.chunkSize_eq
  have hmtu : 7 ≤ mtu := by decide
  have := g.width_le
  omega

/-- The datagram that carries the data under the index. -/
def Chunk.encode (index indexFieldSize : Nat) (data : Bytes) : Result Bytes := do
  let chunk ← new index indexFieldSize data.length
  return (chunk.readExact data).buf

/-- A chunk is decoded to its index and its data, whatever was read into it. -/
structure Chunk.Recovered (w index : Nat) (data src : Bytes) : Prop where
  length : src.length = w + data.length
  decode : ∃ chunk, Chunk.decode src w = .ok chunk ∧ chunk.index = index ∧ chunk.asRef = .ok data

theorem Chunk.recovered_wire {w i : Nat} (data : Bytes) (hw8 : w ≤ 8) (hi : i < 256 ^ w) :
    Recovered w i data (wire w i data) where
  length := wire_length w i data
  decode := ⟨_, decode_wire data hw8 hi, rfl, asRef_wire w i data⟩

theorem Chunk.Recovered.inj {w i j : Nat} {data data' src : Bytes} (h : Recovered w i data src)
    (h' : Recovered w j data' src) : i = j ∧ data = data' := by
  obtain ⟨c, hc, rfl, hdata⟩ := h.decode
  obtain ⟨c', hc', rfl, hdata'⟩ := h'.decode
  rw [hc, Result.ok.injEq] at hc'
  subst hc'
  rw [hdata, Result.ok.injEq] at hdata'
  exact ⟨rfl, hdata'⟩

theorem Chunk.encode_eq {w : Nat} (i : Nat) (data : Bytes) (hw : 0 < w) (hw8 : w ≤ 8) :
    encode i w data = .ok (wire w i data) := by
  obtain ⟨c, hc, -, -, hbuf⟩ := new_readExact i data hw hw8
  rw [encode, hc, Result.bind_ok, hbuf]
  rfl

/-- The least width with room for the extension message, and chunks that fill a datagram at most and
are told apart by their index. -/
structure ChunkInfo.SoundFor (length : Nat) (info : ChunkInfo) : Prop where
  width_le : info.indexFieldSize ≤ 7
  least : IsLeast {w | 1 ≤ w ∧ Fits length w} info.indexFieldSize
  chunkSize_eq : info.chunkSize = mtu - info.indexFieldSize
  numChunks_eq : info.numChunks = chunksAt length info.indexFieldSize
  count_lt : ∀ w ≤ info.indexFieldSize, chunksAt length w + 1 < u64Size
  fresh : ∀ index ≤ info.numChunks, ∀ dataSize ≤ info.chunkSize, ∃ chunk data,
    Chunk.new index info.indexFieldSize dataSize = .ok chunk ∧ chunk.buf.length ≤ mtu ∧
    data.length = dataSize ∧ Chunk.Recovered info.indexFieldSize index data chunk.buf
  filled : ∀ index ≤ info.numChunks, ∀ data : Bytes, data.length ≤ info.chunkSize → ∃ src,
    Chunk.encode index info.indexFieldSize data = .ok src ∧ src.length ≤ mtu ∧
    Chunk.Recovered info.indexFieldSize index data src
  distinct : ∀ i ≤ info.numChunks, ∀ j ≤ info.numChunks, ∀ data data' : Bytes,
    data.length ≤ info.chunkSize → data'.length ≤ info.chunkSize →
    Chunk.encode i info.indexFieldSize data = Chunk.encode j info.indexFieldSize data' → i = j

theorem Geometry.soundFor {length : Nat} {info : ChunkInfo} (hlen : length < u64Size)
    (h : indexFieldSize length = .ok info) (g : Geometry length info) : info.SoundFor length := by
  have hw := g.width_pos
  have hw7 := g.width_le
  have hlt : ∀ i ≤ info.numChunks, i < 256 ^ info.indexFieldSize := by
    intro i hi
    exact lt_of_le_of_lt hi g.index_fits
  refine ⟨hw7, indexFieldSize_isLeast h g, g.chunkSize_eq, g.numChunks, ?_, ?_, ?_, ?_⟩
  · intro w hle
    exact chunksAt_succ_lt hlen (by omega)
  · intro i hi n hn
    obtain ⟨c, hc, -, -, hbuf, htake⟩ := Chunk.new_eq i n hw (by omega : info.indexFieldSize ≤ 8)
    have hwire : c.buf = Chunk.wire info.indexFieldSize i (c.buf.drop info.indexFieldSize) := by
      rw [Chunk.wire, ← htake, List.take_append_drop]
    refine ⟨c, _, hc, ?_, ?_, hwire ▸ Chunk.recovered_wire _ (by omega) (hlt i hi)⟩
    · rw [hbuf]
      exact g.wire_length_le hn
    · rw [List.length_drop, hbuf]
      omega
  · intro i hi data hdata
    refine ⟨_, Chunk.encode_eq i data hw (by omega), ?_, Chunk.recovered_wire data (by omega) (hlt i hi)⟩
    rw [Chunk.wire_length]
    exact g.wire_length_le hdata
  · intro i hi j hj data data' _ _ heq
    rw [Chunk.encode_eq i data hw (by omega), Chunk.encode_eq j data' hw (by omega),
      Result.ok.injEq] at heq
    have hrec := Chunk.recovered_wire data (show info.indexFieldSize ≤ 8 by omega) (hlt i hi)
    rw [heq] at hrec
    exact (hrec.inj (Chunk.recovered_wire data' (by omega) (hlt j hj))).1

theorem indexFieldSize_soundFor {length : Nat} (h : length < u64Size) :
    ∃ info, indexFieldSize length = .ok info ∧ info.SoundFor length := by
  obtain ⟨info, hinfo, g⟩ := indexFieldSize_spec h
  exact ⟨info, hinfo, g.soundFor h hinfo⟩

/-- At 255 full chunks the extension message takes the last index of one byte. -/
theorem indexFieldSize_soundFor_one_byte :
    ∃ info, indexFieldSize (255 * 1459) = .ok info ∧ info.SoundFor (255 * 1459) :=
  indexFieldSize_soundFor (by decide)

end DasProtokoll.Csync
