import DasProtokoll.Lib.Overwrite
import DasProtokoll.Lib.RunLength
import DasProtokoll.BitteEinBit.BitMap
import DasProtokoll.Csync.Codec
import Mathlib.Algebra.Order.BigOperators.Group.List

/-!
# Status updates

The server sends its bitmap as run lengths, cut to the size of a datagram. The
client reads the ranges of missing chunks from it and sweeps over them.
-/

namespace DasProtokoll.Csync

open DasProtokoll BitteEinBit

/-! ## The writer -/

/-- Writing into a slice: what does not fit is cut off. -/
structure SliceWriter where
  buf : Bytes
  pos : Nat
  deriving Repr, DecidableEq

/-- `false` stands for the error `WriteZero`. -/
def SliceWriter.writeAll (w : SliceWriter) (bs : Bytes) : Bool × SliceWriter :=
  let n := min bs.length (w.buf.length - w.pos)
  (n == bs.length, { buf := overwrite 0 w.buf w.pos (bs.take n), pos := w.pos + n })

theorem SliceWriter.writeAll_fits {w : SliceWriter} {bs : Bytes}
    (h : w.pos + bs.length ≤ w.buf.length) :
    w.writeAll bs = (true, { buf := overwrite 0 w.buf w.pos bs, pos := w.pos + bs.length }) := by
  rw [writeAll, Nat.min_eq_left (by omega), List.take_length]
  simp

theorem SliceWriter.writeAll_full {w : SliceWriter} {bs : Bytes} (hw : w.pos ≤ w.buf.length)
    (h : w.buf.length < w.pos + bs.length) :
    ∃ w', w.writeAll bs = (false, w') ∧ w'.buf.length = w.buf.length ∧
      w'.buf.take w.pos = w.buf.take w.pos := by
  refine ⟨⟨overwrite 0 w.buf w.pos (bs.take (min bs.length (w.buf.length - w.pos))),
    w.pos + min bs.length (w.buf.length - w.pos)⟩, ?_, ?_, overwrite_take_before _ _ _ _ hw⟩
  · simp only [writeAll, Prod.mk.injEq, beq_eq_false_iff_ne, ne_eq, and_true]
    omega
  · rw [overwrite_length_of_fits _ _ _ _ (by simp; omega)]

/-! ## The sweep of the client -/

structure MissingRanges where
  missing : Ranges
  cursor : Nat
  deriving Repr, DecidableEq

namespace MissingRanges

def default : MissingRanges := { missing := [], cursor := 0 }

def advanceCursor (m : MissingRanges) (cursor : Nat) : Result (Option Nat) := do
  Result.assert (cursor + 1 < u64Size)
  return Ranges.firstFrom m.missing (cursor + 1)

def nextChunk (m : MissingRanges) : Result (Option Nat × MissingRanges) := do
  match Ranges.firstFrom m.missing m.cursor with
  | none => return (none, m)
  | some ret =>
    Result.assert (ret + 1 < u64Size)
    return (some ret, { m with cursor := ret + 1 })

/-- Calls `nextChunk` until it returns `None`. -/
def nextChunks : Nat → MissingRanges → Result (List Nat)
  | 0, _ => .diverge
  | fuel + 1, m => do
    match ← m.nextChunk with
    | (none, _) => return []
    | (some i, m) =>
      let rest ← nextChunks fuel m
      return i :: rest

end MissingRanges

theorem MissingRanges.advanceCursor_eq {m : MissingRanges} {cursor : Nat}
    (h : cursor + 1 < u64Size) :
    m.advanceCursor cursor = .ok (Ranges.firstFrom m.missing (cursor + 1)) := by
  rw [advanceCursor, Result.assert_of h]
  rfl

theorem MissingRanges.nextChunk_some {m : MissingRanges} {i : Nat}
    (h : Ranges.firstFrom m.missing m.cursor = some i) (hi : i + 1 < u64Size) :
    m.nextChunk = .ok (some i, { m with cursor := i + 1 }) := by
  simp [nextChunk, h, Result.assert_of hi]

theorem MissingRanges.nextChunk_none {m : MissingRanges}
    (h : Ranges.firstFrom m.missing m.cursor = none) : m.nextChunk = .ok (none, m) := by
  simp [nextChunk, h]

theorem MissingRanges.nextChunks_eq {m : MissingRanges} (h : Ranges.Exact m.missing)
    (ho : Ranges.Ordered m.missing) (h64 : ∀ i ∈ Ranges.members m.missing, i + 1 < u64Size) (fuel : Nat)
    (hfuel : ((Ranges.members m.missing).filter (m.cursor ≤ ·)).length < fuel) :
    m.nextChunks fuel = .ok ((Ranges.members m.missing).filter (m.cursor ≤ ·)) := by
  induction fuel generalizing m with
  | zero => omega
  | succ fuel ih =>
    cases hi : Ranges.firstFrom m.missing m.cursor with
    | none =>
      rw [nextChunks, nextChunk_none hi, Result.bind_ok, Ranges.filter_of_none hi]
      rfl
    | some i =>
      have hleft := h.filter_of_some ho hi
      have hi64 := h64 i (h _ i hi).1.1
      rw [hleft, List.length_cons] at hfuel
      rw [nextChunks, nextChunk_some hi hi64, Result.bind_ok, hleft]
      simp [ih (m := { m with cursor := i + 1 }) h ho h64 (by simpa using hfuel)]

section Varint

variable [Varint]

/-! ## Encoding -/

def writeRunlengthLoop : List Bool → Nat → Bool → Nat → SliceWriter → Nat × SliceWriter
  | [], count, _, written, w =>
    match w.writeAll (Varint.write count) with
    | (true, w) => (written + Varint.len count, w)
    | (false, w) => (written, w)
  | bit :: bits, count, prevVal, written, w =>
    if bit = prevVal then writeRunlengthLoop bits (count + 1) prevVal written w
    else
      match w.writeAll (Varint.write count) with
      | (true, w) => writeRunlengthLoop bits 1 bit (written + Varint.len count) w
      | (false, w) => (written, w)

/-- The number of bytes of whole varints, and the buffer they were written to. -/
def writeRunlengthEncoded (bitmap : BitMap) (buf : Bytes) : Result (Nat × Bytes) := do
  let bits ← bitmap.bits
  let (written, w) := writeRunlengthLoop bits 0 true 0 { buf, pos := 0 }
  return (written, w.buf)

/-- The whole runs that fit into a buffer of `n` bytes. -/
def sentRuns (n : Nat) (bits : List Bool) : List Nat :=
  (runs bits).take (Varint.wholeWithin n (runs bits))

/-- Loop invariant: the first `written` bytes are the runs before the current one. -/
theorem writeRunlengthLoop_spec (bits : List Bool) (count : Nat) (prev : Bool) (written : Nat)
    (w : SliceWriter) (h64 : count + bits.length < u64Size) (hpos : w.pos = written)
    (hle : written ≤ w.buf.length) :
    let rs := runsFrom prev count bits
    let sent := rs.take (Varint.wholeWithin (w.buf.length - written) rs)
    let res := writeRunlengthLoop bits count prev written w
    res.1 = written + Varint.lenAll sent ∧
      res.2.buf.take res.1 = w.buf.take written ++ Varint.writeAll sent := by
  have hlen := Varint.length_write count (by omega)
  induction bits generalizing count prev written w with
  | nil =>
    simp only [runsFrom, Varint.wholeWithin, writeRunlengthLoop]
    by_cases hfit : written + Varint.len count ≤ w.buf.length
    · rw [SliceWriter.writeAll_fits (by omega), if_pos (by omega)]
      simp only [hpos, List.take_succ_cons, List.take_zero, Varint.lenAll_cons,
        Varint.lenAll_nil, Nat.add_zero, true_and]
      rw [← hlen, overwrite_take _ _ _ _ hle]
      simp
    · obtain ⟨w', hw', -, htake⟩ := @SliceWriter.writeAll_full w (Varint.write count)
        (by omega) (by omega)
      rw [hw', if_neg (by omega)]
      simpa [hpos] using htake
  | cons bit bits ih =>
    rw [List.length_cons] at h64
    simp only [runsFrom, writeRunlengthLoop]
    by_cases hbit : bit = prev
    · simp only [if_pos hbit]
      exact ih (count + 1) prev written w (by omega) hpos hle (Varint.length_write _ (by omega))
    · simp only [if_neg hbit, Varint.wholeWithin]
      by_cases hfit : written + Varint.len count ≤ w.buf.length
      · rw [SliceWriter.writeAll_fits (by omega), if_pos (by omega)]
        have hbuf : (overwrite 0 w.buf w.pos (Varint.write count)).length = w.buf.length :=
          overwrite_length_of_fits _ _ _ _ (by omega)
        have hrec := ih 1 bit (written + Varint.len count)
          { buf := overwrite 0 w.buf w.pos (Varint.write count),
            pos := w.pos + (Varint.write count).length } (by omega)
          (by rw [hpos, hlen]) (by rw [hbuf]; exact hfit) (Varint.length_write _ (by decide))
        simp only [hbuf] at hrec
        simp only [List.take_succ_cons, Varint.lenAll_cons, Varint.writeAll_cons]
        rw [show w.buf.length - written - Varint.len count =
          w.buf.length - (written + Varint.len count) by omega]
        refine ⟨by rw [hrec.1]; omega, ?_⟩
        rw [hrec.2, ← hlen, hpos, overwrite_take _ _ _ _ hle, List.append_assoc]
      · obtain ⟨w', hw', -, htake⟩ := @SliceWriter.writeAll_full w (Varint.write count)
          (by omega) (by omega)
        rw [hw', if_neg (by omega)]
        simpa [hpos] using htake

theorem writeRunlengthEncoded_spec {m : BitMap} (hf : m.numBits ≤ m.buf.length * 8)
    (h64 : m.numBits < u64Size) (buf : Bytes) :
    ∃ written out, writeRunlengthEncoded m buf = .ok (written, out) ∧
      written = Varint.lenAll (sentRuns buf.length m.toBools) ∧
      out.take written = Varint.writeAll (sentRuns buf.length m.toBools) := by
  have hloop := writeRunlengthLoop_spec m.toBools 0 true 0 { buf, pos := 0 } (by simpa using h64)
    rfl (Nat.zero_le _)
  simp only [Nat.sub_zero, Nat.zero_add, List.take_zero, List.nil_append] at hloop
  rw [writeRunlengthEncoded, BitMap.bits_eq hf, Result.bind_ok]
  exact ⟨_, _, rfl, hloop⟩

theorem sentRuns_of_fits {n : Nat} {bits : List Bool} (h : Varint.lenAll (runs bits) ≤ n) :
    sentRuns n bits = runs bits := by
  rw [sentRuns, Varint.wholeWithin_of_fits h, List.take_length]

theorem sentRuns_sum_le (n : Nat) (bits : List Bool) : (sentRuns n bits).sum ≤ bits.length :=
  take_runs_sum_le _ bits

theorem sentRuns_tail_pos (n : Nat) (bits : List Bool) : ∀ k ∈ (sentRuns n bits).tail, 0 < k :=
  take_runs_tail_pos _ bits

theorem expand_sentRuns (n : Nat) (bits : List Bool) :
    expand true (sentRuns n bits) = bits.take (sentRuns n bits).sum :=
  expand_take_runs _ bits

/-! ## Decoding -/

/-- Whether nothing is missing, and the new ranges. -/
def MissingRanges.parseStatusUpdate (update : Bytes) : Result (Bool × MissingRanges) := do
  let runs ← Varint.readAll update
  let sums ← scanSums 0 runs
  let missing := pairs sums
  return (missing.isEmpty, { missing, cursor := 0 })

theorem parseStatusUpdate_writeAll {ns : List Nat} (h : ns.sum < u64Size) :
    MissingRanges.parseStatusUpdate (Varint.writeAll ns) =
      .ok ((pairs (sums 0 ns)).isEmpty, { missing := pairs (sums 0 ns), cursor := 0 }) := by
  have hns : ∀ n ∈ ns, n < u64Size := fun n hn =>
    lt_of_le_of_lt (List.single_le_sum (by simp) n hn) h
  rw [MissingRanges.parseStatusUpdate, Varint.readAll_writeAll ns hns, Result.bind_ok,
    scanSums_eq (by omega)]
  rfl

/-! ## From the bitmap to the retransmitted chunks -/

/-- The client's ranges after it read the runs that the server sent. -/
def rangesOf (n : Nat) (bits : List Bool) : MissingRanges :=
  { missing := pairs (sums 0 (sentRuns n bits)), cursor := 0 }

theorem rangesOf_ascending (n : Nat) (bits : List Bool) :
    Ranges.Ascending (rangesOf n bits).missing :=
  ascending_pairs_sums (sentRuns_tail_pos n bits)

theorem mem_rangesOf {n : Nat} {m : BitMap} {i : Nat} :
    i ∈ Ranges.members (rangesOf n m.toBools).missing ↔
      i < (sentRuns n m.toBools).sum ∧ m.bit i = false := by
  have hle := sentRuns_sum_le n m.toBools
  rw [BitMap.toBools_length] at hle
  rw [rangesOf, members_pairs_sums, expand_sentRuns, mem_zeros, Nat.sub_zero]
  constructor
  · rintro ⟨-, h⟩
    by_cases hlt : i < (sentRuns n m.toBools).sum
    · rw [List.getElem?_take_of_lt hlt] at h
      exact ⟨hlt, (BitMap.toBools_getElem?_false.mp h).2⟩
    · rw [List.getElem?_take_eq_none (by omega)] at h
      simp at h
  · rintro ⟨hlt, hbit⟩
    refine ⟨Nat.zero_le i, ?_⟩
    rw [List.getElem?_take_of_lt hlt]
    exact BitMap.toBools_getElem?_false.mpr ⟨by omega, hbit⟩

theorem rangesOf_isEmpty {m : BitMap} :
    (rangesOf mtu m.toBools).missing.isEmpty = true ↔ ∀ i < m.numBits, m.bit i = true := by
  have hpos := List.length_pos_of_ne_nil (runsFrom_ne_nil true 0 m.toBools)
  have hle := Varint.wholeWithin_le mtu (runs m.toBools)
  have hone : (runs m.toBools).length = 1 ↔ ∀ i < m.numBits, m.bit i = true := by
    rw [runs_length_eq_one, BitMap.toBools]
    simp
  rw [← hone, rangesOf, pairs_isEmpty, sums_length, sentRuns, List.length_take,
    Nat.min_eq_left hle]
  constructor
  · intro h
    by_contra hne
    have htwo : 2 ≤ (runs m.toBools).length := by rw [runs] at hne ⊢; omega
    have := Varint.le_wholeWithin (k := 2) (n := mtu) (by decide) htwo
    omega
  · intro h
    omega

theorem parse_sent_status {m : BitMap} {buf out : Bytes} {written : Nat}
    (hf : m.numBits ≤ m.buf.length * 8) (h64 : m.numBits < u64Size)
    (h : writeRunlengthEncoded m buf = .ok (written, out)) :
    MissingRanges.parseStatusUpdate (out.take written) =
      .ok ((rangesOf buf.length m.toBools).missing.isEmpty, rangesOf buf.length m.toBools) := by
  obtain ⟨w, o, hwo, -, htake⟩ := writeRunlengthEncoded_spec hf h64 buf
  rw [h, Result.ok.injEq, Prod.mk.injEq] at hwo
  obtain ⟨rfl, rfl⟩ := hwo
  have hle := sentRuns_sum_le buf.length m.toBools
  rw [BitMap.toBools_length] at hle
  rw [htake, parseStatusUpdate_writeAll (by omega)]
  rfl

theorem written_status_length {m : BitMap} {buf out : Bytes} {written : Nat}
    (hf : m.numBits ≤ m.buf.length * 8) (h64 : m.numBits < u64Size)
    (h : writeRunlengthEncoded m buf = .ok (written, out)) :
    (out.take written).length ≤ buf.length := by
  obtain ⟨w, o, hwo, hlen, -⟩ := writeRunlengthEncoded_spec hf h64 buf
  rw [h, Result.ok.injEq, Prod.mk.injEq] at hwo
  obtain ⟨rfl, rfl⟩ := hwo
  have := Varint.lenAll_take_wholeWithin_le buf.length (runs m.toBools)
  rw [List.length_take, hlen, sentRuns]
  omega

/-- The chunks that the client sends after a status are the missing ones, each once and in order.
A status that did not fit tells it about the chunks that its whole runs cover. -/
theorem status_drives_retransmission {m : BitMap} (hf : m.numBits ≤ m.buf.length * 8)
    (h64 : m.numBits < u64Size) (buf : Bytes) :
    ∃ written out full missing fuel chunks,
      writeRunlengthEncoded m buf = .ok (written, out) ∧
      MissingRanges.parseStatusUpdate (out.take written) = .ok (full, missing) ∧
      missing.nextChunks fuel = .ok chunks ∧
      chunks.Pairwise (· < ·) ∧
      (∀ i ∈ chunks, m.bit i = false) ∧
      (∀ i, i ∈ chunks ↔ i < (sentRuns buf.length m.toBools).sum ∧ m.bit i = false) ∧
      (Varint.lenAll (runs m.toBools) ≤ buf.length →
        ∀ i, i ∈ chunks ↔ i < m.numBits ∧ m.bit i = false) ∧
      out.take written = Varint.writeAll (sentRuns buf.length m.toBools) ∧
      written = Varint.lenAll (sentRuns buf.length m.toBools) := by
  obtain ⟨written, out, hwrite, hlen, htake⟩ := writeRunlengthEncoded_spec hf h64 buf
  have hle := sentRuns_sum_le buf.length m.toBools
  rw [BitMap.toBools_length] at hle
  have hasc := rangesOf_ascending buf.length m.toBools
  have hall : (Ranges.members (rangesOf buf.length m.toBools).missing).filter
      ((rangesOf buf.length m.toBools).cursor ≤ ·) =
        Ranges.members (rangesOf buf.length m.toBools).missing :=
    List.filter_eq_self.mpr fun i _ => by simp [rangesOf]
  have hsweep := MissingRanges.nextChunks_eq hasc.exact hasc.weaken
    (fun i hi => by have := (mem_rangesOf.mp hi).1; omega) _ (Nat.lt_succ_self _)
  rw [hall] at hsweep
  refine ⟨written, out, _, _, _, _, hwrite, parse_sent_status hf h64 hwrite, hsweep,
    hasc.members_sorted, fun i hi => (mem_rangesOf.mp hi).2, fun i => mem_rangesOf, ?_,
    htake, hlen⟩
  intro hfits i
  rw [mem_rangesOf, sentRuns_of_fits hfits, runs_sum, BitMap.toBools_length]

end Varint

/-- Bits 0, 1 and 3 of eight are set. The buffer has room for three of the four runs, so chunk 4
is not asked for. -/
theorem status_drives_retransmission_cut :
    letI := leb128
    ∃ written out full missing fuel chunks,
      writeRunlengthEncoded ⟨[11], 8, 5⟩ [0, 0, 0] = .ok (written, out) ∧
      MissingRanges.parseStatusUpdate (out.take written) = .ok (full, missing) ∧
      missing.nextChunks fuel = .ok chunks ∧ 2 ∈ chunks ∧ 4 ∉ chunks ∧ written = 3 := by
  let _ := leb128
  obtain ⟨written, out, full, missing, fuel, chunks, h1, h2, h3, -, -, hmem, -, -, hlen⟩ :=
    status_drives_retransmission (m := ⟨[11], 8, 5⟩) (by decide) (by decide) [0, 0, 0]
  exact ⟨written, out, full, missing, fuel, chunks, h1, h2, h3, (hmem 2).mpr (by decide),
    fun h => absurd ((hmem 4).mp h) (by decide), hlen⟩

end DasProtokoll.Csync
