import DasProtokoll.Csync.StatusUpdate

/-!
# The cursor over missing ranges

The two searches of the client over the ranges it parsed, and its sweep over
ranges that some other encoder described.
-/

namespace DasProtokoll.Csync

open DasProtokoll BitteEinBit

namespace MissingRanges

def indexAfter (cursor : Nat) : Option Nat → Nat
  | none => cursor
  | some i => i + 1

theorem nextChunk_eq_advanceCursor {m : MissingRanges} (hm : 0 < m.cursor)
    (h64 : m.cursor < u64Size) (hb : ∀ r ∈ m.missing, r.1 < r.2 ∧ r.2 < u64Size) :
    ∃ r, m.advanceCursor (m.cursor - 1) = .ok r ∧
      m.nextChunk = .ok (r, { m with cursor := indexAfter m.cursor r }) := by
  have hcur : m.cursor - 1 + 1 = m.cursor := Nat.sub_add_cancel hm
  refine ⟨Ranges.firstFrom m.missing m.cursor, ?_, ?_⟩
  · rw [advanceCursor_eq (by omega), hcur]
  · cases hi : Ranges.firstFrom m.missing m.cursor with
    | none => exact nextChunk_none hi
    | some i =>
      apply nextChunk_some hi
      obtain ⟨pre, r, post, hrs, -, hlt, rfl⟩ := Ranges.firstFrom_eq_some hi
      have := hb r (by simp [hrs])
      omega

/-! ## Any sweep -/

/-- The sweep returns the members of the ranges, ascending and once each. -/
def SweepsExactly (m : MissingRanges) : Prop :=
  ∃ fuel chunks, m.nextChunks fuel = .ok chunks ∧ chunks.Pairwise (· < ·) ∧
    ∀ i, i ∈ chunks ↔ i ∈ Ranges.members m.missing

theorem nextChunks_succ {m : MissingRanges} {fuel i : Nat} {chunks : List Nat}
    (hi : Ranges.firstFrom m.missing m.cursor = some i) (h : m.nextChunks (fuel + 1) = .ok chunks) :
    ∃ rest, chunks = i :: rest ∧ nextChunks fuel { m with cursor := i + 1 } = .ok rest := by
  rw [nextChunks] at h
  obtain ⟨⟨r, m'⟩, hnext, hrun⟩ := Result.bind_eq_ok.mp h
  rw [nextChunk, hi] at hnext
  obtain ⟨_, -, hret⟩ := Result.bind_eq_ok.mp hnext
  cases hret
  obtain ⟨rest, hrest, hchunks⟩ := Result.bind_eq_ok.mp hrun
  cases hchunks
  exact ⟨rest, rfl, hrest⟩

theorem nextChunks_meets {m : MissingRanges} (h : Ranges.Ordered m.missing) {r : Nat × Nat}
    (hr : r ∈ m.missing) (hpos : 0 < r.1) {fuel : Nat} {chunks : List Nat} (hc : m.cursor < r.1)
    (hrun : m.nextChunks fuel = .ok chunks) : r.1 ∈ chunks ∨ r.1 - 1 ∈ chunks := by
  induction fuel generalizing m chunks with
  | zero => cases hrun
  | succ fuel ih =>
    have hle := h.le r hr
    obtain ⟨i, hi, hci, hir⟩ := h.firstFrom_le hr (lt_of_lt_of_le hc hle)
    rw [max_eq_right hc.le] at hir
    obtain ⟨rest, rfl, hrest⟩ := nextChunks_succ hi hrun
    by_cases hnear : i + 1 < r.1
    · rcases ih (m := { m with cursor := i + 1 }) h hr hnear hrest with hmem | hmem
      · exact Or.inl (List.mem_cons_of_mem _ hmem)
      · exact Or.inr (List.mem_cons_of_mem _ hmem)
    · rcases hir.lt_or_eq with hlt | heq
      · exact Or.inr (by simp; omega)
      · exact Or.inl (by simp [heq])

theorem sweepsExactly_iff {m : MissingRanges} (h : Ranges.Ordered m.missing)
    (h64 : ∀ r ∈ m.missing, r.2 < u64Size) (hcur : m.cursor = 0) :
    m.SweepsExactly ↔ Ranges.Bordered m.missing := by
  constructor
  · rintro ⟨fuel, chunks, hrun, -, hmem⟩
    intro r hr heq
    rw [or_iff_not_imp_left]
    intro hpos
    rcases nextChunks_meets h hr (by omega) (by omega) hrun with hc | hc
    · exact Or.inl ((hmem _).mp hc)
    · exact Or.inr ((hmem _).mp hc)
  · intro hb
    have hall : (Ranges.members m.missing).filter (m.cursor ≤ ·) = Ranges.members m.missing :=
      List.filter_eq_self.mpr fun i _ => by simp [hcur]
    have hsweep := nextChunks_eq (h.exact hb) h (fun i hi => ?_) _ (Nat.lt_succ_self _)
    · rw [hall] at hsweep
      exact ⟨_, _, hsweep, h.members_sorted, fun i => Iff.rfl⟩
    · obtain ⟨r, hr, -, hir⟩ := Ranges.mem_members.mp hi
      have := h64 r hr
      omega

end MissingRanges

section Varint

variable [Varint]

/-! ## Ranges that the server described -/

def missingAfter (m : BitMap) (c : Nat) : Set Nat := {i | c < i ∧ i < m.numBits ∧ m.bit i = false}

theorem membersFrom_rangesOf {n : Nat} {m : BitMap} (h : Varint.lenAll (runs m.toBools) ≤ n)
    (c : Nat) : Ranges.membersFrom (rangesOf n m.toBools).missing (c + 1) = missingAfter m c := by
  ext i
  have hmem : i ∈ Ranges.members (rangesOf n m.toBools).missing ↔ i < m.numBits ∧ m.bit i = false := by
    rw [mem_rangesOf, sentRuns_of_fits h, runs_sum, BitMap.toBools_length]
  constructor
  · rintro ⟨hi, hc⟩
    exact ⟨hc, hmem.mp hi⟩
  · rintro ⟨hc, hi⟩
    exact ⟨hmem.mpr hi, hc⟩

theorem rangesOf_bounded {n : Nat} {m : BitMap} (h64 : m.numBits < u64Size) :
    ∀ r ∈ (rangesOf n m.toBools).missing, r.1 < r.2 ∧ r.2 < u64Size := by
  intro r hr
  have hlt := (rangesOf_ascending n m.toBools).nonempty r hr
  refine ⟨hlt, ?_⟩
  have hlast := (mem_rangesOf.mp (Ranges.mem_members.mpr ⟨r, hr, by omega, by omega⟩ :
    r.2 - 1 ∈ Ranges.members (rangesOf n m.toBools).missing)).1
  have hle := sentRuns_sum_le n m.toBools
  rw [BitMap.toBools_length] at hle
  omega

/-- With the whole bitmap in the status, both searches find the next missing chunk. -/
theorem cursor_search_exact {m : BitMap} (hf : m.numBits ≤ m.buf.length * 8)
    (h64 : m.numBits < u64Size) {buf : Bytes} (hfits : Varint.lenAll (runs m.toBools) ≤ buf.length) :
    ∃ written out full ranges,
      writeRunlengthEncoded m buf = .ok (written, out) ∧
      MissingRanges.parseStatusUpdate (out.take written) = .ok (full, ranges) ∧
      (∀ c, c + 1 < u64Size → ∃ r, ranges.advanceCursor c = .ok r ∧
        (∀ i, r = some i ↔ IsLeast (missingAfter m c) i) ∧ (r = none ↔ missingAfter m c = ∅)) ∧
      ∀ k, 0 < k → k < u64Size → ∃ r, ranges.advanceCursor (k - 1) = .ok r ∧
        { ranges with cursor := k }.nextChunk =
          .ok (r, { ranges with cursor := MissingRanges.indexAfter k r }) := by
  obtain ⟨written, out, hwrite, -, -⟩ := writeRunlengthEncoded_spec hf h64 buf
  have hexact := (rangesOf_ascending buf.length m.toBools).exact
  refine ⟨written, out, _, _, hwrite, parse_sent_status hf h64 hwrite, ?_, ?_⟩
  · intro c hc
    refine ⟨_, MissingRanges.advanceCursor_eq hc, fun i => ?_, ?_⟩
    · rw [← membersFrom_rangesOf hfits, hexact.firstFrom_eq_some_iff]
    · rw [← membersFrom_rangesOf hfits, hexact.firstFrom_eq_none_iff]
  · intro k hk hk64
    exact MissingRanges.nextChunk_eq_advanceCursor
      (m := { rangesOf buf.length m.toBools with cursor := k }) hk hk64 (rangesOf_bounded h64)

end Varint

/-- Bits 0, 1 and 3 of eight are set, so chunk 4 comes after chunk 2. -/
theorem cursor_search_exact_gap :
    letI := leb128
    ∃ written out full ranges,
      writeRunlengthEncoded ⟨[11], 8, 5⟩ [0, 0, 0, 0] = .ok (written, out) ∧
      MissingRanges.parseStatusUpdate (out.take written) = .ok (full, ranges) ∧
      ranges.advanceCursor 2 = .ok (some 4) ∧
      { ranges with cursor := 3 }.nextChunk = .ok (some 4, { ranges with cursor := 5 }) := by
  let _ := leb128
  have hleast : IsLeast (missingAfter ⟨[11], 8, 5⟩ 2) 4 := by
    refine ⟨⟨by decide, by decide, by decide⟩, ?_⟩
    rintro j ⟨hj, -, hbit⟩
    by_contra hlt
    rw [show j = 3 by omega] at hbit
    exact absurd hbit (by decide)
  obtain ⟨written, out, full, ranges, h1, h2, hadvance, hnext⟩ :=
    @cursor_search_exact _ ⟨[11], 8, 5⟩ (by decide) (by decide) [0, 0, 0, 0] (by decide)
  obtain ⟨r, hr, hsome, -⟩ := hadvance 2 (by decide)
  rw [(hsome 4).mpr hleast] at hr
  obtain ⟨r', hr', hstep⟩ := hnext 3 (by decide) (by decide)
  obtain rfl : some 4 = r' := Result.ok.inj (hr.symm.trans hr')
  exact ⟨written, out, full, ranges, h1, h2, hr, hstep⟩

section Varint

variable [Varint]

/-! ## Ranges that any peer described -/

/-- The sweep is exact unless an empty run of missing chunks stands apart from all missing chunks. -/
theorem any_status_sweep {update : Bytes} {ns : List Nat} (hread : Varint.readAll update = .ok ns)
    (hsum : ns.sum < u64Size) :
    ∃ full ranges, MissingRanges.parseStatusUpdate update = .ok (full, ranges) ∧
      Ranges.members ranges.missing = zeros 0 (expand true ns) ∧
      (ranges.SweepsExactly ↔ Ranges.Bordered (pairs (sums 0 ns))) := by
  refine ⟨(pairs (sums 0 ns)).isEmpty, { missing := pairs (sums 0 ns), cursor := 0 }, ?_,
    members_pairs_sums 0 ns, ?_⟩
  · rw [MissingRanges.parseStatusUpdate, hread, Result.bind_ok, scanSums_eq (by omega)]
    rfl
  · apply MissingRanges.sweepsExactly_iff (ordered_pairs_sums 0 ns) _ rfl
    intro r hr
    have := mem_sums_le (mem_of_mem_pairs hr).2
    omega

end Varint

/-- An empty run in front of a missing chunk does no harm. -/
theorem any_status_sweep_adjacent :
    letI := leb128
    ∃ full ranges, MissingRanges.parseStatusUpdate [2, 0, 0, 3] = .ok (full, ranges) ∧
      Ranges.members ranges.missing = [2, 3, 4] ∧ ranges.SweepsExactly := by
  let _ := leb128
  obtain ⟨full, ranges, hparse, hmem, hiff⟩ :=
    @any_status_sweep _ [2, 0, 0, 3] [2, 0, 0, 3] (by decide) (by decide)
  refine ⟨full, ranges, hparse, hmem, hiff.mpr ?_⟩
  intro r hr heq
  rcases List.mem_cons.mp hr with rfl | hr
  · exact Or.inr (Or.inl (by decide))
  · rw [List.mem_singleton.mp hr] at heq
    exact absurd heq (by decide)

/-- Chunk 5 is not missing: its run has length zero. -/
theorem empty_run_is_sent :
    letI := leb128
    ∃ ranges, Varint.readAll [5, 0, 3, 2] = .ok [5, 0, 3, 2] ∧ [5, 0, 3, 2].sum < u64Size ∧
      MissingRanges.parseStatusUpdate [5, 0, 3, 2] = .ok (false, ranges) ∧
      ranges.nextChunks 4 = .ok [5, 8, 9] ∧ 5 ∉ Ranges.members ranges.missing ∧
      ¬ ranges.SweepsExactly := by
  let _ := leb128
  refine ⟨⟨[(5, 5), (8, 10)], 0⟩, by decide, by decide, by decide, by decide, by decide, ?_⟩
  rintro ⟨fuel, chunks, hrun, -, hmem⟩
  rcases MissingRanges.nextChunks_meets (r := (5, 5)) ⟨by decide, by decide⟩ (by decide) (by decide)
    (by decide) hrun with h | h
  · exact absurd ((hmem _).mp h) (by decide)
  · exact absurd ((hmem _).mp h) (by decide)

end DasProtokoll.Csync
