import DasProtokoll.Scsync.Serde

/-!
# What arrives of a message

A datagram is decoded to the message that was encoded into it. Only a status
with many ranges loses the last ones.
-/

namespace DasProtokoll.Scsync

open DasProtokoll

namespace MyCodec

theorem whole_of_inRange {msg : Msg} (hpayload : ∀ p, msg = .TransferPayload p → p.chunkid < u64Size)
    (hstatus : ∀ status, msg ≠ .TransferStatus status) : Whole msg := by
  cases msg with
  | TransferPayload payload => exact hpayload payload rfl
  | TransferStatus status => exact absurd rfl (hstatus status)
  | _ => trivial

section Serde

variable [Serde] {cap : Nat}

theorem encode_payload {payload : TransferPayload}
    (hlen : 1 + Varint.len payload.chunkid + payload.data.length ≤ mtu) :
    encode cap (.TransferPayload payload) =
      .ok (0 :: (Varint.write payload.chunkid ++ payload.data)) := by
  simp only [encode, Result.assert_of hlen, Result.bind_ok, Result.pure_def]

theorem status_length_le {status : TransferStatus} {d : Bytes}
    (h : encode cap (.TransferStatus status) = .ok d) : d.length ≤ mtu := by
  simp only [encode, Result.bind_eq_ok, Result.pure_def, Result.ok.injEq] at h
  obtain ⟨values, -, dst, -, rfl⟩ := h
  exact List.length_take_le mtu dst

/-! ## A status that is too long for the buffer -/

theorem encode_status_ok_iff {rs : Ranges} {values : List Nat}
    (hrs : ∀ r ∈ rs, r.1 < u64Size ∧ r.2 < u64Size)
    (hvalues : differences 0 (bounds rs) = .ok values) :
    (∃ d, encode cap (.TransferStatus { missingRanges := rs }) = .ok d) ↔
      1 + Varint.lenAll values ≤ max cap mtu := by
  have hlength := Varint.length_writeAll values (mem_differences hvalues (bounds_lt hrs))
  simp only [encode, hvalues, Result.bind_ok, Result.bind_eq_ok, Result.pure_def, Result.ok.injEq,
    putWriter_eq_ok, List.length_cons, hlength]
  constructor
  · rintro ⟨_, _, ⟨hle, -⟩, -⟩
    omega
  · intro hle
    exact ⟨_, _, ⟨by omega, rfl⟩, rfl⟩

/-- A status is sent, and only ranges that do not fit are dropped, if and only if all of its ranges
together fit into the buffer as it is after `reserve`. -/
theorem encode_status_iff (cap : Nat) {rs : Ranges} (hrs : ∀ r ∈ rs, r.1 < u64Size ∧ r.2 < u64Size)
    (hsorted : (bounds rs).Pairwise (· ≤ ·)) :
    ∃ values, differences 0 (bounds rs) = .ok values ∧
      ((∃ d, encode cap (.TransferStatus { missingRanges := rs }) = .ok d ∧ d.length ≤ mtu ∧
        ∃ arrived, arrived <+: rs ∧
          decode d = .ok (some (.TransferStatus { missingRanges := arrived })) ∧
          ∀ n, 1 + Varint.lenAll (values.take (2 * n)) ≤ mtu → rs.take n <+: arrived) ↔
        1 + Varint.lenAll values ≤ max cap mtu) := by
  obtain ⟨values, hvalues⟩ := exists_differences hsorted
  refine ⟨values, hvalues, ?_⟩
  rw [← encode_status_ok_iff hrs hvalues]
  constructor
  · rintro ⟨d, h, -⟩
    exact ⟨d, h⟩
  · rintro ⟨d, h⟩
    exact ⟨d, h, status_length_le h, cut rs values, List.take_prefix _ _, decode_cut hrs hvalues h,
      fun n hn => take_prefix_cut hvalues hn⟩

theorem encode_status_of_many {rs : Ranges} (hrs : ∀ r ∈ rs, r.1 < u64Size ∧ r.2 < u64Size)
    (hsorted : (bounds rs).Pairwise (· ≤ ·)) (hmany : max cap mtu ≤ 2 * rs.length) :
    encode cap (.TransferStatus { missingRanges := rs }) = .panic := by
  obtain ⟨values, hvalues⟩ := exists_differences hsorted
  have hlength := Varint.length_writeAll values (mem_differences hvalues (bounds_lt hrs))
  have hbytes := Varint.length_le_lenAll values
  have hcount := length_differences hvalues
  simp only [encode, hvalues, Result.bind_ok, putWriter]
  rw [Result.assert_of_not]
  · rfl
  · rw [List.length_cons, hlength]
    omega

/-! ## All messages -/

/-- What is encoded is decoded again, and of a status at least the first ranges. -/
theorem datagram_round_trip (cap : Nat) :
    (∀ msg d, (∀ p, msg = .TransferPayload p → p.chunkid < u64Size) →
      (∀ status, msg ≠ .TransferStatus status) → encode cap msg = .ok d →
        decode d = .ok (some msg)) ∧
    (∀ payload : TransferPayload, payload.chunkid < u64Size →
      1 + Varint.len payload.chunkid + payload.data.length ≤ mtu →
        ∃ d, encode cap (.TransferPayload payload) = .ok d ∧
          decode d = .ok (some (.TransferPayload payload))) ∧
    ∀ rs : Ranges, (∀ r ∈ rs, r.1 < u64Size ∧ r.2 < u64Size) → (bounds rs).Pairwise (· ≤ ·) →
      ∃ values, differences 0 (bounds rs) = .ok values ∧
        (1 + Varint.lenAll values ≤ mtu →
          ∃ d, encode cap (.TransferStatus { missingRanges := rs }) = .ok d) ∧
        ∀ d, encode cap (.TransferStatus { missingRanges := rs }) = .ok d → d.length ≤ mtu ∧
          ∃ arrived, arrived <+: rs ∧
            decode d = .ok (some (.TransferStatus { missingRanges := arrived })) ∧
            (1 + Varint.lenAll values ≤ mtu → arrived = rs) := by
  refine ⟨?_, ?_, ?_⟩
  · intro msg d hpayload hstatus h
    exact decode_encode (whole_of_inRange hpayload hstatus) h
  · intro payload h64 hlen
    have h := @encode_payload _ cap payload hlen
    exact ⟨_, h, decode_encode h64 h⟩
  · intro rs hrs hsorted
    obtain ⟨values, hvalues⟩ := exists_differences hsorted
    refine ⟨values, hvalues, ?_, ?_⟩
    · intro hfits
      exact (encode_status_ok_iff hrs hvalues).mpr (by omega)
    intro d h
    obtain ⟨values', k, hvalues', hdecode, hwhole⟩ := decode_status hrs h
    obtain rfl : values' = values := Result.ok.inj (hvalues'.symm.trans hvalues)
    exact ⟨status_length_le h, rs.take k, List.take_prefix k rs, hdecode, hwhole⟩

end Serde

/-- A root that has itself as a hint. -/
def hintedRoot : BlockRef :=
  let root : BlockRef := { blockid := Vector.replicate 32 0, key := Vector.replicate 16 0, hints := [] }
  { root with hints := [{ blockref := root, offset := 5, length := 300 }] }

def hintedUpdate : RootUpdate :=
  { nonce := Vector.replicate 12 0, fromBlockid := Vector.replicate 32 1, toBlockref := hintedRoot }

/-- An announcement with a hint, a payload of one byte and a status with two ranges. -/
theorem datagram_round_trip_short :
    letI := serde
    (∃ d, encode 8192 (.RootUpdate hintedUpdate) = .ok d ∧
      decode d = .ok (some (.RootUpdate hintedUpdate))) ∧
    (∃ d, encode 8192 (.TransferPayload { chunkid := 300, data := [7] }) = .ok d ∧
      decode d = .ok (some (.TransferPayload { chunkid := 300, data := [7] }))) ∧
    ∃ d, encode 8192 (.TransferStatus { missingRanges := [(5, 6), (6, 300)] }) = .ok d ∧
      d.length ≤ mtu ∧
      decode d = .ok (some (.TransferStatus { missingRanges := [(5, 6), (6, 300)] })) := by
  let _ := serde
  obtain ⟨hothers, hpayload, hstatus⟩ := datagram_round_trip 8192
  have hupdate : encode 8192 (.RootUpdate hintedUpdate) = .ok (2 :: Cbor.toWriter hintedUpdate) := by
    decide +kernel
  obtain ⟨values, hvalues, hencode, harrived⟩ :=
    hstatus [(5, 6), (6, 300)] (by decide) (by simp [bounds])
  have hsent : differences 0 (bounds [(5, 6), (6, 300)]) = .ok [5, 1, 0, 294] := by decide
  obtain rfl := Result.ok.inj (hvalues.symm.trans hsent)
  have hfits : 1 + Varint.lenAll [5, 1, 0, 294] ≤ mtu := by decide +kernel
  obtain ⟨d, hd⟩ := hencode hfits
  obtain ⟨hlength, arrived, -, hdecode, hwhole⟩ := harrived d hd
  rw [hwhole hfits] at hdecode
  refine ⟨⟨_, hupdate, ?_⟩, ?_, d, hd, hlength, hdecode⟩
  · apply hothers _ _ _ _ hupdate
    · intro p hp
      cases hp
    · intro status hs
      cases hs
  · apply hpayload
    · decide
    · decide +kernel

/-! ## Loss of every other chunk -/

def everyOther (n : Nat) : Ranges := (List.range n).map fun i => (2 * i, 2 * i + 1)

theorem bounds_everyOther (n : Nat) : bounds (everyOther n) = List.range (2 * n) := by
  induction n with
  | zero => rfl
  | succ n ih =>
    have hsnoc : bounds (everyOther (n + 1)) = bounds (everyOther n) ++ [2 * n, 2 * n + 1] := by
      simp [everyOther, bounds, List.range_succ]
    rw [hsnoc, ih, Nat.mul_succ, List.range_succ, List.range_succ, List.append_assoc]
    rfl

theorem everyOther_lt {n : Nat} (h : 2 * n < u64Size) :
    ∀ r ∈ everyOther n, r.1 < u64Size ∧ r.2 < u64Size := by
  intro r hr
  obtain ⟨i, hi, rfl⟩ := List.mem_map.mp hr
  rw [List.mem_range] at hi
  omega

theorem everyOther_sorted (n : Nat) : (bounds (everyOther n)).Pairwise (· ≤ ·) := by
  rw [bounds_everyOther]
  exact List.pairwise_le_range

theorem encode_status_iff_two :
    letI := serde
    ∃ values, differences 0 (bounds (everyOther 2)) = .ok values ∧
      ((∃ d, encode 8192 (.TransferStatus { missingRanges := everyOther 2 }) = .ok d ∧ d.length ≤ mtu ∧
        ∃ arrived, arrived <+: everyOther 2 ∧
          decode d = .ok (some (.TransferStatus { missingRanges := arrived })) ∧
          ∀ n, 1 + Varint.lenAll (values.take (2 * n)) ≤ mtu → (everyOther 2).take n <+: arrived) ↔
        1 + Varint.lenAll values ≤ max 8192 mtu) :=
  letI := serde
  encode_status_iff 8192 (everyOther_lt (by decide)) (everyOther_sorted 2)

/-- With 4096 single chunks missing, the buffer of 8192 bytes is full before the ranges end. -/
theorem encode_status_panics :
    letI := serde
    (everyOther 4096).length = 4096 ∧ (bounds (everyOther 4096)).Pairwise (· ≤ ·) ∧
      encode 8192 (.TransferStatus { missingRanges := everyOther 4096 }) = .panic := by
  let _ := serde
  have hlen : (everyOther 4096).length = 4096 := by simp [everyOther]
  refine ⟨hlen, everyOther_sorted 4096, ?_⟩
  apply encode_status_of_many (everyOther_lt (by decide)) (everyOther_sorted 4096)
  rw [hlen]
  decide

end MyCodec

end DasProtokoll.Scsync
