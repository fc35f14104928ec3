import DasProtokoll.Lib.Cbor
import DasProtokoll.Lib.Ranges
import DasProtokoll.Lib.RunLength
import DasProtokoll.Scsync.BlockDb

/-!
# Messages

One datagram carries one message. Ranges of missing chunks are sent as
differences and cut to the size of a datagram, without a mark that says so.
-/

namespace DasProtokoll.Scsync

open DasProtokoll

def mtu : Nat := 1460

structure TransferPayload where
  chunkid : Nat
  data : Bytes
  deriving Repr, DecidableEq

/-- Each range is a chunk id and the one behind the last. -/
structure TransferStatus where
  missingRanges : Ranges
  deriving Repr, DecidableEq

structure RootUpdate where
  nonce : Vector UInt8 12
  fromBlockid : BlockId
  toBlockref : BlockRef
  deriving Repr, DecidableEq

structure RootUpdateResponse where
  fromBlockid : BlockId
  toBlockid : BlockId
  toKey : Key
  deriving Repr, DecidableEq

structure BlockRequest where
  blockid : BlockId
  deriving Repr, DecidableEq

structure BlockRequestResponse where
  blockid : BlockId
  startId : UInt64
  endId : UInt64
  len : UInt64
  deriving Repr, DecidableEq

inductive Msg where
  | TransferPayload (payload : TransferPayload)
  | TransferStatus (status : TransferStatus)
  | RootUpdate (update : RootUpdate)
  | RootUpdateResponse (res : RootUpdateResponse)
  | BlockRequest (req : BlockRequest)
  | BlockRequestResponse (res : BlockRequestResponse)
  deriving Repr, DecidableEq

/-- All that is needed to write the parts of a message and read them back. -/
class Serde extends Varint where
  cborRootUpdate : Cbor RootUpdate
  cborRootUpdateResponse : Cbor RootUpdateResponse
  cborBlockRequest : Cbor BlockRequest
  cborBlockRequestResponse : Cbor BlockRequestResponse

attribute [reducible, instance] Serde.cborRootUpdate Serde.cborRootUpdateResponse
  Serde.cborBlockRequest Serde.cborBlockRequestResponse

namespace MyCodec

/-- Each number minus the one before. -/
def differences : Nat → List Nat → Result (List Nat)
  | _, [] => return []
  | a, x :: xs => do
    Result.assert (a ≤ x)
    let rest ← differences x xs
    return (x - a) :: rest

def bounds (ranges : Ranges) : List Nat := ranges.flatMap fun r => [r.1, r.2]

/-- Writing behind the capacity fails, and nothing handles the error. -/
def putWriter (cap : Nat) (dst : Bytes) : Result Bytes := do
  Result.assert (dst.length ≤ cap)
  return dst

/-! ## Differences and bounds -/

theorem putWriter_eq_ok {cap : Nat} {dst d : Bytes} :
    putWriter cap dst = .ok d ↔ dst.length ≤ cap ∧ d = dst := by
  simp only [putWriter, Result.bind_eq_ok, Result.assert_eq_ok, Result.pure_def, Result.ok.injEq]
  constructor
  · rintro ⟨_, h, rfl⟩
    exact ⟨h, rfl⟩
  · rintro ⟨h, rfl⟩
    exact ⟨(), h, rfl⟩

theorem bounds_cons (r : Nat × Nat) (rs : Ranges) : bounds (r :: rs) = r.1 :: r.2 :: bounds rs := rfl

theorem pairs_take_bounds (rs : Ranges) (k : Nat) :
    pairs ((bounds rs).take k) = rs.take (k / 2) := by
  induction rs generalizing k with
  | nil => simp [bounds, pairs]
  | cons r rs ih =>
    rcases k with _ | _ | k
    · simp [pairs]
    · simp [bounds_cons, pairs]
    · rw [bounds_cons, List.take_succ_cons, List.take_succ_cons, pairs, ih,
        show (k + 2) / 2 = k / 2 + 1 by omega, List.take_succ_cons]

theorem sums_differences {a : Nat} {xs ds : List Nat} (h : differences a xs = .ok ds) :
    sums a ds = xs := by
  induction xs generalizing a ds with
  | nil =>
    rw [differences, Result.pure_def, Result.ok.injEq] at h
    subst h
    rfl
  | cons x xs ih =>
    simp only [differences, Result.bind_eq_ok, Result.assert_eq_ok, Result.pure_def,
      Result.ok.injEq] at h
    obtain ⟨_, hle, rest, hrest, rfl⟩ := h
    rw [sums, Nat.add_sub_cancel' hle, ih hrest]

theorem mem_differences {a : Nat} {xs ds : List Nat} (h : differences a xs = .ok ds)
    (hxs : ∀ x ∈ xs, x < u64Size) : ∀ n ∈ ds, n < u64Size := by
  induction xs generalizing a ds with
  | nil =>
    rw [differences, Result.pure_def, Result.ok.injEq] at h
    subst h
    simp
  | cons x xs ih =>
    simp only [differences, Result.bind_eq_ok, Result.assert_eq_ok, Result.pure_def,
      Result.ok.injEq] at h
    obtain ⟨_, hle, rest, hrest, rfl⟩ := h
    simp only [List.mem_cons, forall_eq_or_imp] at hxs ⊢
    exact ⟨by omega, ih hrest hxs.2⟩

theorem differences_ok_iff {a : Nat} {xs : List Nat} :
    (∃ ds, differences a xs = .ok ds) ↔ (a :: xs).Pairwise (· ≤ ·) := by
  induction xs generalizing a with
  | nil => simp [differences]
  | cons x xs ih =>
    rw [List.pairwise_cons_cons_iff_of_trans, ← ih]
    simp only [differences, Result.bind_eq_ok, Result.assert_eq_ok, Result.pure_def,
      Result.ok.injEq]
    constructor
    · rintro ⟨_, _, hle, rest, hrest, -⟩
      exact ⟨hle, rest, hrest⟩
    · rintro ⟨hle, rest, hrest⟩
      exact ⟨_, (), hle, rest, hrest, rfl⟩

theorem exists_differences {rs : Ranges} (hsorted : (bounds rs).Pairwise (· ≤ ·)) :
    ∃ values, differences 0 (bounds rs) = .ok values :=
  differences_ok_iff.mpr (List.pairwise_cons.mpr ⟨fun _ _ => Nat.zero_le _, hsorted⟩)

theorem mem_bounds {rs : Ranges} {x : Nat} (h : x ∈ bounds rs) : ∃ r ∈ rs, x = r.1 ∨ x = r.2 := by
  simpa [bounds] using h

theorem bounds_lt {rs : Ranges} {n : Nat} (h : ∀ r ∈ rs, r.1 < n ∧ r.2 < n) : ∀ x ∈ bounds rs, x < n := by
  intro x hx
  obtain ⟨r, hr, rfl | rfl⟩ := mem_bounds hx
  · exact (h r hr).1
  · exact (h r hr).2

theorem length_bounds (rs : Ranges) : (bounds rs).length = 2 * rs.length := by
  simp [bounds, List.length_flatMap, Nat.mul_comm]

theorem length_differences {rs : Ranges} {values : List Nat}
    (hvalues : differences 0 (bounds rs) = .ok values) : values.length = 2 * rs.length := by
  rw [← length_bounds, ← sums_differences hvalues, sums_length]

section Serde

variable [Serde]

/-! ## Encoding and decoding -/

/-- `reserved` is the capacity of the buffer after `reserve`, which leaves room for a datagram at
least. -/
def encode (reserved : Nat) (item : Msg) : Result Bytes :=
  let cap := max reserved mtu
  match item with
  | .TransferPayload payload => do
    let len := 1 + Varint.len payload.chunkid + payload.data.length
    Result.assert (len ≤ mtu)
    return 0 :: (Varint.write payload.chunkid ++ payload.data)
  | .TransferStatus status => do
    let values ← differences 0 (bounds status.missingRanges)
    let dst ← putWriter cap (1 :: Varint.writeAll values)
    return dst.take mtu
  | .RootUpdate update => putWriter cap (2 :: Cbor.toWriter update)
  | .RootUpdateResponse res => putWriter cap (3 :: Cbor.toWriter res)
  | .BlockRequest req => putWriter cap (4 :: Cbor.toWriter req)
  | .BlockRequestResponse res => putWriter cap (5 :: Cbor.toWriter res)

def decode : Bytes → Result (Option Msg)
  | [] => return none
  | discriminator :: buf =>
    match discriminator.toNat with
    | 0 =>
      match Varint.read buf with
      | .value chunkid data => return some (.TransferPayload { chunkid, data })
      | _ => .panic
    | 1 => do
      let values ← Varint.readAll buf
      let sums ← scanSums 0 values
      return some (.TransferStatus { missingRanges := pairs sums })
    | 2 => do return some (.RootUpdate (← Result.unwrap (Cbor.fromReader buf)))
    | 3 => do return some (.RootUpdateResponse (← Result.unwrap (Cbor.fromReader buf)))
    | 4 => do return some (.BlockRequest (← Result.unwrap (Cbor.fromReader buf)))
    | 5 => do return some (.BlockRequestResponse (← Result.unwrap (Cbor.fromReader buf)))
    | _ => .panic

/-! ## Messages that come back whole -/

/-- A status can be cut, and a chunk id must fit into 64 bits. -/
def Whole : Msg → Prop
  | .TransferPayload payload => payload.chunkid < u64Size
  | .TransferStatus _ => False
  | _ => True

theorem decode_encode {cap : Nat} {msg : Msg} {d : Bytes} (hmsg : Whole msg)
    (h : encode cap msg = .ok d) : decode d = .ok (some msg) := by
  cases msg with
  | TransferPayload payload =>
    simp only [encode, Result.bind_eq_ok, Result.pure_def, Result.ok.injEq] at h
    obtain ⟨_, _, rfl⟩ := h
    simp [decode, Varint.read_write _ _ hmsg]
  | TransferStatus status => exact hmsg.elim
  | RootUpdate update =>
    obtain ⟨-, rfl⟩ := putWriter_eq_ok.mp h
    simp [decode, Cbor.fromReader_toWriter]
  | RootUpdateResponse res =>
    obtain ⟨-, rfl⟩ := putWriter_eq_ok.mp h
    simp [decode, Cbor.fromReader_toWriter]
  | BlockRequest req =>
    obtain ⟨-, rfl⟩ := putWriter_eq_ok.mp h
    simp [decode, Cbor.fromReader_toWriter]
  | BlockRequestResponse res =>
    obtain ⟨-, rfl⟩ := putWriter_eq_ok.mp h
    simp [decode, Cbor.fromReader_toWriter]

theorem decode_encode_status {cap : Nat} {status : TransferStatus} {d : Bytes} {msg : Option Msg}
    (h : encode cap (.TransferStatus status) = .ok d) (hd : decode d = .ok msg) :
    ∃ status', msg = some (.TransferStatus status') := by
  simp only [encode, Result.bind_eq_ok, Result.pure_def, Result.ok.injEq] at h
  obtain ⟨values, -, dst, hdst, rfl⟩ := h
  obtain ⟨-, rfl⟩ := putWriter_eq_ok.mp hdst
  rw [show mtu = 1459 + 1 from rfl, List.take_succ_cons] at hd
  simp only [decode, UInt8.toNat_one, Result.bind_eq_ok, Result.pure_def, Result.ok.injEq] at hd
  obtain ⟨_, _, _, _, rfl⟩ := hd
  exact ⟨_, rfl⟩

/-! ## A status that is cut -/

/-- The ranges that a datagram has room for. -/
def cut (rs : Ranges) (values : List Nat) : Ranges :=
  rs.take (Varint.wholeWithin (mtu - 1) values / 2)

theorem take_prefix_cut {rs : Ranges} {values : List Nat}
    (hvalues : differences 0 (bounds rs) = .ok values) {n : Nat}
    (h : 1 + Varint.lenAll (values.take (2 * n)) ≤ mtu) : rs.take n <+: cut rs values := by
  have hlen := length_differences hvalues
  have hle : min (2 * n) values.length ≤ Varint.wholeWithin (mtu - 1) values := by
    apply Varint.le_wholeWithin_of_fits _ (Nat.min_le_right _ _)
    rw [← List.take_take, List.take_length]
    omega
  rw [List.take_eq_take_min (l := rs), cut]
  apply List.take_prefix_take_left
  omega

theorem decode_cut {cap : Nat} {rs : Ranges} {values : List Nat} {d : Bytes}
    (hrs : ∀ r ∈ rs, r.1 < u64Size ∧ r.2 < u64Size)
    (hvalues : differences 0 (bounds rs) = .ok values)
    (h : encode cap (.TransferStatus { missingRanges := rs }) = .ok d) :
    decode d = .ok (some (.TransferStatus { missingRanges := cut rs values })) := by
  simp only [encode, hvalues, Result.bind_ok, Result.bind_eq_ok, Result.pure_def, Result.ok.injEq] at h
  obtain ⟨dst, hdst, rfl⟩ := h
  obtain ⟨-, rfl⟩ := putWriter_eq_ok.mp hdst
  have hbounded := bounds_lt hrs
  have h64 := mem_differences hvalues hbounded
  have hsums := sums_differences hvalues
  rw [show mtu = mtu - 1 + 1 from rfl, List.take_succ_cons]
  have hscan : scanSums 0 (values.take (Varint.wholeWithin (mtu - 1) values)) =
      .ok ((bounds rs).take (Varint.wholeWithin (mtu - 1) values)) := by
    rw [scanSums_of_bounded, sums_take, hsums]
    rw [sums_take, hsums]
    exact fun s hs => hbounded s (List.mem_of_mem_take hs)
  simp [decode, Varint.readAll_take_writeAll values _ h64, hscan, pairs_take_bounds, cut]

theorem decode_status {cap : Nat} {rs : Ranges} {d : Bytes} (hrs : ∀ r ∈ rs, r.1 < u64Size ∧ r.2 < u64Size)
    (h : encode cap (.TransferStatus { missingRanges := rs }) = .ok d) :
    ∃ values k, differences 0 (bounds rs) = .ok values ∧
      decode d = .ok (some (.TransferStatus { missingRanges := rs.take k })) ∧
      (1 + Varint.lenAll values ≤ mtu → rs.take k = rs) := by
  obtain ⟨values, hvalues, -⟩ := Result.bind_eq_ok.mp h
  refine ⟨values, _, hvalues, decode_cut hrs hvalues h, ?_⟩
  intro hfits
  have hall : rs.take rs.length <+: cut rs values := by
    apply take_prefix_cut hvalues
    rw [← length_differences hvalues, List.take_length]
    exact hfits
  rw [List.take_length] at hall
  exact (List.take_prefix _ _).eq_of_length_le hall.length_le

end Serde

end MyCodec

end DasProtokoll.Scsync
