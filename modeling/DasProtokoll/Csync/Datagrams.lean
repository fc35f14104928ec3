import DasProtokoll.Lib.Run
import DasProtokoll.Csync.Server

/-!
# Datagrams of any content

A session takes what the network delivers, from whoever sent it. Without its
congestion control, it goes on as long as each datagram that is taken for a chunk
holds an index, and no index is beyond the extension message that ends an upload.
-/

namespace DasProtokoll.Csync

open DasProtokoll BitteEinBit

/-- What one call of `poll` meets: the timer, what the disk takes, and a datagram. -/
structure Poll where
  ready : Bool
  progress : Nat
  datagram : Option Bytes
  deriving Repr, DecidableEq

def chunkIndex (info : ChunkInfo) (datagram : Bytes) : Nat :=
  ofLeBytes ((datagram.take mtu).take info.indexFieldSize)

/-- The datagram holds the index of a chunk or that of the extension message. -/
def Readable (info : ChunkInfo) (datagram : Bytes) : Prop :=
  info.indexFieldSize ≤ (datagram.take mtu).length ∧ chunkIndex info datagram ≤ info.numChunks

instance (info : ChunkInfo) : DecidablePred (Readable info) := fun d => by
  unfold Readable
  infer_instance

namespace WritingChunk

/-- The bytes of the chunk that are still to be written. -/
def rest (w : WritingChunk) : Bytes := (w.chunk.buf.drop w.chunk.indexFieldSize).drop w.pos

end WritingChunk

namespace Receiver

def polled (r : Receiver) (p : Poll) : Result Receiver := r.poll p.ready p.progress p.datagram

/-- The poll gets to the socket and takes the datagram for a chunk: the receiver waits for one, or the
disk takes all that is left of the chunk in work. -/
def Takes (r : Receiver) (progress : Nat) : Prop :=
  match r.state with
  | .WaitForChunk _ => True
  | .WritingChunk w => w.rest.length ≤ progress
  | _ => False

/-- A datagram that is taken for a chunk can be read. -/
def Addressed (info : ChunkInfo) (r : Receiver) (p : Poll) : Prop :=
  ∀ d ∈ p.datagram, r.Takes p.progress → Readable info d

instance (r : Receiver) : DecidablePred r.Takes := fun progress => by
  unfold Takes
  split <;> infer_instance

instance (info : ChunkInfo) (r : Receiver) : DecidablePred (r.Addressed info) := fun p => by
  unfold Addressed
  infer_instance

/-! ## The states of a session -/

/-- What each state of the receiver says, wherever the datagrams come from. -/
def Serving (info : ChunkInfo) : State → Prop
  | .WaitForChunk w => w.chunkInfo = info
  | .WritingChunk w => w.chunkInfo = info ∧ w.chunk.index < info.numChunks ∧
      w.chunk.indexFieldSize ≤ w.chunk.buf.length
  | .Shutdown => True
  | _ => False

structure Sound (info : ChunkInfo) (r : Receiver) : Prop where
  valid : r.bitmap.Valid
  numBits : r.bitmap.numBits = info.numChunks
  state : Serving info r.state

variable {length : Nat} {info : ChunkInfo} {r r' : Receiver}

theorem Sound.new (hinfo : indexFieldSize length = .ok info) {disk : Disk}
    (h : Receiver.new disk length = .ok r) : r.Sound info := by
  obtain ⟨hstate, hvalid, hnum, -⟩ := new_ok hinfo h
  exact ⟨hvalid, hnum, by rw [hstate]; rfl⟩

theorem Sound.pollCongestion (h : r.Sound info) (ready : Bool) : (r.pollCongestion ready).Sound info := by
  obtain ⟨tx, htx⟩ := pollCongestion_eq r ready
  rw [htx]
  exact ⟨h.valid, h.numBits, h.state⟩

theorem takes_pollCongestion (r : Receiver) (ready : Bool) (progress : Nat) :
    (r.pollCongestion ready).Takes progress ↔ r.Takes progress := by
  obtain ⟨tx, htx⟩ := pollCongestion_eq r ready
  rw [htx]
  rfl

/-! ## The writing half of a poll -/

/-- Chunk `i` is received, or it is in work. -/
def Marked (r : Receiver) (i : Nat) : Prop :=
  r.bitmap.bit i = true ∨ ∃ w, r.state = .WritingChunk w ∧ w.chunk.index = i

theorem Sound.pollWrite (h : r.Sound info) (progress : Nat) :
    ∃ done q, r.pollWrite progress = .ok (done, q) ∧ q.Sound info ∧
      ((r.Takes progress ∧ done = true ∧ (∃ w, q.state = .WaitForChunk w) ∧
          ∀ i, q.bitmap.bit i = true ↔ r.Marked i) ∨
        (¬ r.Takes progress ∧ done = false) ∨
        (¬ r.Takes progress ∧ done = true ∧ q.state = .Shutdown)) := by
  have hstate := h.state
  cases hs : r.state with
  | Invalid => simp [hs, Serving] at hstate
  | WaitForAck w => simp [hs, Serving] at hstate
  | WaitForChunk w =>
    refine ⟨true, r, by simp [Receiver.pollWrite, hs], h, Or.inl ⟨?_, rfl, ⟨w, hs⟩, ?_⟩⟩
    · simp [Takes, hs]
    · simp [Marked, hs]
  | Shutdown =>
    refine ⟨true, r, by simp [Receiver.pollWrite, hs], h, Or.inr (Or.inr ⟨?_, rfl, hs⟩)⟩
    simp [Takes, hs]
  | WritingChunk w =>
    simp only [hs, Serving] at hstate
    obtain ⟨hinfo, hi, hlen⟩ := hstate
    have hdata : w.chunk.asRef = .ok (w.chunk.buf.drop w.chunk.indexFieldSize) := by
      rw [Chunk.asRef, Result.assert_of hlen]
      rfl
    have htakes : r.Takes progress ↔ w.rest.length ≤ progress := by simp [Takes, hs]
    unfold Receiver.pollWrite
    simp only [hs, hdata, Result.bind_ok]
    by_cases hlt : progress < w.rest.length
    · refine ⟨false, _, if_pos hlt, ⟨h.valid, h.numBits, hinfo, hi, hlen⟩, Or.inr (Or.inl ⟨?_, rfl⟩)⟩
      rw [htakes]
      omega
    · obtain ⟨m', hset, hvalid, hnum, -, hbit⟩ :=
        BitMap.set_eq true (by rw [h.numBits]; exact hi) h.valid
      simp only [hset, Result.bind_ok, Result.pure_def]
      refine ⟨true, _, if_neg hlt, ⟨hvalid, hnum.trans h.numBits, hinfo⟩,
        Or.inl ⟨?_, rfl, ⟨_, rfl⟩, ?_⟩⟩
      · rw [htakes]
        omega
      · intro i
        simp only [hbit, Marked, hs, State.WritingChunk.injEq, exists_eq_left']
        by_cases hin : w.chunk.index = i
        · simp [hin]
        · simp [hin, Ne.symm hin]

/-! ## The reading half -/

theorem decode_readable {d : Bytes} (g : Geometry length info)
    (hlen : info.indexFieldSize ≤ (d.take mtu).length) :
    Chunk.decode (d.take mtu) info.indexFieldSize = .ok {
      indexFieldSize := info.indexFieldSize, index := chunkIndex info d, buf := d.take mtu } := by
  have hw := g.width_le
  rw [Chunk.decode, Result.assert_of (by omega), Result.assert_of hlen]
  simp only [Result.bind_ok, Result.pure_def, ofLeBytes_append_zeros, chunkIndex]

section Waiting

variable (g : Geometry length info) (h : r.Sound info) {state : Csync.WaitForChunk}
  (hs : r.state = .WaitForChunk state) {d : Bytes}

include g h hs

theorem pollRecv_unreadable (hd : ¬ Readable info d) : r.pollRecv (some d) = .panic := by
  have hstate := h.state
  simp only [hs, Serving] at hstate
  unfold pollRecv
  simp only [hs, hstate]
  by_cases hlen : info.indexFieldSize ≤ (d.take mtu).length
  · have hbeyond : info.numChunks < chunkIndex info d := by
      by_contra hle
      exact hd ⟨hlen, by omega⟩
    have hget : r.bitmap.get (chunkIndex info d) = .panic := by
      rw [BitMap.get, BitMap.check, h.numBits, Result.assert_of_not (by omega)]
      rfl
    rw [decode_readable g hlen, Result.bind_ok, if_neg (by simp only; omega), chunk, hget]
    rfl
  · have hw := g.width_le
    rw [Chunk.decode, Result.assert_of (by omega), Result.assert_of_not hlen]
    rfl

theorem pollRecv_fin (hlen : info.indexFieldSize ≤ (d.take mtu).length)
    (hfin : chunkIndex info d = info.numChunks) :
    r.pollRecv (some d) = .ok { r with
      bitmapExists := r.bitmapExists && !r.bitmap.all
      congestionDone := true
      state := .Shutdown } := by
  have hstate := h.state
  simp only [hs, Serving] at hstate
  unfold pollRecv
  simp only [hs, hstate, decode_readable g hlen, Result.bind_ok, if_pos hfin, Result.pure_def]

theorem pollRecv_known (hlen : info.indexFieldSize ≤ (d.take mtu).length)
    (hlt : chunkIndex info d < info.numChunks) (hbit : r.bitmap.bit (chunkIndex info d) = true) :
    r.pollRecv (some d) = .ok r := by
  have hstate := h.state
  have hnum := h.numBits
  simp only [hs, Serving] at hstate
  unfold pollRecv
  simp only [hs, hstate, decode_readable g hlen, Result.bind_ok]
  rw [if_neg (by omega), chunk, BitMap.get_eq (by rw [hnum]; exact hlt) h.valid.fits, hbit]
  simp only [Result.bind_ok, if_true, Result.pure_def, ← hs]

theorem pollRecv_new (h64 : length < u64Size) (hlen : info.indexFieldSize ≤ (d.take mtu).length)
    (hlt : chunkIndex info d < info.numChunks) (hbit : r.bitmap.bit (chunkIndex info d) = false) :
    r.pollRecv (some d) = .ok { r with
      state := .WritingChunk {
        chunkInfo := info
        file := state.file.seek (chunkIndex info d * info.chunkSize)
        chunk := {
          indexFieldSize := info.indexFieldSize, index := chunkIndex info d, buf := d.take mtu }
        pos := 0 } } := by
  have hstate := h.state
  have hnum := h.numBits
  have hstart := g.start_lt hlt
  simp only [hs, Serving] at hstate
  unfold pollRecv
  simp only [hs, hstate, decode_readable g hlen, Result.bind_ok]
  rw [if_neg (by omega), chunk, BitMap.get_eq (by rw [hnum]; exact hlt) h.valid.fits, hbit]
  simp only [Result.bind_ok, Bool.false_eq_true, if_false, hstate]
  rw [Result.assert_of (by omega)]
  rfl

theorem pollRecv_readable (h64 : length < u64Size) (hd : Readable info d) :
    ∃ r', r.pollRecv (some d) = .ok r' ∧ r'.Sound info := by
  obtain ⟨hlen, hle⟩ := hd
  rcases Nat.lt_or_eq_of_le hle with hlt | hfin
  · cases hbit : r.bitmap.bit (chunkIndex info d) with
    | true => exact ⟨r, pollRecv_known g h hs hlen hlt hbit, h⟩
    | false => exact ⟨_, pollRecv_new g h hs h64 hlen hlt hbit, h.valid, h.numBits, rfl, hlt, hlen⟩
  · exact ⟨_, pollRecv_fin g h hs hlen hfin, h.valid, h.numBits, trivial⟩

end Waiting

/-! ## One poll -/

theorem poll_untaken (h : r.Sound info) {progress : Nat} (ht : ¬ r.Takes progress) (ready : Bool)
    (datagram : Option Bytes) : ∃ r', r.poll ready progress datagram = .ok r' ∧ r'.Sound info ∧
      r.poll ready progress none = .ok r' := by
  obtain ⟨done, q, hq, hsound, hcase⟩ := (h.pollCongestion ready).pollWrite progress
  rw [takes_pollCongestion] at hcase
  rcases hcase with ⟨htakes, -⟩ | ⟨-, rfl⟩ | ⟨-, rfl, hshut⟩
  · exact absurd htakes ht
  · exact ⟨q, by simp [poll, hq], hsound, by simp [poll, hq]⟩
  · exact ⟨q, by simp [poll, hq, pollRecv, hshut], hsound, by simp [poll, hq, pollRecv, hshut]⟩

theorem marked_pollCongestion (r : Receiver) (ready : Bool) (i : Nat) :
    (r.pollCongestion ready).Marked i ↔ r.Marked i := by
  obtain ⟨tx, htx⟩ := pollCongestion_eq r ready
  rw [htx]
  rfl

theorem poll_taken (h : r.Sound info) {progress : Nat} (ht : r.Takes progress) (ready : Bool) :
    ∃ q state, q.Sound info ∧ q.state = .WaitForChunk state ∧
      (∀ i, q.bitmap.bit i = true ↔ r.Marked i) ∧
      r.poll ready progress none = .ok q ∧
      ∀ datagram, r.poll ready progress datagram = q.pollRecv datagram := by
  obtain ⟨done, q, hq, hsound, hcase⟩ := (h.pollCongestion ready).pollWrite progress
  simp only [takes_pollCongestion, marked_pollCongestion] at hcase
  rcases hcase with ⟨-, rfl, ⟨state, hs⟩, hmarked⟩ | ⟨hno, -⟩ | ⟨hno, -⟩
  · refine ⟨q, state, hsound, hs, hmarked, by simp [poll, hq, pollRecv, hs], ?_⟩
    intro datagram
    simp [poll, hq]
  · exact absurd ht hno
  · exact absurd ht hno

theorem Sound.ne_invalid (h : r.Sound info) : r.state ≠ .Invalid := by
  intro hs
  have hstate := h.state
  simp [hs, Serving] at hstate

theorem polled_addressed (g : Geometry length info) (h64 : length < u64Size) (h : r.Sound info)
    {p : Poll} (hd : r.Addressed info p) : ∃ r', r.polled p = .ok r' ∧ r'.Sound info := by
  by_cases ht : r.Takes p.progress
  · obtain ⟨q, state, hsound, hs, -, hnone, hpoll⟩ := poll_taken h ht p.ready
    unfold polled
    cases hdatagram : p.datagram with
    | none => exact ⟨q, hnone, hsound⟩
    | some d =>
      rw [hpoll]
      exact pollRecv_readable g hsound hs h64 (hd d hdatagram ht)
  · obtain ⟨r', hr, hsound, -⟩ := poll_untaken h ht p.ready p.datagram
    exact ⟨r', hr, hsound⟩

theorem polled_not_addressed (g : Geometry length info) (h : r.Sound info) {p : Poll}
    (hd : ¬ r.Addressed info p) : r.polled p = .panic := by
  unfold Addressed at hd
  push Not at hd
  obtain ⟨d, hdatagram, ht, hno⟩ := hd
  obtain ⟨q, state, hsound, hs, -, -, hpoll⟩ := poll_taken h ht p.ready
  rw [polled, hpoll, Option.mem_def.mp hdatagram]
  exact pollRecv_unreadable g hsound hs hno

theorem Sound.polled (g : Geometry length info) (h64 : length < u64Size) (h : r.Sound info) {p : Poll}
    (hr : r.polled p = .ok r') : r'.Sound info := by
  have hd : r.Addressed info p := by
    by_contra hno
    rw [polled_not_addressed g h hno] at hr
    cases hr
  obtain ⟨q, hq, hsound⟩ := polled_addressed g h64 h hd
  rw [hq, Result.ok.injEq] at hr
  exact hr ▸ hsound

end Receiver

end DasProtokoll.Csync
