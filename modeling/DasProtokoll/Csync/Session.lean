import DasProtokoll.Lib.Run
import DasProtokoll.Csync.Client
import DasProtokoll.Csync.Server

/-!
# One upload session

Client and server with the network between them. The network remembers all
datagrams and delivers any of them at any time, so it can lose, duplicate, delay
and reorder them. The session starts when the login has arrived.
-/

namespace DasProtokoll.Csync

open DasProtokoll BitteEinBit

structure Session where
  client : Client
  server : Server
  toServer : List Bytes
  toClient : List Bytes
  deriving Repr, DecidableEq

inductive Event where
  | clientSent
  | clientRecv (update : Bytes)
  | serverPoll (ready : Bool) (progress : Nat) (datagram : Option Bytes)
  | senderStart
  | senderComplete
  deriving Repr, DecidableEq

namespace Session

def start (file : Bytes) (disk : Disk) : Result Session := do
  let client ← Client.start file
  let server ← Server.new disk file.length
  return { client, server, toServer := [], toClient := [] }

variable [Varint]

def step (s : Session) : Event → Result Session
  | .clientSent => do
    let (client, datagrams) ← s.client.sent
    return { s with client, toServer := datagrams ++ s.toServer }
  | .clientRecv update => do
    let (client, datagrams) ← s.client.recv update
    return { s with client, toServer := datagrams ++ s.toServer }
  | .serverPoll ready progress datagram => do
    let receiver ← s.server.receiver.poll ready progress datagram
    return { s with server := { s.server with receiver } }
  | .senderStart => do
    let server ← s.server.startSend
    return { s with server }
  | .senderComplete =>
    let (server, datagrams) := s.server.pollComplete
    return { s with server, toClient := datagrams ++ s.toClient }

omit [Varint] in
/-- The network delivers only what was sent. -/
def Delivered (s : Session) : Event → Prop
  | .clientRecv update => update ∈ s.toClient
  | .serverPoll _ _ (some datagram) => datagram ∈ s.toServer
  | _ => True

omit [Varint] in
instance (s : Session) : DecidablePred s.Delivered := fun e => by
  unfold Delivered
  split <;> infer_instance

section Delivered

omit [Varint]

variable (s : Session)

@[simp] theorem delivered_clientSent : s.Delivered .clientSent := trivial
@[simp] theorem delivered_senderStart : s.Delivered .senderStart := trivial
@[simp] theorem delivered_senderComplete : s.Delivered .senderComplete := trivial
@[simp] theorem delivered_poll_some (ready : Bool) (progress : Nat) (d : Bytes) :
    s.Delivered (.serverPoll ready progress (some d)) ↔ d ∈ s.toServer := Iff.rfl
@[simp] theorem delivered_clientRecv (update : Bytes) :
    s.Delivered (.clientRecv update) ↔ update ∈ s.toClient := Iff.rfl

end Delivered

/-- A step that panics ends the run. -/
def Step (s : Session) (e : Event) (s' : Session) : Prop := s.Delivered e ∧ s.step e = .ok s'

def tryStep (s : Session) (e : Event) : Result Session := do
  Result.assert (s.Delivered e)
  s.step e

theorem tryStep_of {s : Session} {e : Event} (h : s.Delivered e) : s.tryStep e = s.step e := by
  rw [tryStep, Result.assert_of h]
  rfl

theorem step_of_tryStep {s : Session} {e : Event} {s' : Session} (h : s.tryStep e = .ok s') :
    Step s e s' := by
  obtain ⟨_, hd, h⟩ := Result.bind_eq_ok.mp h
  exact ⟨Result.assert_eq_ok.mp hd, h⟩

end Session

/-! ## What both sides agree on -/

/-- `d` is the datagram of a chunk. -/
def IsData (info : ChunkInfo) (file d : Bytes) : Prop :=
  ∃ i < info.numChunks, d = chunkDatagram info file i

def Full (m : BitMap) : Prop := ∀ i < m.numBits, m.bit i = true

/-- `m` has all the bits that `old` has. -/
def Extends (old m : BitMap) : Prop := ∀ i, old.bit i = true → m.bit i = true

/-- `d` is a status update about an earlier state of the bitmap. -/
def IsStatus [Varint] (m : BitMap) (d : Bytes) : Prop :=
  ∃ old buf written out, old.Valid ∧ old.numBits = m.numBits ∧ Extends old m ∧
    buf.length = mtu ∧ writeRunlengthEncoded old buf = .ok (written, out) ∧ d = out.take written

/-- What each state of the receiver says. A chunk that is being written came from the client. -/
def StateOk (info : ChunkInfo) (file : Bytes) (m : BitMap) : State → Prop
  | .Invalid => False
  | .WaitForAck _ => False
  | .WaitForChunk w => w.chunkInfo = info
  | .WritingChunk w => w.chunkInfo = info ∧ ∃ i < info.numChunks,
      w.chunk = {
        indexFieldSize := info.indexFieldSize, index := i, buf := chunkDatagram info file i }
  | .Shutdown => Full m

/-- What the client knows about its ranges and about the chunk that it is sending. -/
structure ClientInv (info : ChunkInfo) (file : Bytes) (c : Client) : Prop where
  file_eq : c.file = file
  info_eq : c.chunkInfo = info
  missing : ∀ r ∈ c.missing.missing, r.1 < r.2 ∧ r.2 ≤ info.numChunks
  sending : ∀ d, c.state = .sending d → IsData info file d

structure ReceiverInv (info : ChunkInfo) (file : Bytes) (r : Receiver) : Prop where
  valid : r.bitmap.Valid
  numBits : r.bitmap.numBits = info.numChunks
  state : StateOk info file r.bitmap r.state
  /-- The bitmap file is gone only when no chunk is missing. -/
  removed : r.bitmapExists = false → Full r.bitmap

structure SessionInv [Varint] (info : ChunkInfo) (file : Bytes) (s : Session) : Prop where
  client : ClientInv info file s.client
  toServer : ∀ d ∈ s.toServer, IsData info file d ∨
    d = finDatagram info ∧ Full s.server.receiver.bitmap
  finished : s.client.state = .finished → Full s.server.receiver.bitmap
  toClient : ∀ d ∈ s.toClient, IsStatus s.server.receiver.bitmap d
  sender : s.server.sender.sending = true → IsStatus s.server.receiver.bitmap s.server.sender.vec
  receiver : ReceiverInv info file s.server.receiver

theorem Extends.refl (m : BitMap) : Extends m m := fun _ h => h

theorem Extends.trans {a b c : BitMap} (h : Extends a b) (h' : Extends b c) : Extends a c :=
  fun i hi => h' i (h i hi)

theorem Full.extends {m m' : BitMap} (h : Full m) (he : Extends m m')
    (hn : m'.numBits = m.numBits) : Full m' :=
  fun i hi => he i (h i (by omega))

theorem IsStatus.extends [Varint] {m m' : BitMap} {d : Bytes} (h : IsStatus m d)
    (he : Extends m m') (hn : m'.numBits = m.numBits) : IsStatus m' d := by
  obtain ⟨old, buf, written, out, hv, hnum, hext, hrest⟩ := h
  exact ⟨old, buf, written, out, hv, by omega, hext.trans he, hrest⟩

/-! ## The receiver -/

section Receiver

variable {info : ChunkInfo} {file : Bytes} {r r' : Receiver}

theorem Receiver.pollRecv_honest (g : Geometry file.length info) (hr : ReceiverInv info file r)
    {datagram : Option Bytes}
    (hd : ∀ d ∈ datagram, IsData info file d ∨ d = finDatagram info ∧ Full r.bitmap)
    (h : r.pollRecv datagram = .ok r') :
    r' = r ∨
    (∃ w i, r.state = .WaitForChunk w ∧ i < info.numChunks ∧
      r' = { r with state := .WritingChunk {
        chunkInfo := info
        file := w.file.seek (i * info.chunkSize)
        chunk := {
          indexFieldSize := info.indexFieldSize, index := i, buf := chunkDatagram info file i }
        pos := 0 } }) ∨
    (Full r.bitmap ∧ r' = { r with
      bitmapExists := r.bitmapExists && !r.bitmap.all
      congestionDone := true
      state := .Shutdown }) := by
  have hw8 : info.indexFieldSize ≤ 8 := by have := g.width_le; omega
  have hfits := g.index_fits
  have hstate := hr.state
  rcases pollRecv_cases h with rfl | ⟨w, hs, -⟩ | ⟨w, d, c, hs, rfl, hc, hcase⟩
  · exact Or.inl rfl
  · simp [StateOk, hs] at hstate
  simp only [StateOk, hs] at hstate
  rw [hstate] at hc hcase
  rcases hd d rfl with ⟨i, hi, rfl⟩ | ⟨rfl, hfull⟩
  · -- A chunk.
    rw [List.take_of_length_le (chunkDatagram_length_le g hi), chunkDatagram,
      Chunk.decode_wire _ hw8 (by omega), Result.ok.injEq] at hc
    subst hc
    rcases hcase with ⟨hfin, -⟩ | ⟨-, -, rfl⟩ | ⟨-, -, rfl⟩
    · simp only at hfin
      omega
    · exact Or.inl rfl
    · exact Or.inr (Or.inl ⟨w, i, hs, hi, rfl⟩)
  · -- The extension message.
    rw [List.take_of_length_le (finDatagram_length_le g), finDatagram,
      Chunk.decode_wire _ hw8 hfits, Result.ok.injEq] at hc
    subst hc
    rcases hcase with ⟨-, rfl⟩ | ⟨hne, -⟩ | ⟨hne, -⟩
    · exact Or.inr (Or.inr ⟨hfull, rfl⟩)
    · exact absurd rfl hne
    · exact absurd rfl hne

theorem Receiver.pollWrite_inv (hr : ReceiverInv info file r) {progress : Nat} {done : Bool}
    (h : r.pollWrite progress = .ok (done, r')) :
    ReceiverInv info file r' ∧ Extends r.bitmap r'.bitmap ∧
      r'.bitmap.numBits = r.bitmap.numBits := by
  rcases pollWrite_cases h with ⟨-, rfl, -⟩ | ⟨w, data, content, handle, hs, -, -, hcase⟩
  · exact ⟨hr, Extends.refl _, rfl⟩
  have hstate := hr.state
  simp only [StateOk, hs] at hstate
  obtain ⟨hinfo, i, hi, hchunk⟩ := hstate
  rcases hcase with ⟨-, -, rfl⟩ | ⟨-, -, old, bitmap, tx, hset, rfl⟩
  · exact ⟨⟨hr.valid, hr.numBits, ⟨hinfo, i, hi, hchunk⟩, hr.removed⟩, Extends.refl _, rfl⟩
  · have hin : w.chunk.index < r.bitmap.numBits := by rw [hchunk, hr.numBits]; exact hi
    obtain ⟨m', hset', hvalid, hnum, -, hbit⟩ := BitMap.set_eq true hin hr.valid
    rw [hset', Result.ok.injEq, Prod.mk.injEq] at hset
    obtain ⟨-, rfl⟩ := hset
    have hext : Extends r.bitmap m' := by
      intro j hj
      rw [hbit]
      split
      · rfl
      · exact hj
    refine ⟨⟨hvalid, hnum.trans hr.numBits, hinfo, ?_⟩, hext, hnum⟩
    intro hrem
    exact (hr.removed hrem).extends hext hnum

theorem Receiver.pollRecv_inv (g : Geometry file.length info) (hr : ReceiverInv info file r)
    {datagram : Option Bytes}
    (hd : ∀ d ∈ datagram, IsData info file d ∨ d = finDatagram info ∧ Full r.bitmap)
    (h : r.pollRecv datagram = .ok r') : ReceiverInv info file r' ∧ r'.bitmap = r.bitmap := by
  rcases pollRecv_honest g hr hd h with rfl | ⟨w, i, -, hi, rfl⟩ | ⟨hfull, rfl⟩
  · exact ⟨hr, rfl⟩
  · exact ⟨⟨hr.valid, hr.numBits, ⟨rfl, i, hi, rfl⟩, hr.removed⟩, rfl⟩
  · exact ⟨⟨hr.valid, hr.numBits, hfull, fun _ => hfull⟩, rfl⟩

theorem Receiver.poll_inv (g : Geometry file.length info) (hr : ReceiverInv info file r)
    {ready : Bool} {progress : Nat} {datagram : Option Bytes}
    (hd : ∀ d ∈ datagram, IsData info file d ∨ d = finDatagram info ∧ Full r.bitmap)
    (h : r.poll ready progress datagram = .ok r') :
    ReceiverInv info file r' ∧ Extends r.bitmap r'.bitmap ∧
      r'.bitmap.numBits = r.bitmap.numBits := by
  apply poll_induct (P := fun q => ReceiverInv info file q ∧ Extends r.bitmap q.bitmap ∧
    q.bitmap.numBits = r.bitmap.numBits) h ⟨hr, Extends.refl _, rfl⟩
  · rintro q ⟨hq, hext, hnum⟩
    obtain ⟨tx, htx⟩ := pollCongestion_eq q ready
    rw [htx]
    exact ⟨⟨hq.valid, hq.numBits, hq.state, hq.removed⟩, hext, hnum⟩
  · rintro q done q' ⟨hq, hext, hnum⟩ hw
    obtain ⟨hq', hext', hnum'⟩ := pollWrite_inv hq hw
    exact ⟨hq', hext.trans hext', hnum'.trans hnum⟩
  · rintro q q' ⟨hq, hext, hnum⟩ hrecv
    have hd' : ∀ d ∈ datagram, IsData info file d ∨ d = finDatagram info ∧ Full q.bitmap := by
      intro d hmem
      rcases hd d hmem with hdata | ⟨hfin, hfull⟩
      · exact Or.inl hdata
      · exact Or.inr ⟨hfin, hfull.extends hext hnum⟩
    obtain ⟨hq', hbit⟩ := pollRecv_inv g hq hd' hrecv
    rw [hbit]
    exact ⟨hq', hext, hnum⟩

end Receiver

/-! ## The sender -/

theorem Server.startSend_cases [Varint] {s s' : Server} (hm : s.receiver.bitmap.Valid)
    (h : s.startSend = .ok s') :
    ∃ tx, s'.receiver = { s.receiver with tx } ∧
      (s'.sender.sending = true → s.sender.sending = true ∧ s'.sender.vec = s.sender.vec ∨
        IsStatus s.receiver.bitmap s'.sender.vec) := by
  rw [startSend] at h
  split at h
  · simp only [Result.pure_def, Result.ok.injEq] at h
    subst h
    exact ⟨_, rfl, fun hs => Or.inl ⟨hs, rfl⟩⟩
  split at h
  · simp only [Result.pure_def, Result.ok.injEq] at h
    subst h
    exact ⟨_, rfl, fun hs => Or.inl ⟨hs, rfl⟩⟩
  · simp only [Result.bind_eq_ok, Result.pure_def, Result.ok.injEq] at h
    obtain ⟨-, -, rfl⟩ := h
    exact ⟨_, rfl, fun hs => Or.inl ⟨hs, rfl⟩⟩
  · simp only [Result.bind_eq_ok, Result.pure_def, Result.ok.injEq] at h
    obtain ⟨-, -, ⟨written, out⟩, hw, rfl⟩ := h
    exact ⟨_, rfl, fun _ => Or.inr ⟨_, _, written, out, hm, rfl, Extends.refl _,
      resize_length _ _ _, hw, rfl⟩⟩

/-! ## The client -/

section Client

variable {info : ChunkInfo} {file : Bytes} {c c' : Client}

theorem numChunks_lt_u64 (g : Geometry file.length info) : info.numChunks < u64Size := by
  have h1 := g.index_fits
  have h2 : 256 ^ info.indexFieldSize ≤ 256 ^ 7 := Nat.pow_le_pow_right (by omega) g.width_le
  have h3 : 256 ^ 7 < u64Size := by decide
  omega

theorem Client.next_inv (g : Geometry file.length info) (h64 : file.length < u64Size)
    (hc : ClientInv info file c) (h : c.next = .ok c') :
    ClientInv info file c' ∧ c'.state ≠ .finished := by
  rw [next, hc.info_eq, hc.file_eq] at h
  cases hf : Ranges.firstFrom c.missing.missing c.missing.cursor with
  | none =>
    rw [doChunk_none (MissingRanges.nextChunk_none hf)] at h
    simp only [Result.bind_ok, Result.pure_def, Result.ok.injEq] at h
    subst h
    exact ⟨⟨rfl, rfl, hc.missing, by simp⟩, by simp⟩
  | some i =>
    obtain ⟨pre, r, post, hr, -, hlt, rfl⟩ := Ranges.firstFrom_eq_some hf
    have hrange := hc.missing r (by rw [hr]; simp)
    have hi : max c.missing.cursor r.1 < info.numChunks := by omega
    have hn := numChunks_lt_u64 g
    rw [doChunk_some g h64 (MissingRanges.nextChunk_some hf (by omega)) hi] at h
    simp only [Result.bind_ok, Result.pure_def, Result.ok.injEq] at h
    subst h
    refine ⟨⟨rfl, rfl, hc.missing, ?_⟩, by simp⟩
    rintro d ⟨⟩
    exact ⟨_, hi, rfl⟩

theorem Client.sent_inv (g : Geometry file.length info) (h64 : file.length < u64Size)
    (hc : ClientInv info file c) {ds : List Bytes} (h : c.sent = .ok (c', ds)) :
    ClientInv info file c' ∧ (∀ d ∈ ds, IsData info file d) ∧
      (c'.state = .finished → c.state = .finished) := by
  rw [sent] at h
  cases hs : c.state with
  | sending d =>
    simp only [hs, Result.bind_eq_ok, Result.pure_def, Result.ok.injEq, Prod.mk.injEq] at h
    obtain ⟨q, hq, rfl, rfl⟩ := h
    obtain ⟨hinv, hnf⟩ := next_inv g h64 hc hq
    refine ⟨hinv, ?_, fun hf => absurd hf hnf⟩
    intro d' hd'
    rw [List.mem_singleton] at hd'
    exact hd' ▸ hc.sending d hs
  | _ =>
    simp only [hs, Result.pure_def, Result.ok.injEq, Prod.mk.injEq] at h
    obtain ⟨rfl, rfl⟩ := h
    exact ⟨hc, by simp, fun hf => hs ▸ hf⟩

variable [Varint]

theorem IsStatus.parse {m : BitMap} {d : Bytes} (h64 : m.numBits < u64Size) (h : IsStatus m d) :
    ∃ full missing, MissingRanges.parseStatusUpdate (d.take mtu) = .ok (full, missing) ∧
      (full = true → Full m) ∧ ∀ r ∈ missing.missing, r.1 < r.2 ∧ r.2 ≤ m.numBits := by
  obtain ⟨old, buf, written, out, hvalid, hnum, hext, hbuf, hwrite, rfl⟩ := h
  have hlen := written_status_length hvalid.fits (by omega) hwrite
  have hparse := parse_sent_status hvalid.fits (by omega) hwrite
  rw [hbuf] at hparse
  refine ⟨_, _, by rw [List.take_of_length_le (by omega)]; exact hparse, ?_, ?_⟩
  · intro hfull i hi
    exact hext i (rangesOf_isEmpty.mp hfull i (by omega))
  · intro r hr
    have hne := (rangesOf_ascending mtu old.toBools).nonempty r hr
    refine ⟨hne, ?_⟩
    have hmem : r.2 - 1 ∈ Ranges.members (rangesOf mtu old.toBools).missing :=
      Ranges.mem_members.mpr ⟨r, hr, by omega, by omega⟩
    have := (mem_rangesOf.mp hmem).1
    have hsum := sentRuns_sum_le mtu old.toBools
    rw [BitMap.toBools_length] at hsum
    omega

theorem Client.recv_inv (g : Geometry file.length info) (h64 : file.length < u64Size)
    (hc : ClientInv info file c) {m : BitMap} (hm : m.numBits = info.numChunks) {update : Bytes}
    (hu : IsStatus m update) {ds : List Bytes} (h : c.recv update = .ok (c', ds)) :
    ClientInv info file c' ∧ (∀ d ∈ ds, d = finDatagram info ∧ Full m) ∧
      (c'.state = .finished → c.state = .finished ∨ Full m) := by
  have hn := numChunks_lt_u64 g
  obtain ⟨full, missing, hparse, hfull, hmiss⟩ := hu.parse (by omega)
  rw [hm] at hmiss
  by_cases hfin : c.state = .finished
  · simp only [recv, hfin, Result.pure_def, Result.ok.injEq, Prod.mk.injEq] at h
    obtain ⟨rfl, rfl⟩ := h
    exact ⟨hc, by simp, fun _ => Or.inl hfin⟩
  have hnew : ClientInv info file { c with missing } :=
    ⟨hc.file_eq, hc.info_eq, hmiss, hc.sending⟩
  obtain ⟨fin, hnewfin, hbuf⟩ := Chunk.new_empty info.numChunks g.width_pos
    (by have := g.width_le; omega)
  cases full with
  | true =>
    have hrecv : c.recv update =
        .ok ({ c with missing, state := .finished }, [finDatagram info]) := by
      rw [recv]
      cases hs : c.state with
      | finished => exact absurd hs hfin
      | _ =>
        simp only [hparse, Result.bind_ok, hc.info_eq, hnewfin, hbuf, Result.pure_def, finDatagram,
          if_true]
    rw [hrecv, Result.ok.injEq, Prod.mk.injEq] at h
    obtain ⟨rfl, rfl⟩ := h
    refine ⟨⟨hc.file_eq, hc.info_eq, hmiss, by simp⟩, ?_, fun _ => Or.inr (hfull rfl)⟩
    intro d hd
    exact ⟨List.mem_singleton.mp hd, hfull rfl⟩
  | false =>
    unfold recv at h
    cases hs : c.state with
    | finished => exact absurd hs hfin
    | sending d =>
      simp only [hs, hparse, Result.bind_ok, Bool.false_eq_true, if_false, Result.pure_def,
        Result.ok.injEq, Prod.mk.injEq] at h
      obtain ⟨rfl, rfl⟩ := h
      refine ⟨⟨hc.file_eq, hc.info_eq, hmiss, ?_⟩, by simp, fun hf => by simp at hf⟩
      intro d' hd'
      exact hc.sending d' (hs.trans hd')
    | waiting =>
      simp only [hs, hparse, Result.bind_ok, Bool.false_eq_true, if_false, Result.bind_eq_ok,
        Result.pure_def, Result.ok.injEq, Prod.mk.injEq] at h
      obtain ⟨q, hq, rfl, rfl⟩ := h
      obtain ⟨hinv, hnf⟩ := next_inv g h64 hnew hq
      exact ⟨hinv, by simp, fun hf => absurd hf hnf⟩

end Client

/-! ## Runs -/

section Runs

variable [Varint] {info : ChunkInfo} {file : Bytes} {disk : Disk} {s s' : Session}

theorem start_inv (g : Geometry file.length info) (h64 : file.length < u64Size)
    (hinfo : indexFieldSize file.length = .ok info)
    (h : Session.start file disk = .ok s) : SessionInv info file s := by
  simp only [Session.start, Client.start, Server.new, hinfo, Result.bind_ok, Result.bind_eq_ok,
    Result.pure_def, Result.ok.injEq] at h
  obtain ⟨client, hclient, _, ⟨receiver, hreceiver, rfl⟩, rfl⟩ := h
  have hc0 : ClientInv info file
      { file, chunkInfo := info, missing := .default, state := .waiting } :=
    ⟨rfl, rfl, by simp [MissingRanges.default], by simp⟩
  obtain ⟨hclientInv, hnf⟩ := Client.next_inv g h64 hc0 hclient
  obtain ⟨hstate, hvalid, hnum, hexists, -⟩ := Receiver.new_ok hinfo hreceiver
  refine ⟨hclientInv, by simp, fun hf => absurd hf hnf, by simp, by simp,
    ⟨hvalid, hnum, ?_, ?_⟩⟩
  · rw [hstate]
    rfl
  · intro hrem
    rw [hexists] at hrem
    cases hrem

theorem SessionInv.delivered (hs : SessionInv info file s) {ready : Bool} {progress : Nat}
    {datagram : Option Bytes} (hd : s.Delivered (.serverPoll ready progress datagram)) :
    ∀ d ∈ datagram, IsData info file d ∨ d = finDatagram info ∧ Full s.server.receiver.bitmap := by
  rintro d hmem
  cases datagram with
  | none => cases hmem
  | some d' =>
    cases hmem
    exact hs.toServer d hd

theorem SessionInv.step (g : Geometry file.length info) (h64 : file.length < u64Size)
    (hs : SessionInv info file s) {e : Event} (h : Session.Step s e s') :
    SessionInv info file s' := by
  obtain ⟨hd, hstep⟩ := h
  cases e with
  | clientSent =>
    simp only [Session.step, Result.bind_eq_ok, Result.pure_def, Result.ok.injEq] at hstep
    obtain ⟨⟨client, ds⟩, hsent, rfl⟩ := hstep
    obtain ⟨hc, hds, hfin⟩ := Client.sent_inv g h64 hs.client hsent
    refine ⟨hc, ?_, fun hf => hs.finished (hfin hf), hs.toClient, hs.sender, hs.receiver⟩
    intro d hmem
    rcases List.mem_append.mp hmem with hnew | hold
    · exact Or.inl (hds d hnew)
    · exact hs.toServer d hold
  | clientRecv update =>
    simp only [Session.step, Result.bind_eq_ok, Result.pure_def, Result.ok.injEq] at hstep
    obtain ⟨⟨client, ds⟩, hrecv, rfl⟩ := hstep
    obtain ⟨hc, hds, hfin⟩ := Client.recv_inv g h64 hs.client hs.receiver.numBits
      (hs.toClient update hd) hrecv
    refine ⟨hc, ?_, fun hf => (hfin hf).elim hs.finished id, hs.toClient, hs.sender, hs.receiver⟩
    intro d hmem
    rcases List.mem_append.mp hmem with hnew | hold
    · exact Or.inr (hds d hnew)
    · exact hs.toServer d hold
  | serverPoll ready progress datagram =>
    simp only [Session.step, Result.bind_eq_ok, Result.pure_def, Result.ok.injEq] at hstep
    obtain ⟨receiver, hpoll, rfl⟩ := hstep
    obtain ⟨hr, hext, hnum⟩ := Receiver.poll_inv g hs.receiver (hs.delivered hd) hpoll
    refine ⟨hs.client, ?_, fun hf => (hs.finished hf).extends hext hnum,
      fun d hmem => (hs.toClient d hmem).extends hext hnum,
      fun hsend => (hs.sender hsend).extends hext hnum, hr⟩
    intro d hmem
    rcases hs.toServer d hmem with hdata | ⟨hfin, hfull⟩
    · exact Or.inl hdata
    · exact Or.inr ⟨hfin, hfull.extends hext hnum⟩
  | senderStart =>
    simp only [Session.step, Result.bind_eq_ok, Result.pure_def, Result.ok.injEq] at hstep
    obtain ⟨server, hserver, rfl⟩ := hstep
    obtain ⟨tx, hrecv, hsender⟩ := Server.startSend_cases hs.receiver.valid hserver
    refine ⟨hs.client, ?_, ?_, ?_, ?_, ?_⟩ <;> rw [hrecv]
    · exact hs.toServer
    · exact hs.finished
    · exact hs.toClient
    · exact fun hsend => (hsender hsend).elim (fun h => h.2 ▸ hs.sender h.1) id
    · exact ⟨hs.receiver.valid, hs.receiver.numBits, hs.receiver.state, hs.receiver.removed⟩
  | senderComplete =>
    simp only [Session.step, Server.pollComplete, Result.pure_def, Result.ok.injEq] at hstep
    subst hstep
    by_cases hsend : s.server.sender.sending = true
    · simp only [if_pos hsend]
      refine ⟨hs.client, hs.toServer, hs.finished, ?_, by simp, hs.receiver⟩
      intro d hmem
      rcases List.mem_append.mp hmem with hnew | hold
      · rw [List.mem_singleton.mp hnew]
        exact hs.sender hsend
      · exact hs.toClient d hold
    · simp only [if_neg hsend, List.nil_append]
      exact hs

theorem session_inv {s₀ : Session} (h64 : file.length < u64Size)
    (h0 : Session.start file disk = .ok s₀) (hr : Reachable Session.Step s₀ s) :
    ∃ info, indexFieldSize file.length = .ok info ∧ Geometry file.length info ∧
      SessionInv info file s := by
  obtain ⟨info, hinfo, g⟩ := indexFieldSize_spec h64
  exact ⟨info, hinfo, g,
    hr.invariant (start_inv g h64 hinfo h0) fun _ _ _ hs hstep => hs.step g h64 hstep⟩

end Runs

end DasProtokoll.Csync
