import DasProtokoll.Csync.StatusUpdate

/-!
# The server

The receiver writes chunks to the stored file and marks them in the bitmap, which
is a file too. The sender takes the bitmap whenever a status update is due.
-/

namespace DasProtokoll.Csync

open DasProtokoll BitteEinBit

/-! ## Files -/

/-- What the folder of one upload holds. -/
structure Disk where
  bitmap : Option Bytes
  file : Option Bytes
  deriving Repr, DecidableEq

/-- An open file. In append mode each write goes to the end, wherever the last seek went. -/
structure FileHandle where
  append : Bool
  pos : Nat
  deriving Repr, DecidableEq

def FileHandle.seek (h : FileHandle) (pos : Nat) : FileHandle := { h with pos }

def FileHandle.write (h : FileHandle) (content bs : Bytes) : Bytes × FileHandle :=
  let pos := if h.append then content.length else h.pos
  (overwrite 0 content pos bs, { h with pos := pos + bs.length })

/-! ## The receiver -/

structure WaitForChunk where
  file : FileHandle
  chunkInfo : ChunkInfo
  deriving Repr, DecidableEq

/-- `pos` bytes of the data are written. -/
structure WritingChunk where
  chunkInfo : ChunkInfo
  file : FileHandle
  chunk : Chunk
  pos : Nat
  deriving Repr, DecidableEq

inductive State where
  | Invalid
  | WaitForAck (state : WaitForChunk)
  | WaitForChunk (state : WaitForChunk)
  | WritingChunk (state : WritingChunk)
  | Shutdown
  deriving Repr, DecidableEq

inductive ChannelMessage where
  | UploadStart
  | UploadStatus
  deriving Repr, DecidableEq

/-- `bitmap` is the mapped bitmap file, which the sender reads too. `bitmapExists` tells whether
that file still has its name, and `file` is the content of the stored file. The times of the
congestion control are left out here, and come before each chunk in a `PacedReceiver`. -/
structure Receiver where
  state : State
  bitmap : BitMap
  bitmapExists : Bool
  file : Bytes
  tx : List ChannelMessage
  congestionDone : Bool
  deriving Repr, DecidableEq

/-- The changes that `upload_request` makes to the bitmap file, in order. -/
def bitmapEffects (continueUpload : Bool) (chunkInfo : ChunkInfo) : List (Disk → Disk) :=
  (fun d => { d with bitmap := some (d.bitmap.getD []) }) ::
    if continueUpload then []
    else [fun d => { d with bitmap := d.bitmap.map (resize 0 · ((chunkInfo.numChunks + 7) / 8)) }]

/-- And the ones it makes to the stored file. -/
def fileEffects (length : Nat) : List (Disk → Disk) :=
  [fun d => { d with file := some (d.file.getD []) },
    fun d => { d with file := d.file.map (resize 0 · length) }]

def runEffects (effects : List (Disk → Disk)) (disk : Disk) : Disk :=
  effects.foldl (fun d f => f d) disk

namespace Receiver

def uploadRequest (disk : Disk) (length : Nat) : Result Receiver := do
  let chunkInfo ← indexFieldSize length
  let continueUpload := disk.bitmap.isSome
  let disk := runEffects (bitmapEffects continueUpload chunkInfo) disk
  -- The map is as long as the bitmap file is, and an empty file cannot be mapped.
  let mmap := disk.bitmap.getD []
  Result.assert (mmap ≠ [])
  let bitmap ← BitMap.withLength mmap chunkInfo.numChunks
  let disk := runEffects (fileEffects length) disk
  return {
    state := .WaitForChunk { file := { append := continueUpload, pos := 0 }, chunkInfo }
    bitmap
    bitmapExists := true
    file := disk.file.getD []
    tx := [.UploadStart]
    congestionDone := false }

/-- The receiver of a session that starts with an upload request. -/
def new (disk : Disk) (length : Nat) : Result Receiver := do
  let r ← uploadRequest disk length
  return { r with tx := r.tx ++ [.UploadStatus] }

/-- What is left on the disk when the session ends. -/
def disk (r : Receiver) : Disk :=
  { bitmap := if r.bitmapExists then some r.bitmap.buf else none, file := some r.file }

def chunk (r : Receiver) (chunk : Chunk) (state : WaitForChunk) : Result Receiver := do
  let received ← r.bitmap.get chunk.index
  if received then
    return { r with state := .WaitForChunk state }
  Result.assert (chunk.index * state.chunkInfo.chunkSize < u64Size)
  let file := state.file.seek (chunk.index * state.chunkInfo.chunkSize)
  return { r with
    state := .WritingChunk { chunkInfo := state.chunkInfo, file, chunk, pos := 0 } }

/-- The periodic status update, when its time has come. -/
def pollCongestion (r : Receiver) (ready : Bool) : Receiver :=
  if ready && !r.congestionDone then { r with tx := r.tx ++ [.UploadStatus] } else r

def isPowerOfTwo (n : Nat) : Bool := n != 0 && 2 ^ n.log2 == n

/-- Writes on, when the disk takes `progress` bytes. `false` means that data is left. -/
def pollWrite (r : Receiver) (progress : Nat) : Result (Bool × Receiver) := do
  match r.state with
  | .WritingChunk state =>
    let data ← state.chunk.asRef
    let rest := data.drop state.pos
    let (content, file) := state.file.write r.file (rest.take progress)
    let r := { r with file := content }
    if progress < rest.length then
      return (false, { r with
        state := .WritingChunk { state with file, pos := state.pos + progress } })
    let (_, bitmap) ← r.bitmap.set state.chunk.index true
    let due := isPowerOfTwo bitmap.zeroes || bitmap.zeroes == 0
    return (true, { r with
      bitmap
      tx := if due then r.tx ++ [.UploadStatus] else r.tx
      state := .WaitForChunk { file, chunkInfo := state.chunkInfo } })
  | _ => return (true, r)

/-- Takes a datagram from the socket, if there is one. -/
def pollRecv (r : Receiver) (datagram : Option Bytes) : Result Receiver := do
  match r.state, datagram with
  | .Invalid, _ => .panic
  | .WritingChunk _, _ => .panic
  | .WaitForAck state, some _ => return { r with state := .WaitForChunk state }
  | .WaitForChunk state, some datagram =>
    let chunk ← Chunk.decode (datagram.take mtu) state.chunkInfo.indexFieldSize
    if chunk.index = state.chunkInfo.numChunks then
      -- The extension message that ends the upload.
      return { r with
        bitmapExists := r.bitmapExists && !r.bitmap.all
        congestionDone := true
        state := .Shutdown }
    else r.chunk chunk state
  | _, _ => return r

def poll (r : Receiver) (ready : Bool) (progress : Nat) (datagram : Option Bytes) :
    Result Receiver := do
  let r := r.pollCongestion ready
  match ← r.pollWrite progress with
  | (false, r) => return r
  | (true, r) => r.pollRecv datagram

end Receiver

/-! ## What an upload request sets up -/

namespace Receiver

theorem new_ok {disk : Disk} {length : Nat} {info : ChunkInfo} {r : Receiver}
    (hinfo : indexFieldSize length = .ok info) (h : new disk length = .ok r) :
    r.state = .WaitForChunk
        { file := { append := disk.bitmap.isSome, pos := 0 }, chunkInfo := info } ∧
      r.bitmap.Valid ∧ r.bitmap.numBits = info.numChunks ∧ r.bitmapExists = true ∧
      r.file = resize 0 (disk.file.getD []) length ∧ r.tx = [.UploadStart, .UploadStatus] ∧
      r.congestionDone = false ∧
      r.bitmap.buf = (runEffects (bitmapEffects disk.bitmap.isSome info) disk).bitmap.getD [] := by
  rw [new, uploadRequest, hinfo] at h
  simp only [Result.bind_ok, Result.bind_eq_ok, Result.pure_def, Result.ok.injEq] at h
  obtain ⟨_, ⟨-, -, bitmap, hbitmap, rfl⟩, rfl⟩ := h
  obtain ⟨hbuf, hnum, hvalid⟩ := BitMap.withLength_ok hbitmap
  refine ⟨rfl, hvalid, hnum, rfl, ?_, rfl, rfl, hbuf⟩
  simp [runEffects, fileEffects, bitmapEffects]
  split <;> rfl

end Receiver

/-! ## What a poll does -/

namespace Receiver

variable {r r' : Receiver}

theorem pollWrite_cases {progress : Nat} {done : Bool}
    (h : r.pollWrite progress = .ok (done, r')) :
    (done = true ∧ r' = r ∧ ∀ w, r.state ≠ .WritingChunk w) ∨
    ∃ w data content handle, r.state = .WritingChunk w ∧ w.chunk.asRef = .ok data ∧
      w.file.write r.file ((data.drop w.pos).take progress) = (content, handle) ∧
      ((done = false ∧ progress < (data.drop w.pos).length ∧ r' = { r with
          file := content
          state := .WritingChunk { w with file := handle, pos := w.pos + progress } }) ∨
        (done = true ∧ (data.drop w.pos).length ≤ progress ∧ ∃ old bitmap tx,
          r.bitmap.set w.chunk.index true = .ok (old, bitmap) ∧ r' = { r with
            file := content
            bitmap
            tx
            state := .WaitForChunk { file := handle, chunkInfo := w.chunkInfo } })) := by
  rw [pollWrite] at h
  cases hs : r.state with
  | WritingChunk w =>
    right
    simp only [hs, Result.bind_eq_ok] at h
    obtain ⟨data, hdata, h⟩ := h
    refine ⟨w, data, _, _, rfl, hdata, rfl, ?_⟩
    split at h
    · rename_i hlt
      simp only [Result.pure_def, Result.ok.injEq, Prod.mk.injEq] at h
      exact Or.inl ⟨h.1.symm, hlt, h.2.symm⟩
    · rename_i hle
      simp only [Result.bind_eq_ok] at h
      obtain ⟨⟨old, bitmap⟩, hset, h⟩ := h
      simp only [Result.pure_def, Result.ok.injEq, Prod.mk.injEq] at h
      exact Or.inr ⟨h.1.symm, by omega, old, bitmap, _, hset, h.2.symm⟩
  | _ =>
    left
    simp only [hs, Result.pure_def, Result.ok.injEq, Prod.mk.injEq] at h
    exact ⟨h.1.symm, h.2.symm, by simp⟩

theorem pollRecv_cases {datagram : Option Bytes} (h : r.pollRecv datagram = .ok r') :
    r' = r ∨
    (∃ w, r.state = .WaitForAck w ∧ r' = { r with state := .WaitForChunk w }) ∨
    ∃ w d c, r.state = .WaitForChunk w ∧ datagram = some d ∧
      Chunk.decode (d.take mtu) w.chunkInfo.indexFieldSize = .ok c ∧
      ((c.index = w.chunkInfo.numChunks ∧ r' = { r with
          bitmapExists := r.bitmapExists && !r.bitmap.all
          congestionDone := true
          state := .Shutdown }) ∨
        (c.index ≠ w.chunkInfo.numChunks ∧ r.bitmap.get c.index = .ok true ∧ r' = r) ∨
        (c.index ≠ w.chunkInfo.numChunks ∧ r.bitmap.get c.index = .ok false ∧ r' = { r with
          state := .WritingChunk {
            chunkInfo := w.chunkInfo
            file := w.file.seek (c.index * w.chunkInfo.chunkSize)
            chunk := c
            pos := 0 } })) := by
  cases hs : r.state with
  | Invalid => simp [pollRecv, hs] at h
  | WritingChunk w => simp [pollRecv, hs] at h
  | Shutdown =>
    simp only [pollRecv, hs, Result.pure_def, Result.ok.injEq] at h
    exact Or.inl h.symm
  | WaitForAck w =>
    cases datagram with
    | none =>
      simp only [pollRecv, hs, Result.pure_def, Result.ok.injEq] at h
      exact Or.inl h.symm
    | some d =>
      simp only [pollRecv, hs, Result.pure_def, Result.ok.injEq] at h
      exact Or.inr (Or.inl ⟨w, rfl, h.symm⟩)
  | WaitForChunk w =>
    cases datagram with
    | none =>
      simp only [pollRecv, hs, Result.pure_def, Result.ok.injEq] at h
      exact Or.inl h.symm
    | some d =>
      simp only [pollRecv, hs, Result.bind_eq_ok] at h
      obtain ⟨c, hc, h⟩ := h
      refine Or.inr (Or.inr ⟨w, d, c, rfl, rfl, hc, ?_⟩)
      split at h
      · rename_i hfin
        simp only [Result.pure_def, Result.ok.injEq] at h
        exact Or.inl ⟨hfin, h.symm⟩
      · rename_i hdata
        obtain ⟨received, hget, h⟩ := Result.bind_eq_ok.mp h
        cases received with
        | true =>
          simp only [if_true, Result.pure_def, Result.ok.injEq] at h
          exact Or.inr (Or.inl ⟨hdata, hget, by rw [← h, ← hs]⟩)
        | false =>
          simp only [Bool.false_eq_true, if_false, Result.bind_eq_ok, Result.pure_def,
            Result.ok.injEq] at h
          obtain ⟨-, -, h⟩ := h
          exact Or.inr (Or.inr ⟨hdata, hget, h.symm⟩)

theorem poll_induct {P : Receiver → Prop} {ready : Bool} {progress : Nat}
    {datagram : Option Bytes} (h : r.poll ready progress datagram = .ok r') (h0 : P r)
    (hcong : ∀ q, P q → P (q.pollCongestion ready))
    (hwrite : ∀ q done q', P q → q.pollWrite progress = .ok (done, q') → P q')
    (hrecv : ∀ q q', P q → q.pollRecv datagram = .ok q' → P q') : P r' := by
  simp only [poll, Result.bind_eq_ok] at h
  obtain ⟨⟨done, q⟩, hq, h⟩ := h
  have hPq := hwrite _ _ _ (hcong r h0) hq
  cases done with
  | false =>
    simp only [Result.pure_def, Result.ok.injEq] at h
    exact h ▸ hPq
  | true => exact hrecv q r' hPq h

theorem pollCongestion_eq (r : Receiver) (ready : Bool) :
    ∃ tx, r.pollCongestion ready = { r with tx } := by
  rw [pollCongestion]
  split
  · exact ⟨_, rfl⟩
  · exact ⟨r.tx, rfl⟩

end Receiver

/-! ## The sender -/

structure Sender where
  vec : Bytes
  bitmap : Bool
  sending : Bool
  deriving Repr, DecidableEq

structure Server where
  receiver : Receiver
  sender : Sender
  deriving Repr, DecidableEq

namespace Server

def new (disk : Disk) (length : Nat) : Result Server := do
  let receiver ← Receiver.new disk length
  return { receiver, sender := { vec := List.replicate mtu 0, bitmap := false, sending := false } }

/-- The sender takes the next message of the channel, unless it is still sending. -/
def startSend [Varint] (s : Server) : Result Server := do
  if s.sender.sending then return s
  match s.receiver.tx with
  | [] => return s
  | .UploadStart :: tx =>
    Result.assert (s.sender.bitmap = false)
    return { receiver := { s.receiver with tx }, sender := { s.sender with bitmap := true } }
  | .UploadStatus :: tx =>
    Result.assert (s.sender.bitmap = true)
    let (size, vec) ← writeRunlengthEncoded s.receiver.bitmap (resize 0 s.sender.vec mtu)
    return {
      receiver := { s.receiver with tx }
      sender := { s.sender with vec := vec.take size, sending := true } }

/-- The socket takes the datagram. -/
def pollComplete (s : Server) : Server × List Bytes :=
  if s.sender.sending then
    ({ s with sender := { s.sender with sending := false } }, [s.sender.vec])
  else (s, [])

end Server

end DasProtokoll.Csync
