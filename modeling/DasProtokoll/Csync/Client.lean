import DasProtokoll.Csync.StatusUpdate

/-!
# The client

The client sends one chunk after the other, as fast as the socket takes them,
until it runs out of missing chunks. Each status update resets its ranges.
-/

namespace DasProtokoll.Csync

open DasProtokoll

/-- What the loop of `client_once` waits for. -/
inductive ClientState where
  /-- A chunk is on its way into the socket, or a status update. -/
  | sending (datagram : Bytes)
  /-- A status update only. -/
  | waiting
  /-- The loop was left, and the extension message was sent. -/
  | finished
  deriving Repr, DecidableEq

structure Client where
  file : Bytes
  chunkInfo : ChunkInfo
  missing : MissingRanges
  state : ClientState
  deriving Repr, DecidableEq

/-- The next chunk to send, if any, with its data read from the file. -/
def doChunk (chunkInfo : ChunkInfo) (file : Bytes) (missing : MissingRanges) :
    Result (Option Bytes × MissingRanges) := do
  match ← missing.nextChunk with
  | (none, missing) => return (none, missing)
  | (some chunkCursor, missing) =>
    Result.assert (0 < chunkInfo.numChunks)
    let payload :=
      if chunkCursor = chunkInfo.numChunks - 1 then chunkInfo.lastChunkSize
      else chunkInfo.chunkSize
    let chunk ← Chunk.new chunkCursor chunkInfo.indexFieldSize payload
    Result.assert (chunkCursor * chunkInfo.chunkSize < u64Size)
    let data := slice file (chunkCursor * chunkInfo.chunkSize) payload
    -- A short read is an error, and `client_once` unwraps the result.
    Result.assert (data.length = payload)
    return (some (chunk.readExact data).buf, missing)

namespace Client

def next (c : Client) : Result Client := do
  match ← doChunk c.chunkInfo c.file c.missing with
  | (some datagram, missing) => return { c with missing, state := .sending datagram }
  | (none, missing) => return { c with missing, state := .waiting }

/-- The client after it sent its login. -/
def start (file : Bytes) : Result Client := do
  let chunkInfo ← indexFieldSize file.length
  next { file, chunkInfo, missing := .default, state := .waiting }

def sent (c : Client) : Result (Client × List Bytes) := do
  match c.state with
  | .sending datagram =>
    let c ← c.next
    return (c, [datagram])
  | _ => return (c, [])

def recv [Varint] (c : Client) (update : Bytes) : Result (Client × List Bytes) := do
  match c.state with
  | .finished => return (c, [])
  | state =>
    let (full, missing) ← MissingRanges.parseStatusUpdate (update.take mtu)
    let c := { c with missing }
    if full then
      let chunk ← Chunk.new c.chunkInfo.numChunks c.chunkInfo.indexFieldSize 0
      return ({ c with state := .finished }, [chunk.buf])
    else
      match state with
      | .sending _ => return (c, [])
      | _ =>
        let c ← c.next
        return (c, [])

end Client

/-! ## What the client sends -/

/-- The size that the client gives to the data of chunk `i`. -/
def payloadSize (info : ChunkInfo) (i : Nat) : Nat :=
  if i = info.numChunks - 1 then info.lastChunkSize else info.chunkSize

def payload (info : ChunkInfo) (file : Bytes) (i : Nat) : Bytes :=
  slice file (i * info.chunkSize) (payloadSize info i)

def chunkDatagram (info : ChunkInfo) (file : Bytes) (i : Nat) : Bytes :=
  Chunk.wire info.indexFieldSize i (payload info file i)

def finDatagram (info : ChunkInfo) : Bytes := Chunk.wire info.indexFieldSize info.numChunks []

section Payload

variable {file : Bytes} {info : ChunkInfo}

theorem payloadSize_le (g : Geometry file.length info) (i : Nat) :
    payloadSize info i ≤ info.chunkSize := by
  rw [payloadSize]
  split
  · rw [g.lastChunkSize_eq]
    exact le_of_lt (Nat.mod_lt _ g.chunkSize_pos)
  · exact le_refl _

theorem payload_fits (g : Geometry file.length info) {i : Nat} (hi : i < info.numChunks) :
    i * info.chunkSize + payloadSize info i ≤ file.length := by
  rw [payloadSize]
  split
  · rename_i hlast
    by_cases hz : file.length % info.chunkSize = 0
    · have := g.start_lt hi
      rw [g.lastChunkSize_eq, hz]
      omega
    · rw [hlast]
      exact le_of_eq (g.last_remainder hz)
  · have := g.before_last (i := i) (by omega)
    rw [Nat.add_mul] at this
    omega

theorem payload_length (g : Geometry file.length info) {i : Nat} (hi : i < info.numChunks) :
    (payload info file i).length = payloadSize info i := by
  have := payload_fits g hi
  rw [payload, slice_length]
  omega

theorem chunkDatagram_length_le (g : Geometry file.length info) {i : Nat}
    (hi : i < info.numChunks) : (chunkDatagram info file i).length ≤ mtu := by
  have h1 := payloadSize_le g i
  have h2 := g.chunkSize_eq
  have h3 := g.width_le
  rw [chunkDatagram, Chunk.wire_length, payload_length g hi]
  rw [mtu] at *
  omega

theorem finDatagram_length_le (g : Geometry file.length info) : (finDatagram info).length ≤ mtu := by
  have := g.width_le
  rw [finDatagram, Chunk.wire_length, mtu]
  simp
  omega

theorem doChunk_some (g : Geometry file.length info) (h64 : file.length < u64Size)
    {missing missing' : MissingRanges} {i : Nat} (hn : missing.nextChunk = .ok (some i, missing'))
    (hi : i < info.numChunks) :
    doChunk info file missing = .ok (some (chunkDatagram info file i), missing') := by
  obtain ⟨c, hc, -, -, hbuf⟩ := Chunk.new_readExact (w := info.indexFieldSize) i
    (payload info file i) g.width_pos (by have := g.width_le; omega)
  rw [payload_length g hi] at hc
  have hstart := g.start_lt hi
  have hlen := payload_length g hi
  rw [payload, payloadSize] at hlen
  rw [payloadSize] at hc
  rw [doChunk, hn, Result.bind_ok]
  simp only
  rw [Result.assert_of (by omega), Result.bind_ok, hc, Result.bind_ok,
    Result.assert_of (by omega), Result.bind_ok, Result.assert_of hlen, Result.bind_ok,
    Result.pure_def]
  rw [chunkDatagram, ← hbuf, payload, payloadSize]

theorem doChunk_none {missing missing' : MissingRanges}
    (hn : missing.nextChunk = .ok (none, missing')) :
    doChunk info file missing = .ok (none, missing') := by
  rw [doChunk, hn]
  rfl

end Payload

end DasProtokoll.Csync
