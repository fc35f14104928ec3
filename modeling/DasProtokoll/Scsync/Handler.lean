import DasProtokoll.Lib.Overwrite
import DasProtokoll.Scsync.Codec
import DasProtokoll.Scsync.Visitor
import Mathlib.Data.List.AList

/-!
# The handler

What a node does with each message and in each round of the loops that it starts.
A function returns the messages that it sends. Random numbers, the time and a
bound on the depth of trees are arguments. The disk, the tokens that wait for the
status loops and the transfer loops that are alive are part of the state.
-/

namespace DasProtokoll.Scsync

open DasProtokoll

def chunkSize : Nat := 1450

inductive IpAddr where
  | V4 (octets : Vector UInt8 4)
  | V6 (octets : Vector UInt8 16)
  deriving Repr, DecidableEq

structure SocketAddr where
  ip : IpAddr
  port : UInt16
  deriving Repr, DecidableEq

/-- Each transfer is the first chunk id, the one behind the last, and the block. -/
structure TransferOut where
  todo : Ranges
  cursor : Option Nat
  transfers : List (Nat × Nat × BlockId)
  transferCursor : Nat
  deriving Repr, DecidableEq

def TransferOut.default (rand : UInt32) : TransferOut :=
  { todo := [], cursor := none, transfers := [], transferCursor := rand.toNat }

/-- The chunk ids from `start` up to, not including, `stop` are assigned to the block. -/
structure Transfer where
  blockid : BlockId
  start : Nat
  stop : Nat
  deriving Repr, DecidableEq

/-- `statusTx` says whether there is a status loop that can be woken. -/
structure TransferIn where
  transfers : List Transfer
  statusTx : Bool
  deriving Repr, DecidableEq

def TransferIn.default : TransferIn := { transfers := [], statusTx := false }

def TransferIn.transfer (tin : TransferIn) (chunkid : Nat) : Result Transfer :=
  Result.unwrap (tin.transfers.find? fun t => t.start ≤ chunkid ∧ chunkid < t.stop)

structure Client where
  pendingBlockRequests : Finset BlockId
  transferOut : TransferOut
  transferIn : TransferIn
  deriving DecidableEq

def Client.default (rand : UInt32) : Client :=
  { pendingBlockRequests := ∅, transferOut := .default rand, transferIn := .default }

/-- From here on the request is sent again and again. A task that already does so for this block ends. -/
def Client.sendBlockRequest (client : Client) (req : BlockRequest) : Client :=
  { client with pendingBlockRequests := insert req.blockid client.pendingBlockRequests }

structure Handler where
  folder : PathBuf
  fs : FileSystem
  blockdb : BlockDb
  clients : AList fun _ : SocketAddr => Client
  packetDelay : Nat
  statusTokens : List SocketAddr
  /-- The client of each loop and when its delay is over. -/
  transferLoops : List (SocketAddr × Nat)

abbrev Sent := List (Msg × SocketAddr)

namespace Handler

def new (folder : PathBuf) (packetDelay : Nat) (blockdb : BlockDb) (fs : FileSystem) : Handler :=
  { folder, fs, blockdb, clients := ∅, packetDelay, statusTokens := [], transferLoops := [] }

def client (h : Handler) (addr : SocketAddr) : Result Client := Result.unwrap (h.clients.lookup addr)

/-- Writes through the reference that `get_mut` returns. -/
def setClient (h : Handler) (addr : SocketAddr) (client : Client) : Handler :=
  { h with clients := h.clients.insert addr client }

def connect (h : Handler) (srv : SocketAddr) (rand : UInt32) (nonce : Vector UInt8 12) :
    Handler × Sent :=
  (h.setClient srv (.default rand),
    [(.RootUpdate {
      fromBlockid := Vector.replicate 32 0
      toBlockref := h.blockdb.root
      nonce }, srv)])

def unconnectedRootUpdate (h : Handler) (addr : SocketAddr) (update : RootUpdate) (rand : UInt32) :
    Handler × Sent :=
  if update.toBlockref.blockid = h.blockdb.root.blockid then
    let blockid := h.blockdb.root.blockid
    (h, [(.RootUpdateResponse {
      fromBlockid := blockid
      toBlockid := blockid
      toKey := h.blockdb.root.key }, addr)])
  else if h.blockdb.pendingRoot.isSome then
    -- Ignored until the pending root is done.
    (h, [])
  else
    let blockid := update.toBlockref.blockid
    let h := { h with blockdb := h.blockdb.setPendingRoot update.toBlockref }
    (h.setClient addr ((Client.default rand).sendBlockRequest { blockid }), [])

def needsUpdate (h : Handler) (res : RootUpdateResponse) : Bool :=
  h.blockdb.root.blockid != res.toBlockid

def rootUpdateResponse (h : Handler) (addr : SocketAddr) (res : RootUpdateResponse) :
    Result Handler := do
  let client ← h.client addr
  return h.setClient addr (client.sendBlockRequest { blockid := res.toBlockid })

/-- One round of `request_retry`, which goes on while the request is pending. -/
def requestRetry (h : Handler) (addr : SocketAddr) (blockid : BlockId) : Result (Handler × Sent) := do
  let client ← h.client addr
  Result.assert (blockid ∈ client.pendingBlockRequests)
  return (h, [(.BlockRequest { blockid }, addr)])

/-! ## Serving blocks -/

/-- The transfer of the block, allocated if there is none. -/
def allocate (out : TransferOut) (blockdb : BlockDb) (blockid : BlockId) :
    Result ((Nat × Nat × BlockId) × TransferOut) :=
  match out.transfers.find? fun t => t.2.2 = blockid with
  | some transfer => return (transfer, out)
  | none => do
    let id := out.transferCursor
    let block ← blockdb.get blockid
    Result.assert (id + block.len < u64Size)
    let transfer := (id, id + block.len, blockid)
    return (transfer, { out with
      transferCursor := id + block.len
      transfers := out.transfers ++ [transfer] })

def blockRequest (h : Handler) (addr : SocketAddr) (req : BlockRequest) : Result (Handler × Sent) := do
  let client ← h.client addr
  let (transfer, out) ← allocate client.transferOut h.blockdb req.blockid
  let block ← h.blockdb.get req.blockid
  return (h.setClient addr { client with transferOut := out },
    [(.BlockRequestResponse {
      blockid := req.blockid
      startId := .ofNat transfer.1
      endId := .ofNat transfer.2.1
      len := .ofNat block.len }, addr)])

def transferStatus (h : Handler) (now : Nat) (addr : SocketAddr) (status : TransferStatus) :
    Result Handler := do
  let client ← h.client addr
  let newCursor := status.missingRanges.head?.map fun x => x.1
  -- A client that was idle before has no loop, says the source.
  let launchTransfer := client.transferOut.cursor.isNone && newCursor.isSome
  let h := h.setClient addr { client with
    transferOut := { client.transferOut with cursor := newCursor, todo := status.missingRanges } }
  return { h with
    transferLoops := if launchTransfer then h.transferLoops ++ [(addr, now)] else h.transferLoops }

/-- The chunk at the cursor, which moves on, or nothing when the transfer is idle. -/
def nextPayload (h : Handler) (addr : SocketAddr) : Result (Option TransferPayload × Handler) := do
  let client ← h.client addr
  let out := client.transferOut
  match out.cursor with
  | none => return (none, h)
  | some cursor =>
    match out.transfers.find? fun t => t.1 ≤ cursor ∧ cursor < t.2.1 with
    | none => .panic
    | some (from_, _, bid) => do
      let cib := cursor - from_
      let full ← h.blockdb.getFull bid
      Result.assert (cib * chunkSize < u64Size)
      let data := (full.data.drop (cib * chunkSize)).take chunkSize
      let next := cursor + 1
      return (some { chunkid := cursor, data }, h.setClient addr { client with
        transferOut := { out with cursor := Ranges.firstFrom out.todo next } })

/-- One round of the transfer loop `i`. The next one is after the delay. -/
def transferLoop (h : Handler) (now i : Nat) : Result (Handler × Sent) := do
  let (addr, wake) ← Result.unwrap h.transferLoops[i]?
  Result.assert (wake ≤ now)
  match ← h.nextPayload addr with
  | (some payload, h) =>
    return ({ h with transferLoops := h.transferLoops.set i (addr, now + h.packetDelay) },
      [(.TransferPayload payload, addr)])
  | (none, h) => return ({ h with transferLoops := h.transferLoops.eraseIdx i }, [])

/-! ## Receiving blocks -/

def blockRequestResponse (h : Handler) (addr : SocketAddr) (res : BlockRequestResponse) :
    Result Handler := do
  let client ← h.client addr
  let len := res.len.toNat
  -- A vector has at most `isize::MAX` bytes; the count of chunks then does not overflow.
  Result.assert (len < 2 ^ 63)
  let transfers := client.transferIn.transfers ++
    [{ blockid := res.blockid, start := res.startId.toNat, stop := res.endId.toNat }]
  let blockdb := h.blockdb.add (.Partial {
    id := res.blockid
    data := List.replicate len 0
    available := List.replicate ((len + chunkSize - 1) / chunkSize) false })
  -- With the first transfer a new status loop starts, and it is woken at once.
  let launch := transfers.length = 1
  let h := h.setClient addr { client with
    pendingBlockRequests := client.pendingBlockRequests.erase res.blockid
    transferIn := { transfers, statusTx := launch || client.transferIn.statusTx } }
  return { h with
    blockdb
    statusTokens := if launch then h.statusTokens ++ [addr] else h.statusTokens }

/-- The chunks of one block that are missing, group by group. -/
def missingGroups (start : Nat) : List (List Bool) → Ranges
  | [] => []
  | group :: groups =>
    let count := group.length
    let rest := missingGroups (start + count) groups
    if group.head? = some false then (start, start + count) :: rest else rest

def missingRanges (blockdb : BlockDb) : List Transfer → Result Ranges
  | [] => return []
  | t :: transfers => do
    let block ← blockdb.get t.blockid
    let p ← block.partialRef
    let rest ← missingRanges blockdb transfers
    return missingGroups t.start (p.available.splitBy (· == ·)) ++ rest

/-- Nothing is outstanding for a client that was removed. -/
def outstanding (h : Handler) (addr : SocketAddr) : Result Ranges :=
  match h.clients.lookup addr with
  | some client => missingRanges h.blockdb client.transferIn.transfers
  | none => return []

/-- One round of a status loop, which takes one token. -/
def statusLoop (h : Handler) (addr : SocketAddr) : Result (Handler × Sent) := do
  Result.assert (addr ∈ h.statusTokens)
  let rle ← h.outstanding addr
  return ({ h with statusTokens := h.statusTokens.erase addr },
    [(.TransferStatus { missingRanges := rle }, addr)])

/-- Puts a chunk into its block and wakes the status loop. -/
def storeChunk (h : Handler) (addr : SocketAddr) (chunk : TransferPayload) :
    Result (Transfer × Handler) := do
  let client ← h.client addr
  Result.assert (client.transferIn.statusTx = true)
  let transfer ← client.transferIn.transfer chunk.chunkid
  let block ← h.blockdb.get transfer.blockid
  let p ← block.partialRef
  let id := chunk.chunkid - transfer.start
  let from_ := id * chunkSize
  let to_ := from_ + min chunkSize chunk.data.length
  Result.assert (to_ ≤ p.data.length)
  Result.assert (chunk.data.length = to_ - from_)
  Result.assert (id < p.available.length)
  let p := { p with
    data := overwrite 0 p.data from_ chunk.data
    available := p.available.set id true }
  return (transfer, { h with
    blockdb := h.blockdb.set transfer.blockid (.Partial p)
    statusTokens := h.statusTokens ++ [addr] })

/-- Requests those blocks that are not there, not even in part. -/
def requestMissing (h : Handler) (addr : SocketAddr) : List BlockRef → Result Handler
  | [] => return h
  | r :: blocks =>
    if h.blockdb.contains r.blockid then h.requestMissing addr blocks
    else do
      let client ← h.client addr
      (h.setClient addr (client.sendBlockRequest { blockid := r.blockid })).requestMissing addr blocks

/-- The blocks that a block leads to. -/
def blockrefs : Decoded → List BlockRef
  | .Dir dir => dir.children.map fun child => child.blockref
  | .Meta meta_ => meta_.blocks
  | .Leaf _ => []

section Sealing

variable [Sealing]

/-- `transferPayload` up to where all transfers are complete, and whether it gets there. -/
def receiveChunk (h : Handler) (fuel : Nat) (addr : SocketAddr) (chunk : TransferPayload) :
    Result (Bool × Handler) := do
  let (transfer, h) ← h.storeChunk addr chunk
  let (promoted, blockdb) ← h.blockdb.tryPromote transfer.blockid
  let h := { h with blockdb }
  if !promoted then return (false, h)
  let client ← h.client addr
  let transfers := client.transferIn.transfers
  Result.assert (transfer ∈ transfers)
  let h := h.setClient addr { client with
    transferIn := { client.transferIn with transfers := transfers.erase transfer } }
  let dec ← resolve h.blockdb fuel transfer.blockid true
  let h ← h.requestMissing addr (blockrefs dec)
  let verified ← verify h.blockdb fuel true
  return (verified, h)

/-- The new root replaces the old one, on the disk, too. -/
def applyUpdate (h : Handler) (fuel : Nat) (addr : SocketAddr) : Result (Handler × Sent) := do
  let (from_, blockdb) ← h.blockdb.applyPending
  let ((), fs) ← (blockdb.writeToDir fuel h.folder).run h.fs
  let msg := Msg.RootUpdateResponse {
    fromBlockid := from_.blockid
    toBlockid := blockdb.root.blockid
    toKey := blockdb.root.key }
  let sent := h.clients.keys.map fun clientAddr => (msg, clientAddr)
  return ({ h with blockdb, fs, clients := h.clients.erase addr }, sent)

def transferPayload (h : Handler) (fuel : Nat) (addr : SocketAddr) (chunk : TransferPayload) :
    Result (Handler × Sent) := do
  let (verified, h) ← h.receiveChunk fuel addr chunk
  if !verified then return (h, [])
  h.applyUpdate fuel addr

/-! ## Dispatch -/

/-- A message from a node that is not known is ignored, unless it announces a root. -/
def receive (h : Handler) (fuel now : Nat) (rand : UInt32) (addr : SocketAddr) (msg : Msg) :
    Result (Handler × Sent) :=
  if h.clients.lookup addr = none then
    match msg with
    | .RootUpdate update => return h.unconnectedRootUpdate addr update rand
    | _ => return (h, [])
  else
    match msg with
    | .RootUpdate _ => return (h, [])
    | .RootUpdateResponse res =>
      if !h.needsUpdate res then return (h, [])
      else do return (← h.rootUpdateResponse addr res, [])
    | .BlockRequest req => h.blockRequest addr req
    | .BlockRequestResponse res => do return (← h.blockRequestResponse addr res, [])
    | .TransferPayload payload => h.transferPayload fuel addr payload
    | .TransferStatus status => do return (← h.transferStatus now addr status, [])

end Sealing

end Handler

end DasProtokoll.Scsync
