import DasProtokoll.Lib.Run
import DasProtokoll.Scsync.Folder
import DasProtokoll.Scsync.HandlerSpec

/-!
# One client session

Client and server, each started on its own folder, with the network between them.
The network remembers all datagrams and delivers any of them at any time, so it
can lose, duplicate, delay and reorder them.
-/

namespace DasProtokoll.Scsync

open DasProtokoll

inductive Peer where
  | client
  | server
  deriving Repr, DecidableEq

structure Addresses where
  client : SocketAddr
  server : SocketAddr

/-- What a node does next: it handles a datagram that was sent to it, or it goes on with one of the loops
that it started. -/
inductive Action where
  | deliver (i : Nat)
  | statusLoop (addr : SocketAddr)
  | transferLoop (i : Nat)
  | requestRetry (addr : SocketAddr) (blockid : BlockId)
  deriving Repr, DecidableEq

/-- `fuel`, `rand` and `capacity` are what a step can ask of its environment. -/
structure Event where
  peer : Peer
  action : Action
  now : Nat
  fuel : Nat
  rand : UInt32
  capacity : Nat

structure System where
  client : Handler
  server : Handler
  toServer : List Bytes
  toClient : List Bytes
  now : Nat

/-- What the program is started with. `rand` is the key and the vector for each block. -/
structure Opt where
  files : PathBuf
  tree : Forest
  rand : Nat → Key × Iv
  packetDelay : Nat
  fs : FileSystem

section Serde

variable [Serde]

/-- The datagrams to one address. -/
def post (capacity : Nat) (addr : SocketAddr) : Sent → Result (List Bytes)
  | [] => return []
  | (msg, to_) :: sent => do
    let d ← MyCodec.encode capacity msg
    let datagrams ← post capacity addr sent
    return if to_ = addr then d :: datagrams else datagrams

theorem mem_post {capacity : Nat} {addr : SocketAddr} {sent : Sent} {datagrams : List Bytes}
    (h : post capacity addr sent = .ok datagrams) {d : Bytes} (hd : d ∈ datagrams) :
    ∃ msg, (msg, addr) ∈ sent ∧ MyCodec.encode capacity msg = .ok d := by
  induction sent generalizing datagrams with
  | nil =>
    rw [post, Result.pure_def, Result.ok.injEq] at h
    subst h
    simp at hd
  | cons m sent ih =>
    obtain ⟨msg, to_⟩ := m
    simp only [post, Result.bind_eq_ok, Result.pure_def, Result.ok.injEq] at h
    obtain ⟨d', hencode, rest, hrest, rfl⟩ := h
    have hcase : to_ = addr ∧ d = d' ∨ d ∈ rest := by
      split at hd
      · rename_i hto
        rcases List.mem_cons.mp hd with hd | hd
        · exact Or.inl ⟨hto, hd⟩
        · exact Or.inr hd
      · exact Or.inr hd
    rcases hcase with ⟨rfl, rfl⟩ | hd
    · exact ⟨msg, by simp, hencode⟩
    · obtain ⟨msg', hmem, hencode'⟩ := ih hrest hd
      exact ⟨msg', by simp [hmem], hencode'⟩

variable [Sealing]

/-- `inbox` are the datagrams from `from_`. -/
def Handler.act (h : Handler) (from_ : SocketAddr) (inbox : List Bytes) (e : Event) :
    Result (Handler × Sent) :=
  match e.action with
  | .deliver i => do
    let d ← Result.unwrap inbox[i]?
    match ← MyCodec.decode d with
    | none => return (h, [])
    | some msg => h.receive e.fuel e.now e.rand from_ msg
  | .statusLoop addr => h.statusLoop addr
  | .transferLoop i => h.transferLoop e.now i
  | .requestRetry addr blockid => h.requestRetry addr blockid

def Opt.handler (opt : Opt) : Result Handler := do
  let blockdb ← blockdbFromFolder opt.rand opt.files opt.tree
  return Handler.new opt.files opt.packetDelay blockdb opt.fs

namespace System

/-- The client announces its root. -/
def start (addrs : Addresses) (client server : Opt) (rand : UInt32) (nonce : Vector UInt8 12)
    (capacity : Nat) : Result System := do
  let client ← client.handler
  let server ← server.handler
  let (client, sent) := client.connect addrs.server rand nonce
  let datagrams ← post capacity addrs.server sent
  return { client, server, toServer := datagrams, toClient := [], now := 0 }

def next (addrs : Addresses) (s : System) (e : Event) : Result System := do
  Result.assert (s.now ≤ e.now)
  match e.peer with
  | .client => do
    let (client, sent) ← s.client.act addrs.server s.toClient e
    let datagrams ← post e.capacity addrs.server sent
    return { s with client, toServer := s.toServer ++ datagrams, now := e.now }
  | .server => do
    let (server, sent) ← s.server.act addrs.client s.toServer e
    let datagrams ← post e.capacity addrs.client sent
    return { s with server, toClient := s.toClient ++ datagrams, now := e.now }

/-- A step that panics ends the run. -/
def Step (addrs : Addresses) (s : System) (e : Event) (s' : System) : Prop := s.next addrs e = .ok s'

/-- The datagram that the network delivers to the server in this step. -/
def Receives (s : System) (e : Event) (msg : Msg) : Prop :=
  e.peer = .server ∧ ∃ i d, e.action = .deliver i ∧ s.toServer[i]? = some d ∧
    MyCodec.decode d = .ok (some msg)

theorem step_cases {addrs : Addresses} {s s' : System} {e : Event} (h : Step addrs s e s') :
    (e.peer = .client ∧ ∃ client sent datagrams,
      s.client.act addrs.server s.toClient e = .ok (client, sent) ∧
      post e.capacity addrs.server sent = .ok datagrams ∧
      s' = { s with client, toServer := s.toServer ++ datagrams, now := e.now }) ∨
    (e.peer = .server ∧ ∃ server sent datagrams,
      s.server.act addrs.client s.toServer e = .ok (server, sent) ∧
      post e.capacity addrs.client sent = .ok datagrams ∧
      s' = { s with server, toClient := s.toClient ++ datagrams, now := e.now }) := by
  simp only [Step, next, Result.bind_eq_ok] at h
  obtain ⟨_, -, h⟩ := h
  split at h
  · rename_i hpeer
    simp only [Result.bind_eq_ok, Result.pure_def, Result.ok.injEq] at h
    obtain ⟨⟨client, sent⟩, hact, datagrams, hpost, rfl⟩ := h
    exact Or.inl ⟨hpeer, client, sent, datagrams, hact, hpost, rfl⟩
  · rename_i hpeer
    simp only [Result.bind_eq_ok, Result.pure_def, Result.ok.injEq] at h
    obtain ⟨⟨server, sent⟩, hact, datagrams, hpost, rfl⟩ := h
    exact Or.inr ⟨hpeer, server, sent, datagrams, hact, hpost, rfl⟩

end System

theorem Handler.act_cases {h h' : Handler} {from_ : SocketAddr} {inbox : List Bytes} {e : Event}
    {sent : Sent} (hact : h.act from_ inbox e = .ok (h', sent)) :
    (h' = h ∧ sent = []) ∨
    (∃ i d msg, e.action = .deliver i ∧ inbox[i]? = some d ∧ MyCodec.decode d = .ok (some msg) ∧
      h.receive e.fuel e.now e.rand from_ msg = .ok (h', sent)) ∨
    (∃ addr, h.statusLoop addr = .ok (h', sent)) ∨
    (∃ i, h.transferLoop e.now i = .ok (h', sent)) ∨
    (∃ addr blockid, h.requestRetry addr blockid = .ok (h', sent)) := by
  unfold act at hact
  split at hact
  · rename_i i haction
    simp only [Result.bind_eq_ok, Result.unwrap_eq_ok] at hact
    obtain ⟨d, hd, msg, hmsg, hact⟩ := hact
    cases msg with
    | none =>
      rw [Result.pure_def, Result.ok.injEq, Prod.mk.injEq] at hact
      exact Or.inl ⟨hact.1.symm, hact.2.symm⟩
    | some msg => exact Or.inr (Or.inl ⟨i, d, msg, haction, hd, hmsg, hact⟩)
  · exact Or.inr (Or.inr (Or.inl ⟨_, hact⟩))
  · exact Or.inr (Or.inr (Or.inr (Or.inl ⟨_, hact⟩)))
  · exact Or.inr (Or.inr (Or.inr (Or.inr ⟨_, _, hact⟩)))

end Serde

end DasProtokoll.Scsync
