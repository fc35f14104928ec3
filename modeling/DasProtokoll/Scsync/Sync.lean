import DasProtokoll.Scsync.Receiver

/-!
# What a session ends with

The two nodes keep their invariants in every run, so a block that is promoted is
the client's block, and a root is applied only when the whole tree is there.
-/

namespace DasProtokoll.Scsync

open DasProtokoll

/-! ## The blocks of a folder -/

theorem insertAll_complete (root : BlockRef) (blocks : List Full) :
    Complete (BlockDb.new root (insertAll blocks)) := by
  intro id b hb
  obtain ⟨f, -, -, rfl⟩ := insertAll_lookup hb
  exact ⟨f, rfl⟩

section Serde

variable [Sealing]

/-- The blocks that the program makes of its folder. -/
def Opt.blocks (opt : Opt) : List Full :=
  match folderBlocks opt.rand opt.files opt.tree with
  | .ok (_, blocks) => blocks
  | _ => []

theorem handler_ok {opt : Opt} {h : Handler} (hh : opt.handler = .ok h) :
    ∃ root, folderBlocks opt.rand opt.files opt.tree = .ok (root, opt.blocks) ∧
      h = Handler.new opt.files opt.packetDelay (BlockDb.new root (insertAll opt.blocks)) opt.fs := by
  simp only [Opt.handler, blockdbFromFolder, Result.bind_eq_ok, Result.pure_def, Result.ok.injEq] at hh
  obtain ⟨_, ⟨⟨root, blocks⟩, hblocks, rfl⟩, rfl⟩ := hh
  refine ⟨root, ?_, ?_⟩ <;> simp [Opt.blocks, hblocks]

variable [Serde]

/-- The invariant of a session. `c` is what the client knows of the server. -/
structure SystemInv (addrs : Addresses) (root : BlockRef) (db : BlockDb) (s : System) (c : Client) :
    Prop where
  sender : Sender addrs.server db s.client c
  receiver : Receiver addrs.client root db c.transferOut.transfers s.server
  toServer : ∀ d ∈ s.toServer, ∀ msg, MyCodec.decode d = .ok (some msg) →
    FromSender root db c.transferOut.transfers msg
  toClient : ∀ d ∈ s.toClient, ∀ msg, MyCodec.decode d = .ok (some msg) → FromReceiver root msg

variable {addrs : Addresses} {root : BlockRef} {db : BlockDb} {s s' : System} {c : Client}

/-! ## Datagrams -/

omit [Sealing] in
theorem FromSender.decode {out : TransferOut} {msg msg' : Msg} {d : Bytes} {capacity : Nat}
    (h : FromSender root db out.transfers msg) (hs : Serving db out)
    (he : MyCodec.encode capacity msg = .ok d) (hd : MyCodec.decode d = .ok (some msg')) :
    FromSender root db out.transfers msg' := by
  have hwhole : MyCodec.Whole msg := by
    cases h with
    | rootUpdate | blockRequestResponse => trivial
    | transferPayload hp =>
      obtain ⟨t, ht, -, -, -, hhi, -⟩ := hp
      exact hhi.trans (hs.lt_u64 ht).2
  rw [MyCodec.decode_encode hwhole he, Result.ok.injEq, Option.some.injEq] at hd
  exact hd ▸ h

omit [Sealing] in
theorem FromReceiver.decode {msg msg' : Msg} {d : Bytes} {capacity : Nat} (h : FromReceiver root msg)
    (he : MyCodec.encode capacity msg = .ok d) (hd : MyCodec.decode d = .ok (some msg')) :
    FromReceiver root msg' := by
  cases h with
  | rootUpdateResponse hres =>
    rw [MyCodec.decode_encode (by trivial) he, Result.ok.injEq, Option.some.injEq] at hd
    exact hd ▸ .rootUpdateResponse hres
  | blockRequest =>
    rw [MyCodec.decode_encode (by trivial) he, Result.ok.injEq, Option.some.injEq] at hd
    exact hd ▸ .blockRequest
  | transferStatus =>
    obtain ⟨status, hstatus⟩ := MyCodec.decode_encode_status he hd
    obtain rfl := Option.some.inj hstatus
    exact .transferStatus

/-! ## The invariant -/

theorem SystemInv.step (hinv : SystemInv addrs root db s c) (hroot : db.root = root)
    (hdb : Complete db) {e : Event} (h : System.Step addrs s e s') :
    ∃ c', SystemInv addrs root db s' c' ∧ c.transferOut.transfers ⊆ c'.transferOut.transfers := by
  obtain ⟨-, client, sent, datagrams, hact, hpost, rfl⟩ |
    ⟨-, server, sent, datagrams, hact, hpost, rfl⟩ := System.step_cases h
  · obtain ⟨c', hs', hsub, hsent⟩ := hinv.sender.act hdb hroot hinv.toClient hact
    refine ⟨c', ⟨hs', hinv.receiver.mono hsub, ?_, hinv.toClient⟩, hsub⟩
    intro d hd msg hmsg
    rcases List.mem_append.mp hd with hd | hd
    · exact (hinv.toServer d hd msg hmsg).mono hsub
    · obtain ⟨msg', hmem, hencode⟩ := mem_post hpost hd
      exact (hsent _ hmem).decode hs'.serving hencode hmsg
  · obtain ⟨hr', hsent⟩ := hinv.receiver.act hinv.sender.serving hinv.toServer hact
    refine ⟨c, ⟨hinv.sender, hr', hinv.toServer, ?_⟩, List.Subset.refl _⟩
    intro d hd msg hmsg
    rcases List.mem_append.mp hd with hd | hd
    · exact hinv.toClient d hd msg hmsg
    · obtain ⟨msg', hmem, hencode⟩ := mem_post hpost hd
      exact (hsent _ hmem).decode hencode hmsg

variable {client server : Opt} {rand : UInt32} {nonce : Vector UInt8 12} {capacity : Nat} {s₀ : System}

theorem start_ok (h : System.start addrs client server rand nonce capacity = .ok s₀) :
    ∃ root root' datagrams, folderBlocks client.rand client.files client.tree = .ok (root, client.blocks) ∧
      post capacity addrs.server [(.RootUpdate {
        nonce, fromBlockid := Vector.replicate 32 0, toBlockref := root }, addrs.server)] =
        .ok datagrams ∧
      s₀ = {
        client := (Handler.new client.files client.packetDelay
          (BlockDb.new root (insertAll client.blocks)) client.fs).setClient addrs.server (.default rand)
        server := Handler.new server.files server.packetDelay
          (BlockDb.new root' (insertAll server.blocks)) server.fs
        toServer := datagrams
        toClient := []
        now := 0 } := by
  simp only [System.start, Result.bind_eq_ok, Result.pure_def, Result.ok.injEq] at h
  obtain ⟨hc, hclient, hs, hserver, datagrams, hpost, rfl⟩ := h
  obtain ⟨root, hblocks, rfl⟩ := handler_ok hclient
  obtain ⟨root', -, rfl⟩ := handler_ok hserver
  exact ⟨root, root', datagrams, hblocks, hpost, rfl⟩

theorem SystemInv.start (hno : NoCollision (client.blocks ++ server.blocks))
    (h : System.start addrs client server rand nonce capacity = .ok s₀) :
    ∃ root c, folderBlocks client.rand client.files client.tree = .ok (root, client.blocks) ∧
      s₀.client.blockdb = BlockDb.new root (insertAll client.blocks) ∧
      SystemInv addrs root (BlockDb.new root (insertAll client.blocks)) s₀ c := by
  obtain ⟨root, root', datagrams, hblocks, hpost, rfl⟩ := start_ok h
  have hserving : Serving (BlockDb.new root (insertAll client.blocks)) (.default rand) := by
    refine ⟨List.Pairwise.nil, by simp [TransferOut.default], by simp [TransferOut.default], ?_⟩
    exact rand.toNat_lt.trans (by decide)
  refine ⟨root, .default rand, hblocks, rfl, ?sender, ?receiver, ?toServer, by simp⟩
  case sender =>
    refine ⟨rfl, Handler.setClient_lookup, ?_, rfl, rfl, hserving, List.Pairwise.nil⟩
    intro addr hne
    exact Handler.setClient_lookup_ne hne
  case receiver =>
    refine ⟨fun _ _ => rfl, rfl, ?_, ?_, ?_, ?_⟩
    · intro id f g hf hg
      obtain ⟨f', hf', hid, hff⟩ := insertAll_lookup hf
      obtain ⟨g', hg', hid', hgg⟩ := insertAll_lookup hg
      cases hff
      cases hgg
      exact hno g (by simp [hg']) f (by simp [hf']) (hid'.trans hid.symm)
    · intro id p hp
      obtain ⟨f, -, -, hf⟩ := insertAll_lookup hp
      cases hf
    · refine fun _ => ⟨rfl, Or.inr fun id p hp => ?_⟩
      obtain ⟨f, -, -, hf⟩ := insertAll_lookup hp
      cases hf
    · intro c hc
      cases hc
  case toServer =>
    intro d hd msg hmsg
    obtain ⟨msg', hmem, hencode⟩ := mem_post hpost hd
    obtain rfl := (Prod.mk.inj (List.mem_singleton.mp hmem)).1
    exact FromSender.decode (.rootUpdate rfl) hserving hencode hmsg

theorem system_inv (hno : NoCollision (client.blocks ++ server.blocks))
    (h : System.start addrs client server rand nonce capacity = .ok s₀)
    (hreach : Reachable (System.Step addrs) s₀ s) :
    ∃ root c, folderBlocks client.rand client.files client.tree = .ok (root, client.blocks) ∧
      s₀.client.blockdb = BlockDb.new root (insertAll client.blocks) ∧
      SystemInv addrs root (BlockDb.new root (insertAll client.blocks)) s c := by
  obtain ⟨root, c, hblocks, hclient, hinv⟩ := SystemInv.start hno h
  have hall : ∃ c, SystemInv addrs root (BlockDb.new root (insertAll client.blocks)) s c := by
    apply Reachable.invariant (I := fun s => ∃ c, SystemInv addrs root _ s c) hreach ⟨c, hinv⟩
    rintro t e u ⟨c, hinv⟩ hstep
    obtain ⟨c', hinv', -⟩ := hinv.step rfl (insertAll_complete root client.blocks) hstep
    exact ⟨c', hinv'⟩
  obtain ⟨c', hinv'⟩ := hall
  exact ⟨root, c', hblocks, hclient, hinv'⟩

/-! ## Blocks and trees -/

/-- A block that the chunk completes is the block that the client has. -/
def PromotesRight (addr : SocketAddr) (db : BlockDb) (h : Handler) (chunk : TransferPayload) : Prop :=
  ∀ t h₁ db₁, h.storeChunk addr chunk = .ok (t, h₁) →
    h₁.blockdb.tryPromote t.blockid = .ok (true, db₁) →
    ∃ f g, db₁.lookup t.blockid = some (.Full f) ∧ db.lookup t.blockid = some (.Full g) ∧
      f.data = g.data

/-- When the chunk lets the new root be applied, all blocks that can be reached from it are full. -/
def AppliesFull (addr : SocketAddr) (h : Handler) (chunk : TransferPayload) : Prop :=
  ∀ fuel h₁, h.receiveChunk fuel addr chunk = .ok (true, h₁) →
    ∃ old db₁, h₁.blockdb.applyPending = .ok (old, db₁) ∧ AllFull db₁ (.Directory, db₁.root)

/-- The files that are written then are those of the tree. -/
def WritesTree (addr : SocketAddr) (tree : Forest) (h : Handler) (chunk : TransferPayload) : Prop :=
  ∀ fuel h₁ old db₁ fs, h.receiveChunk fuel addr chunk = .ok (true, h₁) →
    h₁.blockdb.applyPending = .ok (old, db₁) →
    (db₁.writeToDir fuel h₁.folder).run h₁.fs = .ok ((), fs) →
    ∀ path, fs.node (h₁.folder.resolve h₁.fs.cwd ++ path) = tree.lookup path

omit [Sealing] in
theorem SystemInv.promotesRight (hinv : SystemInv addrs root db s c) {chunk : TransferPayload}
    (hchunk : IsPayload db c.transferOut.transfers chunk) :
    PromotesRight addrs.client db s.server chunk := by
  intro t h₁ db₁ hstore hpromote
  have hr := hinv.receiver.storeChunk hinv.sender.serving hchunk hstore
  obtain ⟨p, hp, ⟨hfalse, -⟩ | ⟨-, hall, rfl⟩⟩ := BlockDb.tryPromote_ok hpromote
  · cases hfalse
  · obtain ⟨f, hf, harrived⟩ := hr.parts _ p hp
    exact ⟨_, f, BlockDb.lookup_set_self, hf, harrived.complete hall⟩

theorem SystemInv.applied (hinv : SystemInv addrs root db s c) {chunk : TransferPayload}
    (hchunk : IsPayload db c.transferOut.transfers chunk) {F : Forest}
    (hF : RootRepresents (Holds db) root F) {fuel : Nat} {h₁ : Handler}
    (hrecv : s.server.receiveChunk fuel addrs.client chunk = .ok (true, h₁)) :
    h₁.blockdb.applyPending =
        .ok (h₁.blockdb.root, { h₁.blockdb with root, pendingRoot := none }) ∧
      RootRepresents (Holds { h₁.blockdb with root, pendingRoot := none }) root F ∧
      F.depth < fuel := by
  obtain ⟨hr, c₁, hc₁⟩ := hinv.receiver.receiveChunk hinv.sender.serving hchunk hrecv
  have hpending := (hr.busy c₁ hc₁).pendingRoot
  obtain ⟨t, h₂, p, -, -, ⟨hfalse, -⟩ | ⟨-, -, -, -, -, -, hverify⟩⟩ := Handler.receiveChunk_ok hrecv
  · cases hfalse
  · obtain ⟨hreps, hdepth⟩ := verify_represents hpending hF hr.full hverify
    refine ⟨?_, hreps, hdepth⟩
    simp [BlockDb.applyPending, hpending]

/-- In every run, with any chunk that the server can get: a block that becomes full is the client's, the
new root is applied only when all of it is there, and the client's tree is written, provided that its
names are strings. -/
theorem synchronised (htree : client.tree.WellFormed)
    (hno : NoCollision (client.blocks ++ server.blocks))
    (hstart : System.start addrs client server rand nonce capacity = .ok s₀)
    (hreach : Reachable (System.Step addrs) s₀ s) {d : Bytes} (hd : d ∈ s.toServer)
    {chunk : TransferPayload} (hchunk : MyCodec.decode d = .ok (some (.TransferPayload chunk))) :
    PromotesRight addrs.client s₀.client.blockdb s.server chunk ∧
      AppliesFull addrs.client s.server chunk ∧
      (client.tree.Utf8 → WritesTree addrs.client client.tree s.server chunk) := by
  obtain ⟨root, c, hblocks, hdb, hinv⟩ := system_inv hno hstart hreach
  have hpayload : IsPayload (BlockDb.new root (insertAll client.blocks)) c.transferOut.transfers chunk := by
    cases hinv.toServer d hd _ hchunk with
    | transferPayload h => exact h
  have hreps := folderBlocks_represents htree hblocks fun f hf g hg =>
    hno f (by simp [hf]) g (by simp [hg])
  rw [hdb]
  refine ⟨hinv.promotesRight hpayload, fun fuel h₁ hrecv => ?_, ?_⟩
  · obtain ⟨happly, hnew, -⟩ := hinv.applied hpayload hreps hrecv
    exact ⟨_, _, happly, hnew.allFull⟩
  · intro hutf8 fuel h₁ old db₁ fs hrecv happly hrun
    obtain ⟨happly', hnew, hdepth⟩ := hinv.applied hpayload hreps hrecv
    rw [happly', Result.ok.injEq, Prod.mk.injEq] at happly
    obtain ⟨-, rfl⟩ := happly
    exact run_writeToDir htree hutf8 hnew hdepth hrun

end Serde

/-! ## A folder with one file -/

def ends : Addresses where
  client := { ip := .V4 (Vector.replicate 4 1), port := 1 }
  server := { ip := .V4 (Vector.replicate 4 2), port := 21088 }

/-- A node with an empty folder on its disk, and what it has read from there. -/
def optOf (folder : OsString) (key : UInt8) (tree : Forest) : Opt where
  files := { absolute := true, components := [folder] }
  tree
  rand i := (Vector.replicate 16 key, Vector.replicate 16 (UInt8.ofNat i))
  packetDelay := 0
  fs := { cwd := [], node := fun place => if place = [] ∨ place = [folder] then some .dir else none }

def clientOpt (name : OsString) : Opt := optOf [0x63] 3 (.file name [7] .nil)

def serverOpt : Opt := optOf [0x73] 5 .nil

def startOf [Serde] [Sealing] (name : OsString) : Result System :=
  System.start ends (clientOpt name) serverOpt 9 (Vector.replicate 12 0) 0

/-- The file has the first block and its folder the second one. -/
def blockOf [Sealing] (name : OsString) (i : Nat) : BlockId :=
  (((clientOpt name).blocks[i]?).map fun f => f.id).getD (Vector.replicate 32 0)

def eventOf (peer : Peer) (action : Action) : Event :=
  { peer, action, now := 0, fuel := 3, rand := 7, capacity := 0 }

/-- Everything about one block up to its payload. The request becomes datagram `i` to the client, and the
response becomes datagram `j` to the server. -/
def fetch (i j : Nat) (blockid : BlockId) : List Event := [
  eventOf .server (.requestRetry ends.client blockid),
  eventOf .client (.deliver i),
  eventOf .server (.deliver j),
  eventOf .server (.statusLoop ends.client),
  eventOf .client (.deliver (i + 1)),
  eventOf .client (.transferLoop 0)]

/-- The folder is transferred, and the file up to its payload. -/
def script [Sealing] (name : OsString) : List Event :=
  eventOf .server (.deliver 0) :: fetch 0 1 (blockOf name 1) ++
    eventOf .server (.deliver 2) :: fetch 2 3 (blockOf name 0)

def payloadOf : Msg → Option TransferPayload
  | .TransferPayload payload => some payload
  | _ => none

section Written

variable [Serde] [Sealing]

/-- What the server writes when the last payload of the script arrives, at a path in its folder. -/
def writtenAt (name : OsString) (path : List OsString) : Result (Option Node) := do
  let s₀ ← startOf name
  let s ← replay (System.next ends) s₀ (script name)
  let d ← Result.unwrap s.toServer[4]?
  let msg ← MyCodec.decode d
  let chunk ← Result.unwrap (msg.bind payloadOf)
  let (verified, h) ← s.server.receiveChunk 3 ends.client chunk
  Result.assert (verified = true)
  let (_, db) ← h.blockdb.applyPending
  let ((), fs) ← (db.writeToDir 3 h.folder).run h.fs
  return fs.node (h.folder.resolve h.fs.cwd ++ path)

theorem writtenAt_ok {name : OsString} {path : List OsString} {node : Option Node}
    (h : writtenAt name path = .ok node) :
    ∃ s₀ s d chunk h₁ old db fs, startOf name = .ok s₀ ∧ Reachable (System.Step ends) s₀ s ∧
      d ∈ s.toServer ∧ MyCodec.decode d = .ok (some (.TransferPayload chunk)) ∧
      s.server.receiveChunk 3 ends.client chunk = .ok (true, h₁) ∧
      h₁.blockdb.applyPending = .ok (old, db) ∧
      (db.writeToDir 3 h₁.folder).run h₁.fs = .ok ((), fs) ∧
      fs.node (h₁.folder.resolve h₁.fs.cwd ++ path) = node := by
  simp only [writtenAt, Result.bind_eq_ok, Result.unwrap_eq_ok, Result.assert_eq_ok, Result.pure_def,
    Result.ok.injEq] at h
  obtain ⟨s₀, hstart, s, hrun, d, hd, msg, hmsg, chunk, hchunk, ⟨verified, h₁⟩, hrecv, _, hverified,
    ⟨old, db⟩, happly, ⟨⟨⟩, fs⟩, hwrite, hnode⟩ := h
  subst hverified
  obtain ⟨m, rfl, hm⟩ := Option.bind_eq_some_iff.mp hchunk
  cases m with
  | TransferPayload payload =>
    obtain rfl := Option.some.inj hm
    exact ⟨s₀, s, d, _, h₁, old, db, fs, hstart, replay_reachable (fun _ _ _ h => h) hrun,
      List.mem_of_getElem? hd, hmsg, hrecv, happly, hwrite, hnode⟩
  | TransferStatus | RootUpdate | RootUpdateResponse | BlockRequest | BlockRequestResponse => cases hm

end Written

def plainName : OsString := [0x61]

/-- A byte that no UTF-8 text has in it. -/
def brokenName : OsString := [0xff]

theorem clientOpt_wellFormed {name : OsString} (h : IsName name) : (clientOpt name).tree.WellFormed :=
  ⟨h, by simp [Forest.names], trivial⟩

theorem plainName_noCollision :
    letI := sealing
    NoCollision ((clientOpt plainName).blocks ++ serverOpt.blocks) := by
  apply noCollision_of_nodup
  decide +kernel

theorem synchronised_file :
    letI := serde
    letI := sealing
    ∃ s₀ s d chunk h₁ old db fs, startOf plainName = .ok s₀ ∧ Reachable (System.Step ends) s₀ s ∧
      d ∈ s.toServer ∧ MyCodec.decode d = .ok (some (.TransferPayload chunk)) ∧
      s.server.receiveChunk 3 ends.client chunk = .ok (true, h₁) ∧
      h₁.blockdb.applyPending = .ok (old, db) ∧ AllFull db (.Directory, db.root) ∧
      (db.writeToDir 3 h₁.folder).run h₁.fs = .ok ((), fs) ∧
      fs.node (h₁.folder.resolve h₁.fs.cwd ++ [plainName]) = some (.file [7]) := by
  let _ := serde
  let _ := sealing
  have hwritten : writtenAt plainName [plainName] = .ok (some (.file [7])) := by decide +kernel
  obtain ⟨s₀, s, d, chunk, h₁, old, db, fs, hstart, hreach, hd, hchunk, hrecv, happly, hwrite, -⟩ :=
    writtenAt_ok hwritten
  obtain ⟨-, hfull, htree⟩ := synchronised
    (clientOpt_wellFormed ⟨by decide, by decide, by decide, by decide, by decide⟩) plainName_noCollision hstart
    hreach hd hchunk
  obtain ⟨old', db', happly', hall⟩ := hfull 3 h₁ hrecv
  rw [happly, Result.ok.injEq, Prod.mk.injEq] at happly'
  obtain ⟨rfl, rfl⟩ := happly'
  have hutf8 : (clientOpt plainName).tree.Utf8 := ⟨⟨"a", by decide⟩, trivial⟩
  exact ⟨s₀, s, d, chunk, h₁, old, db, fs, hstart, hreach, hd, hchunk, hrecv, happly, hall, hwrite,
    htree hutf8 3 h₁ old db fs hrecv happly hwrite [plainName]⟩

/-- A file whose name is no UTF-8 arrives under another name. -/
theorem broken_name_lost :
    letI := serde
    letI := sealing
    (clientOpt brokenName).tree.WellFormed ∧
      NoCollision ((clientOpt brokenName).blocks ++ serverOpt.blocks) ∧
      ∃ s₀ s d chunk, startOf brokenName = .ok s₀ ∧ Reachable (System.Step ends) s₀ s ∧
        d ∈ s.toServer ∧ MyCodec.decode d = .ok (some (.TransferPayload chunk)) ∧
        ¬ WritesTree ends.client (clientOpt brokenName).tree s.server chunk := by
  let _ := serde
  let _ := sealing
  have hwritten : writtenAt brokenName [brokenName] = .ok none := by decide +kernel
  have hno : NoCollision ((clientOpt brokenName).blocks ++ serverOpt.blocks) := by
    apply noCollision_of_nodup
    decide +kernel
  obtain ⟨s₀, s, d, chunk, h₁, old, db, fs, hstart, hreach, hd, hchunk, hrecv, happly, hwrite, hnode⟩ :=
    writtenAt_ok hwritten
  refine ⟨clientOpt_wellFormed ⟨by decide, by decide, by decide, by decide, by decide⟩, hno, s₀, s, d, chunk,
    hstart, hreach, hd, hchunk, ?_⟩
  intro htree
  have hlookup := htree 3 h₁ old db fs hrecv happly hwrite [brokenName]
  rw [hnode] at hlookup
  exact absurd hlookup (by decide)

end DasProtokoll.Scsync
