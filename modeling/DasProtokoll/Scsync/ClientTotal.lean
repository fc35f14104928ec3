import DasProtokoll.Scsync.Allocation
import DasProtokoll.Scsync.Requests
import DasProtokoll.Scsync.RoundTrip

/-!
# The client does not panic

In a session the client takes every datagram that the network delivers and goes on
with each of its loops, until the chunk ids run out.
-/

namespace DasProtokoll.Scsync

open DasProtokoll

/-! ## Short messages -/

/-- What the serializers are to keep to so that a message fits into a datagram. -/
structure Serde.Compact [Serde] : Prop where
  chunkid : ∀ n, n < 2 ^ 63 → Varint.len n ≤ 9
  rootUpdateResponse : ∀ res : RootUpdateResponse, (Cbor.toWriter res).length < mtu
  blockRequest : ∀ req : BlockRequest, (Cbor.toWriter req).length < mtu
  blockRequestResponse : ∀ res : BlockRequestResponse, (Cbor.toWriter res).length < mtu

section Serde

variable [Serde]

omit [Serde] in
theorem MyCodec.putWriter_total {capacity : Nat} {b : UInt8} {bs : Bytes} (h : bs.length < mtu) :
    MyCodec.putWriter (max capacity mtu) (b :: bs) = .ok (b :: bs) := by
  rw [MyCodec.putWriter_eq_ok, List.length_cons]
  exact ⟨by omega, rfl⟩

theorem post_one {capacity : Nat} {addr : SocketAddr} {msg : Msg} {d : Bytes}
    (h : MyCodec.encode capacity msg = .ok d) : post capacity addr [(msg, addr)] = .ok [d] := by
  simp [post, h]

theorem encode_payload_total (hcompact : Serde.Compact) (capacity : Nat) {payload : TransferPayload}
    (hid : payload.chunkid < 2 ^ 63) (hlen : payload.data.length ≤ chunkSize) :
    ∃ d, MyCodec.encode capacity (.TransferPayload payload) = .ok d := by
  have hnine := hcompact.chunkid _ hid
  refine ⟨_, MyCodec.encode_payload ?_⟩
  simp only [chunkSize, mtu] at hlen ⊢
  omega

/-! ## Steps of the client -/

/-- The step is one of those that can come next. -/
def Handler.Enabled (h : Handler) (inbox : List Bytes) (e : Event) : Prop :=
  match e.action with
  | .deliver i => i < inbox.length
  | .statusLoop addr => addr ∈ h.statusTokens
  | .transferLoop i => ∃ addr wake, h.transferLoops[i]? = some (addr, wake) ∧ wake ≤ e.now
  | .requestRetry addr blockid =>
    ∃ c, h.clients.lookup addr = some c ∧ blockid ∈ c.pendingBlockRequests

variable {root : BlockRef} {db : BlockDb} {server : SocketAddr} {h h' : Handler} {c : Client}
  {sent : Sent} {first : Nat}

/-- The client gets through a step, and what it sends fits into datagrams. -/
def Goes (server : SocketAddr) (db : BlockDb) (first : Nat) (r : Result (Handler × Sent)) : Prop :=
  ∃ h' sent, r = .ok (h', sent) ∧ Ready server db first h' ∧
    ∀ capacity, ∃ datagrams, post capacity server sent = .ok datagrams

theorem Ready.quiet (hr : Ready server db first h) : Goes server db first (.ok (h, [])) :=
  ⟨h, [], rfl, hr, fun _ => ⟨[], rfl⟩⟩

theorem Goes.of_client {r : Result (Handler × Sent)} {loops : List (SocketAddr × Nat)}
    (hr : r = .ok ({ h.setClient server c with transferLoops := loops }, sent))
    (hloops : ∀ l ∈ loops, l.1 = server) (hp : Prepared db first c.transferOut)
    (hpost : ∀ capacity, ∃ datagrams, post capacity server sent = .ok datagrams) :
    Goes server db first r :=
  ⟨_, _, hr, .of_client hloops hp, hpost⟩

omit [Serde] in
theorem Ready.allocate (hp : Prepared db first c.transferOut) (hs : Sender server db h c)
    (hsize : first + db.totalLen ≤ 2 ^ 63) {id : BlockId} {f : Full} (hf : Holds db id f) :
    ∃ r, Handler.allocate c.transferOut db id = .ok r := by
  by_cases hlisted : ∃ t ∈ c.transferOut.transfers, t.2.2 = id
  · obtain ⟨t, ht, hid⟩ := hlisted
    unfold Handler.allocate
    have hsome : (c.transferOut.transfers.find? fun t => t.2.2 = id).isSome := by
      rw [List.find?_isSome]
      exact ⟨t, ht, by simpa using hid⟩
    obtain ⟨t', ht'⟩ := Option.isSome_iff_exists.mp hsome
    rw [ht']
    exact ⟨_, rfl⟩
  · have hfits := hp.fits hs.serving hs.once hf fun t ht hid => hlisted ⟨t, ht, hid⟩
    apply Handler.allocate_total hf
    rw [u64Size]
    omega

omit [Serde] in
theorem Handler.blockRequest_eq {addr : SocketAddr} (hc : h.clients.lookup addr = some c) {req : BlockRequest}
    {t : Nat × Nat × BlockId} {out : TransferOut}
    (halloc : allocate c.transferOut h.blockdb req.blockid = .ok (t, out)) {block : Block}
    (hblock : h.blockdb.lookup req.blockid = some block) :
    h.blockRequest addr req = .ok (h.setClient addr { c with transferOut := out },
      [(.BlockRequestResponse {
        blockid := req.blockid
        startId := .ofNat t.1
        endId := .ofNat t.2.1
        len := .ofNat block.len }, addr)]) := by
  have hget : h.blockdb.get req.blockid = .ok block := BlockDb.get_eq_ok.mpr hblock
  simp only [blockRequest, client_eq_ok.mpr hc, Result.bind_ok, halloc, hget]
  rfl

theorem Ready.blockRequest (hcompact : Serde.Compact) (hr : Ready server db first h)
    (hs : Sender server db h c) (hsize : first + db.totalLen ≤ 2 ^ 63) {req : BlockRequest} {f : Full}
    (hf : Holds db req.blockid f) : Goes server db first (h.blockRequest server req) := by
  have hp := hr.known c hs.known
  obtain ⟨⟨t, out⟩, halloc⟩ := Ready.allocate hp hs hsize hf
  have hprepared : Prepared db first { c with transferOut := out }.transferOut := hp.allocate halloc
  rw [Handler.blockRequest_eq hs.known (hs.blockdb.symm ▸ halloc) (hs.blockdb.symm ▸ hf)]
  exact .of_client rfl hr.loops hprepared fun capacity =>
    ⟨_, post_one (MyCodec.putWriter_total (hcompact.blockRequestResponse _))⟩

theorem Ready.transferStatus (hr : Ready server db first h) (hs : Sender server db h c)
    {status : TransferStatus} (hn : Named db c.transferOut.transfers status.missingRanges) (now : Nat) :
    Goes server db first (do return (← h.transferStatus now server status, [])) := by
  have hp := hr.known c hs.known
  rw [Handler.transferStatus_eq hs.known now status]
  refine .of_client rfl ?_ ?_ fun _ => ⟨[], rfl⟩
  · intro l hl
    split at hl
    · rcases List.mem_append.mp hl with hl | hl
      · exact hr.loops l hl
      · rw [List.mem_singleton.mp hl]
    · exact hr.loops l hl
  · exact ⟨hn, fun x hx => hn.head hx, hp.ids⟩

theorem Ready.transferLoop (hcompact : Serde.Compact) (hr : Ready server db first h)
    (hs : Sender server db h c) (hsize : first + db.totalLen ≤ 2 ^ 63) {now i : Nat} {addr : SocketAddr}
    {wake : Nat} (hloop : h.transferLoops[i]? = some (addr, wake)) (hwake : wake ≤ now) :
    Goes server db first (h.transferLoop now i) := by
  obtain rfl : addr = server := hr.loops _ (List.mem_of_getElem? hloop)
  have hp := hr.known c hs.known
  simp only [Handler.transferLoop, hloop, Result.unwrap_some, Result.bind_ok, Result.assert_of hwake]
  cases hcursor : c.transferOut.cursor with
  | none =>
    rw [Handler.nextPayload_none hs.known hcursor, Result.bind_ok]
    refine ⟨_, [], rfl, ⟨fun l hl => hr.loops l (List.mem_of_mem_eraseIdx hl), hr.known⟩,
      fun _ => ⟨[], rfl⟩⟩
  | some x =>
    obtain ⟨hbelow, t, ht, hlo, hhi, h64⟩ := hs.serving.inChunks (hp.cursor x hcursor)
    have hserving : Serving h.blockdb c.transferOut := hs.blockdb ▸ hs.serving
    obtain ⟨payload, rfl, ⟨t', -, f, -, -, -, hdata⟩, hnext⟩ :=
      Handler.nextPayload_some hs.known hcursor hserving ht hlo hhi h64
    have hcursor_le := hp.cursor_le hs.serving hs.once
    have hlen : payload.data.length ≤ chunkSize := by
      rw [hdata, slice_length]
      exact min_le_left _ _
    rw [hnext, Result.bind_ok]
    refine .of_client rfl ?_ ?_ fun capacity => ?_
    · intro l hl
      rcases List.mem_or_eq_of_mem_set hl with hl | rfl
      · exact hr.loops l hl
      · rfl
    · exact ⟨hp.todo, fun y hy => hp.todo.firstFrom hy, hp.ids⟩
    · obtain ⟨d, hd⟩ := encode_payload_total hcompact capacity (by omega) hlen
      exact ⟨[d], post_one hd⟩

section Sealing

variable [Sealing]

theorem Ready.act (hcompact : Serde.Compact) (hr : Ready server db first h) (hs : Sender server db h c)
    (hroot : db.root = root) (hsize : first + db.totalLen ≤ 2 ^ 63) {inbox : List Bytes}
    (hinbox : ∀ d ∈ inbox, ∃ msg, MyCodec.decode d = .ok (some msg) ∧
      Expected root db c.transferOut.transfers msg) {e : Event} (he : h.Enabled inbox e) :
    Goes server db first (h.act server inbox e) := by
  unfold Handler.Enabled at he
  unfold Handler.act
  cases haction : e.action with
  | deliver i =>
    simp only [haction] at he
    obtain ⟨msg, hmsg, hexpected⟩ := hinbox _ (List.getElem_mem he)
    simp only [List.getElem?_eq_getElem he, Result.unwrap_some, Result.bind_ok, hmsg]
    rw [Handler.receive_known hs.known]
    cases hexpected with
    | @rootUpdateResponse res hres =>
      have hneeds : h.needsUpdate res = false := by
        simp [Handler.needsUpdate, hs.blockdb, hroot, hres]
      simp only [hneeds, Bool.not_false, if_true]
      exact hr.quiet
    | blockRequest hreq =>
      obtain ⟨f, hf⟩ := hreq
      exact hr.blockRequest hcompact hs hsize hf
    | transferStatus hn => exact hr.transferStatus hs hn e.now
  | statusLoop addr =>
    simp only [haction, hs.tokens, List.not_mem_nil] at he
  | transferLoop i =>
    simp only [haction] at he
    obtain ⟨addr, wake, hloop, hwake⟩ := he
    exact hr.transferLoop hcompact hs hsize hloop hwake
  | requestRetry addr blockid =>
    simp only [haction] at he
    obtain ⟨c', hc', hmem⟩ := he
    by_cases haddr : addr = server
    · subst haddr
      obtain rfl := Option.some.inj (hs.known.symm.trans hc')
      simp [hs.pending] at hmem
    · rw [hs.only addr haddr] at hc'
      cases hc'

/-! ## Steps of the server -/

/-- What the client gets of a message that was sent. -/
def Delivers (root : BlockRef) (db : BlockDb) (transfers : List (Nat × Nat × BlockId)) (d : Bytes) : Prop :=
  ∃ msg, MyCodec.decode d = .ok (some msg) ∧ Expected root db transfers msg

variable {client : SocketAddr} {out : TransferOut} {capacity : Nat} {d : Bytes}

omit [Sealing] in
theorem Delivers.status (hs : Serving db out) {rs : Ranges} (hn : Named db out.transfers rs)
    (he : MyCodec.encode capacity (.TransferStatus { missingRanges := rs }) = .ok d) :
    Delivers root db out.transfers d := by
  obtain ⟨values, k, -, hdecode, -⟩ := MyCodec.decode_status (hs.named_lt hn) he
  exact ⟨_, hdecode, .transferStatus fun r hr => hn r (List.mem_of_mem_take hr)⟩

theorem Asks.act (ha : Asks client db h) (hr : Receiver client root db out.transfers h)
    (hs : Serving db out) (hall : AllFull db (.Directory, root)) {inbox : List Bytes} {e : Event}
    (hinbox : ∀ d ∈ inbox, ∀ msg, MyCodec.decode d = .ok (some msg) → FromSender root db out.transfers msg)
    (hact : h.act client inbox e = .ok (h', sent)) :
    Asks client db h' ∧ ∀ msg, (msg, client) ∈ sent → ∀ capacity d, MyCodec.encode capacity msg = .ok d →
      Delivers root db out.transfers d := by
  obtain ⟨rfl, rfl⟩ | ⟨i, d, msg, -, hd, hmsg, hact⟩ | ⟨addr, hact⟩ | ⟨i, hact⟩ |
    ⟨addr, blockid, hact⟩ := Handler.act_cases hact
  · exact ⟨ha, by simp⟩
  · have hfrom := hinbox d (List.mem_of_getElem? hd) msg hmsg
    refine ⟨ha.receive hr hs hall hfrom hact, fun msg' hmem capacity d' he => ?_⟩
    obtain ⟨res, rfl⟩ := sent_rootUpdateResponse hfrom hact _ hmem
    cases (hr.receive hs hfrom hact).2 _ hmem with
    | rootUpdateResponse hres =>
      exact ⟨_, MyCodec.decode_encode (by trivial) he, .rootUpdateResponse hres⟩
  · simp only [Handler.statusLoop, Result.bind_eq_ok, Result.pure_def, Result.ok.injEq,
      Prod.mk.injEq] at hact
    obtain ⟨_, -, rs, hrs, rfl, rfl⟩ := hact
    refine ⟨⟨ha.keyed, ha.pending⟩, fun msg hmem capacity d he => ?_⟩
    obtain ⟨rfl, rfl⟩ := Prod.mk.inj (List.mem_singleton.mp hmem)
    exact .status hs (outstanding_named hr hrs) he
  · simp [Handler.transferLoop, hr.loops] at hact
  · obtain ⟨rfl, rfl, c, hc, hpending⟩ := Handler.requestRetry_ok hact
    refine ⟨ha, fun msg hmem capacity d he => ?_⟩
    obtain ⟨rfl, rfl⟩ := Prod.mk.inj (List.mem_singleton.mp hmem)
    exact ⟨_, MyCodec.decode_encode (by trivial) he, .blockRequest (ha.pending c hc blockid hpending)⟩

/-! ## The session -/

/-- What keeps the client going. -/
structure Conversation (addrs : Addresses) (root : BlockRef) (db : BlockDb) (first : Nat) (s : System)
    (c : Client) : Prop where
  session : SystemInv addrs root db s c
  asks : Asks addrs.client db s.server
  ready : Ready addrs.server db first s.client
  delivers : ∀ d ∈ s.toClient, Delivers root db c.transferOut.transfers d

variable {addrs : Addresses} {s s' s₀ : System} {e : Event}

theorem Handler.enabled_of_act {inbox : List Bytes} (hact : h.act server inbox e = .ok (h', sent)) :
    h.Enabled inbox e := by
  unfold Handler.act at hact
  unfold Handler.Enabled
  cases haction : e.action with
  | deliver i =>
    simp only [haction, Result.bind_eq_ok, Result.unwrap_eq_ok] at hact
    obtain ⟨d, hd, -⟩ := hact
    exact (List.getElem?_eq_some_iff.mp hd).1
  | statusLoop addr =>
    simp only [haction, Handler.statusLoop, Result.bind_eq_ok, Result.assert_eq_ok] at hact
    obtain ⟨_, htoken, -⟩ := hact
    exact htoken
  | transferLoop i =>
    simp only [haction] at hact
    obtain ⟨addr, wake, hloop, hwake, -⟩ := Handler.transferLoop_ok hact
    exact ⟨addr, wake, hloop, hwake⟩
  | requestRetry addr blockid =>
    simp only [haction] at hact
    obtain ⟨-, -, hpending⟩ := Handler.requestRetry_ok hact
    exact hpending

theorem Conversation.step (hcompact : Serde.Compact) (hv : Conversation addrs root db first s c)
    (hroot : db.root = root) (hdb : Complete db) (hall : AllFull db (.Directory, root))
    (hsize : first + db.totalLen ≤ 2 ^ 63) (h : System.Step addrs s e s') :
    ∃ c', Conversation addrs root db first s' c' := by
  obtain ⟨c', hinv, hsub⟩ := hv.session.step hroot hdb h
  have hdelivers : ∀ d ∈ s.toClient, Delivers root db c'.transferOut.transfers d := by
    intro d hd
    obtain ⟨msg, hmsg, hexpected⟩ := hv.delivers d hd
    exact ⟨msg, hmsg, hexpected.mono hsub⟩
  obtain ⟨-, client, sent, datagrams, hact, -, rfl⟩ | ⟨-, server, sent, datagrams, hact, hpost, rfl⟩ :=
    System.step_cases h
  · obtain ⟨client', sent', hact', hready, -⟩ := hv.ready.act hcompact hv.session.sender hroot hsize
      hv.delivers (Handler.enabled_of_act hact)
    obtain ⟨rfl, rfl⟩ := Prod.mk.inj (Result.ok.inj (hact.symm.trans hact'))
    exact ⟨c', hinv, hv.asks, hready, hdelivers⟩
  · obtain ⟨hasks, hsent⟩ := hv.asks.act hv.session.receiver hv.session.sender.serving hall
      hv.session.toServer hact
    refine ⟨c', hinv, hasks, hv.ready, fun d hd => ?_⟩
    rcases List.mem_append.mp hd with hd | hd
    · exact hdelivers d hd
    · obtain ⟨msg, hmem, hencode⟩ := mem_post hpost hd
      obtain ⟨msg', hmsg', hexpected⟩ := hsent msg hmem _ d hencode
      exact ⟨msg', hmsg', hexpected.mono hsub⟩

theorem Conversation.reachable (hcompact : Serde.Compact) (hv : Conversation addrs root db first s c)
    (hroot : db.root = root) (hdb : Complete db) (hall : AllFull db (.Directory, root))
    (hsize : first + db.totalLen ≤ 2 ^ 63) (h : Reachable (System.Step addrs) s s') :
    ∃ c', Conversation addrs root db first s' c' := by
  apply Reachable.invariant (I := fun s => ∃ c, Conversation addrs root db first s c) h ⟨c, hv⟩
  rintro t e u ⟨c, hv⟩ hstep
  exact hv.step hcompact hroot hdb hall hsize hstep

/-- The client gets through each step that can come next. -/
theorem Conversation.goes (hcompact : Serde.Compact) (hv : Conversation addrs root db first s c)
    (hroot : db.root = root) (hsize : first + db.totalLen ≤ 2 ^ 63) (hpeer : e.peer = .client)
    (hnow : s.now ≤ e.now) (he : s.client.Enabled s.toClient e) : ∃ s', System.Step addrs s e s' := by
  obtain ⟨client, sent, hact, -, hpost⟩ :=
    hv.ready.act hcompact hv.session.sender hroot hsize hv.delivers he
  obtain ⟨datagrams, hpost⟩ := hpost e.capacity
  refine ⟨{ s with client, toServer := s.toServer ++ datagrams, now := e.now }, ?_⟩
  simp only [System.Step, System.next, hpeer, Result.assert_of hnow, Result.bind_ok, hact, hpost,
    Result.pure_def]

variable {client : Opt} {server : Opt} {rand : UInt32} {nonce : Vector UInt8 12}

theorem Conversation.start (htree : client.tree.WellFormed)
    (hno : NoCollision (client.blocks ++ server.blocks))
    (h : System.start addrs client server rand nonce capacity = .ok s₀) :
    ∃ root c, folderBlocks client.rand client.files client.tree = .ok (root, client.blocks) ∧
      s₀.client.blockdb = BlockDb.new root (insertAll client.blocks) ∧
      RootRepresents (Holds (BlockDb.new root (insertAll client.blocks))) root client.tree ∧
      Conversation addrs root (BlockDb.new root (insertAll client.blocks)) rand.toNat s₀ c := by
  obtain ⟨root, c, hblocks, hdb, hinv⟩ := SystemInv.start hno h
  have hreps := folderBlocks_represents htree hblocks fun f hf g hg =>
    hno f (by simp [hf]) g (by simp [hg])
  obtain ⟨root₁, root', datagrams, hblocks₁, -, rfl⟩ := start_ok h
  refine ⟨root, c, hblocks, hdb, hreps, hinv, .of_none ?_ rfl, ⟨by simp [Handler.new], ?_⟩, by simp⟩
  · intro id block hblock
    obtain ⟨f, -, hid, rfl⟩ := insertAll_lookup hblock
    exact hid
  · intro c' hc'
    obtain rfl := Option.some.inj (Handler.setClient_lookup.symm.trans hc')
    exact ⟨by simp [Named, Client.default, TransferOut.default], by simp [Client.default, TransferOut.default],
      by simp [Client.default, TransferOut.default]⟩

/-- As long as the chunk ids do not run out, the client panics in no step of a session, whatever is lost,
delayed or delivered again. -/
theorem client_never_panics (hcompact : Serde.Compact) (htree : client.tree.WellFormed)
    (hno : NoCollision (client.blocks ++ server.blocks))
    (hstart : System.start addrs client server rand nonce capacity = .ok s₀)
    (hsize : rand.toNat + s₀.client.blockdb.totalLen ≤ 2 ^ 63)
    (hreach : Reachable (System.Step addrs) s₀ s) (hpeer : e.peer = .client) (hnow : s.now ≤ e.now)
    (he : s.client.Enabled s.toClient e) : ∃ s', System.Step addrs s e s' := by
  obtain ⟨root, c₀, -, hdb, hreps, hv₀⟩ := Conversation.start htree hno hstart
  rw [hdb] at hsize
  obtain ⟨c, hv⟩ := hv₀.reachable hcompact rfl (insertAll_complete root client.blocks) hreps.allFull hsize
    hreach
  exact hv.goes hcompact rfl hsize hpeer hnow he

end Sealing

end Serde

/-! ## A session with one file -/

theorem blockIdCode_atMost : blockIdCode.AtMost (9 + 32 * 9) := Code.u8_atMost.vector (by decide)

theorem serde_compact :
    letI := serde
    Serde.Compact := by
  let _ := serde
  constructor
  case chunkid => exact fun n hn => Leb128.write_length_of_lt (k := 8) hn 10
  case rootUpdateResponse =>
    have h : rootUpdateResponseCode.AtMost _ := ((blockIdCode_atMost.after _).prod
      ((blockIdCode_atMost.after _).prod ((Code.u8_atMost.vector (by decide)).after _))).via.after _
    exact fun res => (h res).trans_lt (by decide +kernel)
  case blockRequest =>
    have h : blockRequestCode.AtMost _ := (blockIdCode_atMost.after _).via.after _
    exact fun req => (h req).trans_lt (by decide +kernel)
  case blockRequestResponse =>
    have h : blockRequestResponseCode.AtMost _ := ((blockIdCode_atMost.after _).prod
      ((Code.u64_atMost.after _).prod ((Code.u64_atMost.after _).prod (Code.u64_atMost.after _)))).via.after _
    exact fun res => (h res).trans_lt (by decide +kernel)

section Requested

variable [Serde] [Sealing]

/-- How many datagrams are on the way to the client when the server has asked for the folder. -/
def requested (name : OsString) : Result Nat := do
  let s₀ ← startOf name
  Result.assert ((9 : UInt32).toNat + s₀.client.blockdb.totalLen < 2 ^ 63)
  let s ← replay (System.next ends) s₀ ((script name).take 2)
  Result.assert (s.now ≤ 0)
  return s.toClient.length

end Requested

theorem client_never_panics_requested :
    letI := serde
    letI := sealing
    ∃ s₀ s s', startOf plainName = .ok s₀ ∧ Reachable (System.Step ends) s₀ s ∧
      System.Step ends s (eventOf .client (.deliver 0)) s' := by
  let _ := serde
  let _ := sealing
  have hrequested : requested plainName = .ok 1 := by decide +kernel
  simp only [requested, Result.bind_eq_ok, Result.assert_eq_ok, Result.pure_def, Result.ok.injEq] at hrequested
  obtain ⟨s₀, hstart, _, hsize, s, hrun, _, hnow, hlength⟩ := hrequested
  have hreach : Reachable (System.Step ends) s₀ s := replay_reachable (fun _ _ _ h => h) hrun
  obtain ⟨s', hstep⟩ := client_never_panics (e := eventOf .client (.deliver 0)) serde_compact
    (clientOpt_wellFormed ⟨by decide, by decide, by decide, by decide, by decide⟩) plainName_noCollision hstart
    hsize.le hreach rfl hnow (show 0 < s.toClient.length by omega)
  exact ⟨s₀, s, s', hstart, hreach, hstep⟩

end DasProtokoll.Scsync
