import DasProtokoll.Scsync.ClientTotal

/-!
# One block goes over

When nothing is lost, a block that the server asks for arrives chunk by chunk. The
client is idle before and after it.
-/

namespace DasProtokoll.Scsync

open DasProtokoll

def Peer.does (peer : Peer) (action : Action) (now fuel : Nat) : Event :=
  { peer, action, now, fuel, rand := 0, capacity := 0 }

/-- The payload of a chunk of a block whose first chunk id is `start`. -/
def chunkOf (f : Full) (start i : Nat) : TransferPayload :=
  { chunkid := start + i, data := slice f.data (i * chunkSize) chunkSize }

/-- The folder of the client, and what it needs so that all of it can go over. -/
structure Source [Sealing] (root : BlockRef) (db : BlockDb) (first : Nat) (F : Forest) : Prop where
  isRoot : db.root = root
  complete : Complete db
  represents : RootRepresents (Holds db) root F
  size : first + db.totalLen < 2 ^ 63
  nonempty : ∀ id f, Holds db id f → f.data ≠ []
  unique : ∀ n m, DirReaches db (.Directory, root) n → DirReaches db (.Directory, root) m →
    n.2.blockid = m.2.blockid → n = m

/-- The server has the first `i` of `n` chunks of one block. Apart from that it is as the node `o`. -/
structure Storing (client : SocketAddr) (o : Handler) (waiting : Finset BlockId) (t : Transfer) (n i : Nat)
    (h : Handler) : Prop where
  known : ∃ k, h.clients.lookup client = some k ∧ k.pendingBlockRequests = waiting ∧
    k.transferIn = { transfers := [t], statusTx := true }
  block : ∃ p, h.blockdb = o.blockdb.set t.blockid (.Partial p) ∧ p.id = t.blockid ∧
    p.available = List.replicate i true ++ List.replicate (n - i) false
  folder : h.folder = o.folder
  fs : h.fs = o.fs

section Serde

variable [Serde] [Sealing] {addrs : Addresses} {s s' : System} {h h' : Handler} {c k : Client} {sent : Sent}
  {now fuel : Nat} {action : Action} {datagrams : List Bytes}

/-! ## Steps -/

theorem System.client_step (hnow : s.now ≤ now)
    (hact : s.client.act addrs.server s.toClient (Peer.client.does action now fuel) = .ok (h', sent))
    (hpost : post 0 addrs.server sent = .ok datagrams) :
    Step addrs s (Peer.client.does action now fuel)
      { s with client := h', toServer := s.toServer ++ datagrams, now } := by
  have hnow' : s.now ≤ (Peer.client.does action now fuel).now := hnow
  simp only [Step, next, Result.assert_of hnow', Result.bind_ok]
  simp only [Peer.does] at hact ⊢
  simp only [hact, hpost, Result.bind_ok, Result.pure_def]

theorem System.server_step (hnow : s.now ≤ now)
    (hact : s.server.act addrs.client s.toServer (Peer.server.does action now fuel) = .ok (h', sent))
    (hpost : post 0 addrs.client sent = .ok datagrams) :
    Step addrs s (Peer.server.does action now fuel)
      { s with server := h', toClient := s.toClient ++ datagrams, now } := by
  have hnow' : s.now ≤ (Peer.server.does action now fuel).now := hnow
  simp only [Step, next, Result.assert_of hnow', Result.bind_ok]
  simp only [Peer.does] at hact ⊢
  simp only [hact, hpost, Result.bind_ok, Result.pure_def]

theorem System.client_quiet (hnow : s.now ≤ now)
    (hact : s.client.act addrs.server s.toClient (Peer.client.does action now fuel) = .ok (h', [])) :
    Step addrs s (Peer.client.does action now fuel) { s with client := h', now } := by
  have hstep := client_step hnow hact rfl
  rwa [List.append_nil] at hstep

theorem System.server_quiet (hnow : s.now ≤ now)
    (hact : s.server.act addrs.client s.toServer (Peer.server.does action now fuel) = .ok (h', [])) :
    Step addrs s (Peer.server.does action now fuel) { s with server := h', now } := by
  have hstep := server_step hnow hact rfl
  rwa [List.append_nil] at hstep

theorem Handler.act_deliver (peer : Peer) (now fuel : Nat) {from_ : SocketAddr} {inbox pre rest : List Bytes}
    {d : Bytes} {msg : Msg} (hinbox : inbox = pre ++ d :: rest)
    (hmsg : MyCodec.decode d = .ok (some msg)) :
    h.act from_ inbox (peer.does (.deliver pre.length) now fuel) = h.receive fuel now 0 from_ msg := by
  have hd : inbox[pre.length]? = some d := by simp [hinbox]
  simp only [act, Peer.does, hd, Result.unwrap_some, Result.bind_ok, hmsg]

theorem System.ask (hcompact : Serde.Compact) (hk : s.server.clients.lookup addrs.client = some k)
    {id : BlockId} (hid : id ∈ k.pendingBlockRequests) :
    ∃ d, MyCodec.decode d = .ok (some (.BlockRequest { blockid := id })) ∧
      Reachable (Step addrs) s { s with toClient := s.toClient ++ [d] } := by
  have hencode : MyCodec.encode 0 (.BlockRequest { blockid := id }) = .ok _ :=
    MyCodec.putWriter_total (hcompact.blockRequest _)
  have hact : s.server.act addrs.client s.toServer
      (Peer.server.does (.requestRetry addrs.client id) s.now 0) =
        .ok (s.server, [(.BlockRequest { blockid := id }, addrs.client)]) := by
    simp only [Handler.act, Peer.does, Handler.requestRetry, Handler.client_eq_ok.mpr hk, Result.bind_ok,
      Result.assert_of hid, Result.pure_def]
  exact ⟨_, MyCodec.decode_encode (by trivial) hencode,
    Reachable.refl.snoc (server_step le_rfl hact (post_one hencode))⟩

variable {root : BlockRef} {db : BlockDb} {first : Nat} {F : Forest} {f : Full} {id : BlockId}
  {pre : List Bytes} {d : Bytes}

omit [Serde] in
theorem Source.length_lt (src : Source root db first F) (hf : Holds db id f) : f.data.length < 2 ^ 63 := by
  have hle := BlockDb.sum_len_le db (List.nodup_singleton id) fun i hi => by
    rw [List.mem_singleton.mp hi]
    exact ⟨_, hf⟩
  have hlookup : db.lookup id = some (.Full f) := hf
  simp only [List.map_cons, List.map_nil, List.sum_singleton, hlookup, Option.map_some, Option.getD_some,
    Block.len] at hle
  exact hle.trans_lt ((Nat.le_add_left _ _).trans_lt src.size)

theorem System.answer (hcompact : Serde.Compact) (src : Source root db first F)
    (hv : Conversation addrs root db first s c) (hinbox : s.toClient = pre ++ [d])
    (hmsg : MyCodec.decode d = .ok (some (.BlockRequest { blockid := id }))) (hf : Holds db id f) :
    ∃ out res d', out.cursor = c.transferOut.cursor ∧ IsResponse db out.transfers res ∧ res.blockid = id ∧
      MyCodec.decode d' = .ok (some (.BlockRequestResponse res)) ∧
      Reachable (Step addrs) s { s with
        client := s.client.setClient addrs.server { c with transferOut := out }
        toServer := s.toServer ++ [d'] } := by
  have hs := hv.session.sender
  obtain ⟨⟨t, out⟩, halloc⟩ := Ready.allocate (hv.ready.known c hs.known) hs src.size.le hf
  have hcursor : out.cursor = c.transferOut.cursor := by
    obtain ⟨-, -, rfl⟩ | ⟨block, -, -, -, -, rfl⟩ := Handler.allocate_ok halloc <;> rfl
  obtain ⟨res, hid, hrequest⟩ : ∃ res : BlockRequestResponse, res.blockid = id ∧
      s.client.blockRequest addrs.server { blockid := id } =
        .ok (s.client.setClient addrs.server { c with transferOut := out },
          [(.BlockRequestResponse res, addrs.server)]) :=
    ⟨_, rfl, Handler.blockRequest_eq hs.known (hs.blockdb.symm ▸ halloc) (hs.blockdb.symm ▸ hf)⟩
  obtain ⟨c', hs', -, hsent⟩ : ∃ c', Sender addrs.server db _ c' ∧ _ ∧
      ∀ m ∈ [(Msg.BlockRequestResponse res, addrs.server)],
        FromSender root db c'.transferOut.transfers m.1 := hs.blockRequest src.complete hrequest
  obtain rfl := Option.some.inj (hs'.known.symm.trans Handler.setClient_lookup)
  cases hsent _ (List.mem_singleton_self _) with
  | blockRequestResponse hres =>
    have hencode : MyCodec.encode 0 (.BlockRequestResponse res) = .ok _ :=
      MyCodec.putWriter_total (hcompact.blockRequestResponse res)
    have hact := (Handler.act_deliver .client s.now 0 hinbox hmsg).trans
      ((Handler.receive_known hs.known).trans hrequest)
    exact ⟨out, res, _, hcursor, hres, hid, MyCodec.decode_encode (by trivial) hencode,
      Reachable.refl.snoc (client_step le_rfl hact (post_one hencode))⟩

/-! ## The server waits for chunks -/

variable {client : SocketAddr} {o : Handler} {waiting : Finset BlockId} {t : Transfer} {n i : Nat}

omit [Serde] [Sealing] in
theorem Storing.start (hk : o.clients.lookup client = some k) (hfree : k.transferIn.transfers = [])
    {res : BlockRequestResponse} (hnone : o.blockdb.lookup res.blockid = none)
    (hlen : res.len.toNat < 2 ^ 63) :
    ∃ h, o.blockRequestResponse client res = .ok h ∧ client ∈ h.statusTokens ∧
      Storing client o (k.pendingBlockRequests.erase res.blockid) (Handler.announced res)
        (numChunks res.len.toNat) 0 h := by
  have hadd : o.blockdb.add (.Partial (Handler.emptyBlock res.blockid res.len.toNat)) = _ :=
    BlockDb.add_of_none hnone
  simp only [Handler.blockRequestResponse, Handler.client_eq_ok.mpr hk, Result.bind_ok,
    Result.assert_of hlen, hfree, List.nil_append, List.length_singleton, if_true, Result.pure_def]
  refine ⟨_, rfl, by simp, ⟨_, Handler.setClient_lookup, rfl, by simp [Handler.announced]⟩, ⟨_, hadd, rfl, ?_⟩,
    rfl, rfl⟩
  simp [Handler.emptyBlock, numChunks]

omit [Serde] [Sealing] in
theorem Storing.setTokens (hs : Storing client o waiting t n i h) (tokens : List SocketAddr) :
    Storing client o waiting t n i { h with statusTokens := tokens } :=
  ⟨hs.known, hs.block, hs.folder, hs.fs⟩

omit [Serde] [Sealing] in
theorem missing_none {sdb : BlockDb} {p : Partial} (hp : sdb.lookup t.blockid = some (.Partial p))
    (havailable : p.available = List.replicate n false) (hn : 0 < n) :
    missing sdb t = [(t.start, t.start + n)] := by
  have hsplit : (List.replicate n false).splitBy (· == ·) = [List.replicate n false] := by
    apply List.splitBy_of_isChain
    · simpa using hn.ne'
    · exact List.isChain_replicate_of_rel n rfl
  have hhead : (List.replicate n false).head? = some false := by
    rw [List.head?_replicate, if_neg hn.ne']
  simp [missing, availableOf, hp, havailable, hsplit, Handler.missingGroups, hhead]

theorem System.tell (hs : Storing addrs.client o waiting t n 0 s.server)
    (htoken : addrs.client ∈ s.server.statusTokens) (hn : 0 < n) (hids : t.start + n < u64Size) :
    ∃ d tokens, MyCodec.decode d =
        .ok (some (.TransferStatus { missingRanges := [(t.start, t.start + n)] })) ∧
      Reachable (Step addrs) s { s with
        server := { s.server with statusTokens := tokens }
        toClient := s.toClient ++ [d] } := by
  obtain ⟨k, hk, -, htransfers⟩ := hs.known
  obtain ⟨p, hdb, -, havailable⟩ := hs.block
  have hp : s.server.blockdb.lookup t.blockid = some (.Partial p) := by
    rw [hdb]
    exact BlockDb.lookup_set_self
  have hparts : AllPartial s.server.blockdb [t] := by
    intro t' ht'
    obtain rfl := List.mem_singleton.mp ht'
    exact ⟨p, hp⟩
  have hranges : Handler.missingRanges s.server.blockdb k.transferIn.transfers =
      .ok [(t.start, t.start + n)] := by
    rw [htransfers, missingRanges_eq hparts, List.flatMap_singleton,
      missing_none hp (by simpa using havailable) hn]
  have hvalues : MyCodec.differences 0 (MyCodec.bounds [(t.start, t.start + n)]) = .ok [t.start, n] := by
    simp [MyCodec.bounds, MyCodec.differences, Result.assert_of]
  have hrs : ∀ r ∈ [(t.start, t.start + n)], r.1 < u64Size ∧ r.2 < u64Size := by
    intro r hr
    obtain rfl := List.mem_singleton.mp hr
    exact ⟨by omega, hids⟩
  have hshort : 1 + Varint.lenAll [t.start, n] ≤ mtu := by
    have := Varint.len_le t.start
    have := Varint.len_le n
    simp only [Varint.lenAll_cons, Varint.lenAll_nil, mtu]
    omega
  obtain ⟨d, hencode⟩ : ∃ d, MyCodec.encode 0 (.TransferStatus _) = .ok d :=
    (MyCodec.encode_status_ok_iff hrs hvalues).mpr (by omega)
  obtain ⟨values, j, hvalues', hdecode, hwhole⟩ := MyCodec.decode_status hrs hencode
  obtain rfl := Result.ok.inj (hvalues.symm.trans hvalues')
  rw [hwhole hshort] at hdecode
  have hact : s.server.act addrs.client s.toServer
      (Peer.server.does (.statusLoop addrs.client) s.now 0) = .ok _ :=
    Handler.statusLoop_eq hk htoken hranges
  exact ⟨d, _, hdecode, Reachable.refl.snoc (server_step le_rfl hact (post_one hencode))⟩

/-! ## The client sends chunks -/

variable {server : SocketAddr} {a b : Nat}

/-- The client is at chunk `i` of the block, if there is one, and its loop is alive. -/
structure Sending (server : SocketAddr) (db : BlockDb) (a b : Nat) (id : BlockId) (n i : Nat) (h : Handler) :
    Prop where
  blockdb : h.blockdb = db
  known : ∃ c, h.clients.lookup server = some c ∧ Serving db c.transferOut ∧
    (a, b, id) ∈ c.transferOut.transfers ∧ c.transferOut.todo = [(a, a + n)] ∧
    c.transferOut.cursor = if i < n then some (a + i) else none
  loops : ∃ wake, h.transferLoops = [(server, wake)]

omit [Serde] [Sealing] in
theorem firstFrom_single (hi : i < n) :
    Ranges.firstFrom [(a, a + n)] (a + i + 1) = if i + 1 < n then some (a + (i + 1)) else none := by
  split
  · rename_i hlt
    have hfound : a + i + 1 < a + n := by omega
    simp [Ranges.firstFrom, hfound]
    omega
  · rename_i hge
    rw [Ranges.firstFrom_eq_none]
    intro r hr
    obtain rfl := List.mem_singleton.mp hr
    simp only
    omega

omit [Serde] [Sealing] in
theorem Sending.next (hs : Sending server db a b id n i h) (hf : Holds db id f)
    (hn : n = numChunks f.data.length) (hi : i < n) :
    ∃ wake, ∀ now ≥ wake, ∃ h', h.transferLoop now 0 =
        .ok (h', [(.TransferPayload (chunkOf f a i), server)]) ∧ Sending server db a b id n (i + 1) h' := by
  obtain ⟨hblockdb, ⟨c, hc, hserving, ht, htodo, hcursor⟩, wake, hloops⟩ := hs
  subst hblockdb
  obtain ⟨f', hf', hb⟩ := hserving.blocks _ ht
  obtain rfl := BlockDb.full_unique hf hf'
  have hle := numChunks_le f.data.length
  have hplace : a ≤ a + i ∧ a + i < b := by
    simp only at hb
    omega
  have hpos := chunk_start_lt (hn ▸ hi)
  have hbelow := hserving.below _ ht
  have hbounded := hserving.bounded
  have h64 : (a + i - a) * chunkSize < u64Size := by
    rw [Nat.add_sub_cancel_left]
    simp only at hb hbelow
    omega
  rw [if_pos hi] at hcursor
  obtain ⟨payload, hid, ⟨t', ht', f', hf', hlo, hhi, hdata⟩, hnext⟩ :=
    Handler.nextPayload_some hc hcursor hserving ht hplace.1 hplace.2 h64
  rw [hid] at hlo hhi hdata
  obtain rfl := hserving.unique ht ht' hplace ⟨hlo, hhi⟩
  obtain rfl := BlockDb.full_unique hf hf'
  have hpayload : payload = chunkOf f a i := by
    cases payload
    simp only at hid hdata
    subst hid hdata
    simp [chunkOf]
  refine ⟨wake, fun now hnow => ?_⟩
  simp only [Handler.transferLoop, hloops, List.getElem?_cons_zero, Result.unwrap_some, Result.bind_ok,
    Result.assert_of hnow, hnext, hpayload, Result.pure_def]
  refine ⟨_, rfl, rfl, ⟨_, Handler.setClient_lookup, ?_, ht, htodo, ?_⟩, now + h.packetDelay, by simp [hloops]⟩
  · exact ⟨hserving.ordered, hserving.below, hserving.blocks, hserving.bounded⟩
  · rw [htodo]
    exact firstFrom_single hi

omit [Serde] [Sealing] in
theorem Sending.done (hs : Sending server db a b id n n h) :
    ∃ wake c, h.clients.lookup server = some c ∧ c.transferOut.cursor = none ∧ ∀ now ≥ wake,
      h.transferLoop now 0 = .ok ({ h with transferLoops := [] }, []) := by
  obtain ⟨-, ⟨c, hc, -, -, -, hcursor⟩, wake, hloops⟩ := hs
  rw [if_neg (lt_irrefl n)] at hcursor
  refine ⟨wake, c, hc, hcursor, fun now hnow => ?_⟩
  simp only [Handler.transferLoop, hloops, List.getElem?_cons_zero, Result.unwrap_some, Result.bind_ok,
    Result.assert_of hnow, Handler.nextPayload_none hc hcursor, Result.pure_def, List.eraseIdx_cons_zero]

/-- The datagrams carry the chunks of the block from `i` on. -/
def Carries (f : Full) (a n i : Nat) (datagrams : List Bytes) : Prop :=
  List.Forall₂ (fun d j => MyCodec.decode d = .ok (some (.TransferPayload (chunkOf f a j)))) datagrams
    (List.range' i (n - i))

theorem System.send (hcompact : Serde.Compact) (hf : Holds db id f) (hn : n = numChunks f.data.length)
    (hids : a + n ≤ 2 ^ 63) (hs : Sending addrs.server db a b id n i s.client) (hi : i ≤ n) :
    ∃ s' datagrams, Reachable (Step addrs) s s' ∧ s'.server = s.server ∧ s'.toClient = s.toClient ∧
      s'.toServer = s.toServer ++ datagrams ∧ Carries f a n i datagrams ∧ s'.client.transferLoops = [] ∧
      ∃ c, s'.client.clients.lookup addrs.server = some c ∧ c.transferOut.cursor = none := by
  induction hj : n - i generalizing s i with
  | zero =>
    obtain rfl : i = n := by omega
    obtain ⟨wake, c, hc, hcursor, hloop⟩ := hs.done
    have hact : s.client.act addrs.server s.toClient
        (Peer.client.does (.transferLoop 0) (max s.now wake) 0) = .ok _ := hloop _ (le_max_right _ _)
    refine ⟨_, [], Reachable.refl.snoc (client_step (le_max_left _ _) hact rfl), rfl, rfl, rfl, ?_, rfl,
      c, hc, hcursor⟩
    rw [Carries, hj]
    exact .nil
  | succ j ih =>
    obtain ⟨wake, hnext⟩ := hs.next hf hn (by omega)
    obtain ⟨h', hloop, hs'⟩ := hnext (max s.now wake) (le_max_right _ _)
    have hact : s.client.act addrs.server s.toClient
        (Peer.client.does (.transferLoop 0) (max s.now wake) 0) = .ok _ := hloop
    have hlen : (chunkOf f a i).data.length ≤ chunkSize := by
      rw [chunkOf, slice_length]
      exact min_le_left _ _
    have hid : (chunkOf f a i).chunkid < 2 ^ 63 := by
      simp only [chunkOf]
      omega
    obtain ⟨d, hencode⟩ := encode_payload_total hcompact 0 hid hlen
    have hwhole : MyCodec.Whole (.TransferPayload (chunkOf f a i)) := hid.trans (by decide)
    have hstep := client_step (le_max_left _ _) hact (post_one hencode)
    obtain ⟨s', datagrams, hreach, hserver, htoClient, htoServer, hcarries, hidle⟩ :=
      ih (s := { s with client := h', toServer := s.toServer ++ [d], now := max s.now wake }) hs'
        (by omega) (by omega)
    refine ⟨s', d :: datagrams, (Reachable.refl.snoc hstep).trans hreach, hserver, htoClient, ?_, ?_, hidle⟩
    · rw [htoServer, List.append_assoc, List.singleton_append]
    · rw [Carries, show n - i = n - (i + 1) + 1 by omega, List.range'_succ]
      exact .cons (MyCodec.decode_encode hwhole hencode) hcarries

/-! ## The server stores chunks -/

omit [Serde] [Sealing] in
theorem set_next (hi : i < n) :
    (List.replicate i true ++ List.replicate (n - i) false).set i true =
      List.replicate (i + 1) true ++ List.replicate (n - (i + 1)) false := by
  rw [List.set_append_right _ _ (by simp), List.length_replicate, Nat.sub_self,
    show n - i = n - (i + 1) + 1 by omega, List.replicate_succ, List.set_cons_zero, List.replicate_succ',
    List.append_assoc, List.singleton_append]

omit [Serde] [Sealing] in
theorem Storing.accepts (hs : Storing client o waiting t n i h)
    (hparts : ∀ p, h.blockdb.lookup t.blockid = some (.Partial p) → Arrived p f)
    (hn : n = numChunks f.data.length) (hstop : t.start + n ≤ t.stop) (hi : i < n) :
    ∃ k p, h.Accepts client (chunkOf f t.start i) k t p ∧ k.pendingBlockRequests = waiting ∧
      k.transferIn = { transfers := [t], statusTx := true } ∧
      h.blockdb = o.blockdb.set t.blockid (.Partial p) ∧ p.id = t.blockid ∧
      (Handler.stored t p (chunkOf f t.start i)).available =
        List.replicate (i + 1) true ++ List.replicate (n - (i + 1)) false := by
  obtain ⟨k, hk, hwaiting, htransfers⟩ := hs.known
  obtain ⟨p, hdb, hid, havailable⟩ := hs.block
  have hp : h.blockdb.lookup t.blockid = some (.Partial p) := by
    rw [hdb]
    exact BlockDb.lookup_set_self
  have harrived := hparts p hp
  have hpos := chunk_start_lt (hn ▸ hi)
  have hindex : (chunkOf f t.start i).chunkid - t.start = i := Nat.add_sub_cancel_left _ _
  have hlen : (chunkOf f t.start i).data.length = min chunkSize (f.data.length - i * chunkSize) :=
    slice_length _ _ _
  have htransfer : k.transferIn.transfer (chunkOf f t.start i).chunkid = .ok t := by
    have hin : t.start ≤ t.start + i ∧ t.start + i < t.stop := by omega
    simp [TransferIn.transfer, htransfers, chunkOf, hin]
  refine ⟨k, p, ⟨hk, by rw [htransfers], htransfer, hp, ?_, ?_, ?_⟩, hwaiting, htransfers, hdb, hid, ?_⟩
  · rw [hindex, hlen, harrived.length]
    omega
  · rw [hlen]
    exact min_le_left _ _
  · rw [hindex, harrived.chunks, ← hn]
    exact hi
  · simp only [Handler.stored, hindex, havailable]
    exact set_next hi

omit [Serde] in
theorem Storing.next (fuel : Nat) (hs : Storing client o waiting t n i h)
    (hparts : ∀ p, h.blockdb.lookup t.blockid = some (.Partial p) → Arrived p f)
    (hn : n = numChunks f.data.length) (hstop : t.start + n ≤ t.stop) (hi : i + 1 < n) :
    ∃ h', h.transferPayload fuel client (chunkOf f t.start i) = .ok (h', []) ∧
      Storing client o waiting t n (i + 1) h' := by
  obtain ⟨k, p, haccepts, hwaiting, htransfers, hdb, hid, havailable⟩ :=
    hs.accepts hparts hn hstop (by omega)
  have hmissing : ¬ Handler.Whole (Handler.stored t p (chunkOf f t.start i)) := by
    intro hwhole
    have hfalse := hwhole false (by rw [havailable]; simp; omega)
    cases hfalse
  refine ⟨h.withChunk client t p (chunkOf f t.start i), ?_, ⟨k, haccepts.known, hwaiting, htransfers⟩,
    ⟨Handler.stored t p (chunkOf f t.start i), ?_, hid, havailable⟩, hs.folder, hs.fs⟩
  · rw [Handler.transferPayload, Handler.receiveChunk_missing haccepts hmissing]
    rfl
  · simp only [Handler.withChunk, hdb, BlockDb.set, Finmap.insert_insert]

omit [Serde] [Sealing] in
theorem Storing.last (hs : Storing client o waiting t n (n - 1) h)
    (hparts : ∀ p, h.blockdb.lookup t.blockid = some (.Partial p) → Arrived p f)
    (hn : n = numChunks f.data.length) (hstop : t.start + n ≤ t.stop) (hpos : 0 < n) :
    ∃ k p g, h.Accepts client (chunkOf f t.start (n - 1)) k t p ∧
      Handler.Whole (Handler.stored t p (chunkOf f t.start (n - 1))) ∧
      Handler.completed h.blockdb t p (chunkOf f t.start (n - 1)) =
        o.blockdb.set t.blockid (.Full g) ∧
      g.id = t.blockid ∧ g.data = f.data ∧ k.pendingBlockRequests = waiting ∧
      k.transferIn = { transfers := [t], statusTx := true } := by
  obtain ⟨k, p, haccepts, hwaiting, htransfers, hdb, hid, havailable⟩ :=
    hs.accepts hparts hn hstop (by omega)
  have hwhole : Handler.Whole (Handler.stored t p (chunkOf f t.start (n - 1))) := by
    intro b hb
    rw [havailable, show n - (n - 1 + 1) = 0 by omega, List.replicate_zero, List.append_nil] at hb
    exact (List.mem_replicate.mp hb).2
  have hdata : (Handler.stored t p (chunkOf f t.start (n - 1))).data = f.data := by
    refine ((hparts p haccepts.block).stored haccepts.index ?_).complete hwhole
    simp [chunkOf]
  refine ⟨k, p, Handler.promoted (Handler.stored t p (chunkOf f t.start (n - 1))), haccepts, hwhole, ?_, hid,
    hdata, hwaiting, htransfers⟩
  simp only [Handler.completed, hdb, BlockDb.set, Finmap.insert_insert]

omit [Sealing] in
theorem Conversation.arrived (hv : Conversation addrs root db first s c) (hf : Holds db id f) :
    ∀ p, s.server.blockdb.lookup id = some (.Partial p) → Arrived p f := by
  intro p hp
  obtain ⟨f', hf', harrived⟩ := hv.session.receiver.parts id p hp
  obtain rfl := BlockDb.full_unique hf hf'
  exact harrived

theorem System.store (hcompact : Serde.Compact) (src : Source root db first F)
    (hv : Conversation addrs root db first s c) (hf : Holds db t.blockid f)
    (hs : Storing addrs.client o waiting t n i s.server) (hn : n = numChunks f.data.length)
    (hstop : t.start + n ≤ t.stop) (hi : i < n) (htoServer : s.toServer = pre ++ datagrams)
    (hcarries : Carries f t.start n i datagrams) :
    ∃ h pre' d, Reachable (Step addrs) s { s with server := h } ∧
      Storing addrs.client o waiting t n (n - 1) h ∧ s.toServer = pre' ++ [d] ∧
      MyCodec.decode d = .ok (some (.TransferPayload (chunkOf f t.start (n - 1)))) := by
  induction hj : n - 1 - i generalizing s c i pre datagrams with
  | zero =>
    obtain rfl : i = n - 1 := by omega
    rw [Carries, show n - (n - 1) = 1 by omega, List.range'_one] at hcarries
    obtain ⟨d, rest, hd, hrest, rfl⟩ := List.forall₂_cons_right_iff.mp hcarries
    obtain rfl := List.forall₂_nil_right_iff.mp hrest
    exact ⟨s.server, pre, d, .refl, hs, htoServer, hd⟩
  | succ j ih =>
    rw [Carries, show n - i = n - (i + 1) + 1 by omega, List.range'_succ] at hcarries
    obtain ⟨d, rest, hd, hrest, rfl⟩ := List.forall₂_cons_right_iff.mp hcarries
    obtain ⟨h', hpayload, hs'⟩ := hs.next 0 (hv.arrived hf) hn hstop (by omega)
    obtain ⟨k, hk, -⟩ := hs.known
    have hact := (Handler.act_deliver .server s.now 0 htoServer hd).trans
      ((Handler.receive_known hk).trans hpayload)
    have hstep := server_quiet le_rfl hact
    obtain ⟨c', hv'⟩ := hv.step hcompact src.isRoot src.complete src.represents.allFull src.size.le hstep
    obtain ⟨h, pre', d', hreach, hdone⟩ := ih (s := { s with server := h' }) hv' hs' (by omega)
      (show s.toServer = (pre ++ [d]) ++ rest by simp [htoServer]) hrest (by omega)
    exact ⟨h, pre', d', (Reachable.refl.snoc hstep).trans hreach, hdone⟩

/-! ## All of it -/

omit [Sealing] in
theorem Conversation.known (hv : Conversation addrs root db first s c)
    (hc : s.client.clients.lookup addrs.server = some k) : k = c :=
  Option.some.inj (hc.symm.trans hv.session.sender.known)

theorem System.announce (hcompact : Serde.Compact) (src : Source root db first F)
    (hv : Conversation addrs root db first s c) (hcursor : c.transferOut.cursor = none)
    (hloops : s.client.transferLoops = []) (hk : s.server.clients.lookup addrs.client = some k)
    (hfree : k.transferIn.transfers = []) (hid : id ∈ k.pendingBlockRequests)
    (hnone : s.server.blockdb.lookup id = none) (hf : Holds db id f) :
    ∃ s' t, Reachable (Step addrs) s s' ∧ t.blockid = id ∧ addrs.client ∈ s'.server.statusTokens ∧
      Storing addrs.client s.server (k.pendingBlockRequests.erase id) t (numChunks f.data.length) 0
        s'.server ∧
      s'.client.transferLoops = [] ∧ ∃ c', s'.client.clients.lookup addrs.server = some c' ∧
        c'.transferOut.cursor = none ∧ (t.start, t.stop, id) ∈ c'.transferOut.transfers := by
  obtain ⟨d₁, hd₁, hask⟩ := System.ask hcompact hk hid
  obtain ⟨c₁, hv₁⟩ := hv.reachable hcompact src.isRoot src.complete src.represents.allFull src.size.le hask
  obtain rfl := hv₁.known hv.session.sender.known
  obtain ⟨out, res, d₂, hout, hres, rfl, hd₂, hanswer⟩ := System.answer hcompact src hv₁ rfl hd₁ hf
  obtain ⟨f', hf', hlen⟩ := hres.length
  obtain rfl := BlockDb.full_unique hf hf'
  obtain ⟨h', hact, htoken, hstoring⟩ := Storing.start hk hfree hnone (hlen ▸ src.length_lt hf)
  have hreceive : s.server.receive 0 s.now 0 addrs.client (.BlockRequestResponse res) = .ok (h', []) := by
    simp only [Handler.receive_known hk, hact, Result.bind_ok, Result.pure_def]
  have hstep := server_quiet
    (s := { s with
      client := s.client.setClient addrs.server { c with transferOut := out }
      toServer := s.toServer ++ [d₂]
      toClient := s.toClient ++ [d₁] })
    le_rfl ((Handler.act_deliver .server s.now 0 rfl hd₂).trans hreceive)
  refine ⟨_, Handler.announced res, (hask.trans hanswer).snoc hstep, rfl, htoken, hlen ▸ hstoring, hloops, _,
    Handler.setClient_lookup, hout.trans hcursor, hres.listed⟩

theorem Conversation.place (src : Source root db first F) (hv : Conversation addrs root db first s c)
    (ht : (t.start, t.stop, t.blockid) ∈ c.transferOut.transfers) (hf : Holds db t.blockid f) :
    t.stop = t.start + f.data.length ∧ t.stop ≤ 2 ^ 63 := by
  have hs := hv.session.sender
  obtain ⟨f', hf', hstop⟩ := hs.serving.blocks _ ht
  obtain rfl := BlockDb.full_unique hf hf'
  have hbelow := hs.serving.below _ ht
  have hcursor := (hv.ready.known c hs.known).cursor_le hs.serving hs.once
  have := src.size
  exact ⟨hstop, by simp only at hbelow; omega⟩

theorem System.begin (src : Source root db first F)
    (hv : Conversation addrs root db first s c) (hcursor : c.transferOut.cursor = none)
    (hloops : s.client.transferLoops = []) (htoken : addrs.client ∈ s.server.statusTokens)
    (hs : Storing addrs.client o waiting t n 0 s.server) (hf : Holds db t.blockid f)
    (hn : n = numChunks f.data.length) (hpos : 0 < n)
    (ht : (t.start, t.stop, t.blockid) ∈ c.transferOut.transfers) :
    ∃ s', Reachable (Step addrs) s s' ∧ Storing addrs.client o waiting t n 0 s'.server ∧
      Sending addrs.server db t.start t.stop t.blockid n 0 s'.client := by
  have hle := numChunks_le f.data.length
  obtain ⟨hstop, hids⟩ := hv.place src ht hf
  obtain ⟨d, tokens, hd, htell⟩ := System.tell hs htoken hpos (by rw [u64Size]; omega)
  have hknown := hv.session.sender.known
  have hserving := hv.session.sender.serving
  obtain ⟨h', hstatus, hsending⟩ : ∃ h', s.client.transferStatus s.now addrs.server
      { missingRanges := [(t.start, t.start + n)] } = .ok h' ∧
        Sending addrs.server db t.start t.stop t.blockid n 0 h' := by
    refine ⟨_, Handler.transferStatus_eq hknown _ _, hv.session.sender.blockdb,
      ⟨_, Handler.setClient_lookup, ?_, ht, rfl, ?_⟩, s.now, ?_⟩
    · exact ⟨hserving.ordered, hserving.below, hserving.blocks, hserving.bounded⟩
    · simp [hpos]
    · simp [hcursor, hloops]
  have hreceive : s.client.receive 0 s.now 0 addrs.server
      (.TransferStatus { missingRanges := [(t.start, t.start + n)] }) = .ok (h', []) := by
    simp only [Handler.receive_known hknown, hstatus, Result.bind_ok, Result.pure_def]
  have hstep := client_quiet
    (s := { s with
      server := { s.server with statusTokens := tokens }
      toClient := s.toClient ++ [d] })
    le_rfl ((Handler.act_deliver .client s.now 0 rfl hd).trans hreceive)
  exact ⟨_, htell.snoc hstep, hs.setTokens tokens, hsending⟩

/-- All of the block that the server asks for is there but its last chunk, which is on its way. -/
theorem System.fetch (hcompact : Serde.Compact) (src : Source root db first F)
    (hv : Conversation addrs root db first s c) (hcursor : c.transferOut.cursor = none)
    (hloops : s.client.transferLoops = []) (hk : s.server.clients.lookup addrs.client = some k)
    (hfree : k.transferIn.transfers = []) (hid : id ∈ k.pendingBlockRequests)
    (hnone : s.server.blockdb.lookup id = none) (hf : Holds db id f) (hn : n = numChunks f.data.length) :
    ∃ s' t pre d, Reachable (Step addrs) s s' ∧ t.blockid = id ∧ t.start + n ≤ t.stop ∧ 0 < n ∧
      Storing addrs.client s.server (k.pendingBlockRequests.erase id) t n (n - 1) s'.server ∧
      s'.toServer = pre ++ [d] ∧
      MyCodec.decode d = .ok (some (.TransferPayload (chunkOf f t.start (n - 1)))) ∧
      s'.client.transferLoops = [] ∧ ∃ c', s'.client.clients.lookup addrs.server = some c' ∧
        c'.transferOut.cursor = none := by
  have hle := numChunks_le f.data.length
  have hpos : 0 < n := by
    have hlen := List.length_pos_of_ne_nil (src.nonempty id f hf)
    simp only [hn, numChunks, chunkSize]
    omega
  obtain ⟨s₁, t, hreach₁, rfl, htoken, hstoring₁, hloops₁, c₁, hc₁, hcursor₁, ht⟩ :=
    System.announce hcompact src hv hcursor hloops hk hfree hid hnone hf
  rw [← hn] at hstoring₁
  obtain ⟨c₁', hv₁⟩ := hv.reachable hcompact src.isRoot src.complete src.represents.allFull src.size.le hreach₁
  obtain rfl := hv₁.known hc₁
  obtain ⟨hstop, hids⟩ := hv₁.place src ht hf
  obtain ⟨s₂, hreach₂, hstoring₂, hsending⟩ :=
    System.begin src hv₁ hcursor₁ hloops₁ htoken hstoring₁ hf hn hpos ht
  obtain ⟨s₃, datagrams, hreach₃, hserver₃, -, htoServer, hcarries, hloops₃, c₃, hc₃, hcursor₃⟩ :=
    System.send hcompact hf hn (by omega) hsending (Nat.zero_le n)
  have hreach := (hreach₁.trans hreach₂).trans hreach₃
  obtain ⟨c₃', hv₃⟩ := hv.reachable hcompact src.isRoot src.complete src.represents.allFull src.size.le hreach
  obtain ⟨h, pre, d, hreach₄, hstoring, htoServer, hd⟩ :=
    System.store hcompact src hv₃ hf (hserver₃ ▸ hstoring₂) hn (by omega) hpos htoServer hcarries
  exact ⟨_, t, pre, d, hreach.trans hreach₄, rfl, by omega, hpos, hstoring, htoServer, hd, hloops₃, c₃, hc₃,
    hcursor₃⟩

end Serde

end DasProtokoll.Scsync
