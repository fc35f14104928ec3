import DasProtokoll.Scsync.Allocation

/-!
# How many chunks a transfer has

The sender allocates one id for each byte of a block, and the receiver tracks one
chunk for each 1450 bytes.
-/

namespace DasProtokoll.Scsync

open DasProtokoll

theorem numChunks_eq_self {len : Nat} (h : 1 ≤ len) : numChunks len = len ↔ len = 1 := by
  simp only [numChunks, chunkSize]
  omega

/-- The handler with the client's cursor at a chunk. -/
def Handler.at (h : Handler) (addr : SocketAddr) (c : Client) (chunkid : Nat) : Handler :=
  h.setClient addr { c with transferOut := { c.transferOut with cursor := some chunkid } }

/-- What both sides have to agree on for one block: how many chunks there are, that each id which is
looked up for the block is one of them, and that the sender has data for each id. -/
structure SizesAgree (h' : Handler) (addr : SocketAddr) (c : Client) (tin : TransferIn) (p : Partial)
    (res : BlockRequestResponse) : Prop where
  count : res.endId.toNat - res.startId.toNat = p.available.length
  inside : ∀ chunkid t, tin.transfer chunkid = .ok t → t.blockid = res.blockid →
    chunkid - t.start < p.available.length ∧ (chunkid - t.start) * chunkSize < p.data.length
  payload : ∀ chunkid, res.startId.toNat ≤ chunkid → chunkid < res.endId.toNat →
    ∃ payload q, (h'.at addr c chunkid).nextPayload addr = .ok (some payload, q) ∧
      payload.chunkid = chunkid ∧ payload.data ≠ []

namespace Handler

variable {h h' g g' : Handler} {addr : SocketAddr} {c d : Client} {f : Full}
  {res : BlockRequestResponse}

/-- The sender's side of an answer. -/
structure Offered (first : Nat) (h' : Handler) (addr : SocketAddr) (c : Client) (f : Full)
    (res : BlockRequestResponse) : Prop where
  client : h'.clients.lookup addr = some c
  allocated : Allocated h'.blockdb first c.transferOut
  listed : (res.startId.toNat, res.endId.toNat, res.blockid) ∈ c.transferOut.transfers
  block : h'.blockdb.lookup res.blockid = some (.Full f)
  len : res.len.toNat = f.data.length
  endId : res.endId.toNat = res.startId.toNat + f.data.length

theorem Serves.offered {first : Nat} {req : BlockRequest}
    (hs : Serves addr h (req, [(.BlockRequestResponse res, addr)]) h')
    (hc : h.clients.lookup addr = some c) (ha : Allocated h.blockdb first c.transferOut)
    (hf : h'.blockdb.lookup req.blockid = some (.Full f)) :
    ∃ c', Offered first h' addr c' f res := by
  obtain ⟨c', hc', hdb, ha', -, res', hsent, hres⟩ := hs.allocated hc ha
  obtain rfl : res = res' := by simpa using hsent
  obtain ⟨block, hblock, hlen⟩ := ha'.blocks _ hres.listed
  rw [← hdb, hf, Option.some.injEq] at hblock
  subst hblock
  have hend : res.endId.toNat = res.startId.toNat + f.data.length := hlen
  have := hres.length
  refine ⟨c', hc', hdb ▸ ha', hres.blockid ▸ hres.listed, hres.blockid ▸ hf, by omega, hend⟩

/-- The receiver's side of an answer for a block that is new to it. -/
structure Expected (g' : Handler) (addr : SocketAddr) (d : Client) (p : Partial)
    (res : BlockRequestResponse) : Prop where
  client : g'.clients.lookup addr = some d
  block : g'.blockdb.lookup res.blockid = some (.Partial p)
  data : p.data.length = res.len.toNat
  chunks : p.available.length = numChunks res.len.toNat
  only : ∀ t ∈ d.transferIn.transfers, t.blockid = res.blockid → t = announced res

theorem blockRequestResponse_expected (hg : g.blockRequestResponse addr res = .ok g')
    (hd : g.clients.lookup addr = some d) (hblock : g.blockdb.lookup res.blockid = none)
    (hfirst : ∀ t ∈ d.transferIn.transfers, t.blockid ≠ res.blockid) :
    ∃ d', Expected g' addr d' (emptyBlock res.blockid res.len.toNat) res := by
  obtain ⟨d₀, tokens, hd₀, rfl⟩ := blockRequestResponse_ok hg
  obtain rfl : d₀ = d := Option.some.inj (hd₀.symm.trans hd)
  refine ⟨_, setClient_lookup, ?_, by simp [emptyBlock], by simp [emptyBlock, numChunks], ?_⟩
  · have hnone : g.blockdb.contains (Block.Partial (emptyBlock res.blockid res.len.toNat)).id = false :=
      BlockDb.contains_eq_false.mpr hblock
    simp only [BlockDb.add, hnone]
    exact BlockDb.lookup_set_self
  · intro t ht hid
    rcases List.mem_append.mp ht with ht | ht
    · exact absurd hid (hfirst t ht)
    · exact List.mem_singleton.mp ht

theorem Offered.nextPayload {first : Nat} (ho : Offered first h' addr c f res) {chunkid : Nat}
    (hlo : res.startId.toNat ≤ chunkid) (hhi : chunkid < res.endId.toNat)
    (hlt : (chunkid - res.startId.toNat) * chunkSize < u64Size) :
    ∃ q, (h'.at addr c chunkid).nextPayload addr = .ok (some {
      chunkid
      data := slice f.data ((chunkid - res.startId.toNat) * chunkSize) chunkSize }, q) := by
  have hclient : (h'.at addr c chunkid).client addr = .ok _ := client_eq_ok.mpr setClient_lookup
  have hfind : c.transferOut.transfers.find? (fun t => t.1 ≤ chunkid ∧ chunkid < t.2.1) =
      some (res.startId.toNat, res.endId.toNat, res.blockid) := by
    have hsome : (c.transferOut.transfers.find? fun t => t.1 ≤ chunkid ∧ chunkid < t.2.1).isSome := by
      rw [List.find?_isSome]
      exact ⟨_, ho.listed, by simpa using ⟨hlo, hhi⟩⟩
    obtain ⟨t, ht⟩ := Option.isSome_iff_exists.mp hsome
    have hin := List.find?_some ht
    rw [decide_eq_true_eq] at hin
    rw [ht, ho.allocated.contiguous.owner (List.mem_of_find?_eq_some ht) ho.listed hin ⟨hlo, hhi⟩]
  have hfull : (h'.at addr c chunkid).blockdb.getFull res.blockid = .ok f := by
    have hblock : (h'.at addr c chunkid).blockdb.lookup res.blockid = some (.Full f) := ho.block
    rw [BlockDb.getFull, BlockDb.get_eq_ok.mpr hblock]
    rfl
  unfold Handler.nextPayload
  rw [hclient, Result.bind_ok]
  simp only [hfind, hfull, Result.bind_ok]
  rw [Result.assert_of hlt]
  exact ⟨_, rfl⟩

theorem sizesAgree_iff {first : Nat} {addr' : SocketAddr} {p : Partial}
    (ho : Offered first h' addr c f res) (he : Expected g' addr' d p res) (hlen : 1 ≤ f.data.length) :
    SizesAgree h' addr c d.transferIn p res ↔ f.data.length = 1 := by
  have hchunks := he.chunks
  have hdata := he.data
  have hend := ho.endId
  rw [ho.len] at hchunks hdata
  constructor
  · intro hagree
    have hcount := hagree.count
    exact (numChunks_eq_self hlen).mp (by omega)
  · intro hone
    have hnum := (numChunks_eq_self hlen).mpr hone
    refine ⟨by omega, ?_, ?_⟩
    · intro chunkid t ht hid
      obtain ⟨hmem, hlo, hhi⟩ := transfer_ok ht
      obtain rfl := he.only t hmem hid
      have hlo' : res.startId.toNat ≤ chunkid := hlo
      have hhi' : chunkid < res.endId.toNat := hhi
      have hfirst : chunkid - (announced res).start = 0 := by
        have : (announced res).start = res.startId.toNat := rfl
        omega
      rw [hfirst]
      omega
    · intro chunkid hlo hhi
      have hfirst : chunkid - res.startId.toNat = 0 := by omega
      obtain ⟨q, hn⟩ := ho.nextPayload hlo hhi (by rw [hfirst]; decide)
      refine ⟨_, q, hn, rfl, ?_⟩
      rw [hfirst, Nat.zero_mul, slice, List.drop_zero]
      intro hnil
      have hzero := congrArg List.length hnil
      rw [List.length_take, hone] at hzero
      simp [chunkSize] at hzero

/-- After any requests of one client, a block and a receiver that does not know it yet: the two
agree on the transfer if and only if the block has one byte. -/
theorem transfer_size_iff {h₁ : Handler} {addr' : SocketAddr} {rand : UInt32} {req : BlockRequest}
    (hc : h.clients.lookup addr = some c) (hnew : c.transferOut = .default rand)
    (hreach : Reachable (Serves addr) h h₁)
    (hserve : Serves addr h₁ (req, [(.BlockRequestResponse res, addr)]) h')
    (hf : h'.blockdb.lookup res.blockid = some (.Full f)) (hlen : 1 ≤ f.data.length)
    (hd : g.clients.lookup addr' = some d) (hunknown : g.blockdb.lookup res.blockid = none)
    (hfirst : ∀ t ∈ d.transferIn.transfers, t.blockid ≠ res.blockid)
    (hrecv : g.blockRequestResponse addr' res = .ok g') :
    ∃ c' d' p, h'.clients.lookup addr = some c' ∧ g'.clients.lookup addr' = some d' ∧
      g'.blockdb.lookup res.blockid = some (.Partial p) ∧
      p.available.length = numChunks f.data.length ∧
      (SizesAgree h' addr c' d'.transferIn p res ↔ f.data.length = 1) := by
  have hstart : Table addr rand.toNat [] h := ⟨c, hc, hnew ▸ .default _ _, List.nil_prefix⟩
  obtain ⟨c₁, hc₁, ha₁, -⟩ := hstart.reachable hreach
  have hblockid : res.blockid = req.blockid := by
    obtain ⟨_, -, -, -, -, res', hsent, hres⟩ := hserve.allocated hc₁ ha₁
    obtain rfl : res = res' := by simpa using hsent
    exact hres.blockid
  obtain ⟨c', ho⟩ := hserve.offered hc₁ ha₁ (hblockid ▸ hf)
  obtain ⟨d', he⟩ := blockRequestResponse_expected hrecv hd hunknown hfirst
  refine ⟨c', d', _, ho.client, he.client, he.block, ?_, sizesAgree_iff ho he hlen⟩
  rw [he.chunks, ho.len]

end Handler

def awaitingNode : Handler :=
  { receivingNode with
    blockdb := .new { blockid := twoChunks, key := Vector.replicate 16 0, hints := [] } ∅
    clients := AList.singleton peerAddr (.default 0) }

theorem awaitingNode_client : awaitingNode.clients.lookup peerAddr = some (.default 0) := by rfl

theorem awaitingNode_unknown : awaitingNode.blockdb.lookup twoChunks = none := Finmap.lookup_empty _

theorem awaitingNode_receives : ∃ g', awaitingNode.blockRequestResponse peerAddr firstAnswer = .ok g' := by
  unfold Handler.blockRequestResponse
  rw [Handler.client_eq_ok.mpr awaitingNode_client]
  simp only [Result.bind_ok]
  rw [Result.assert_of (by decide)]
  exact ⟨_, rfl⟩

theorem transfer_size_iff_1451 :
    ∃ g' c' d' p, awaitingNode.blockRequestResponse peerAddr firstAnswer = .ok g' ∧
      sendingNode.clients.lookup peerAddr = some c' ∧ g'.clients.lookup peerAddr = some d' ∧
      g'.blockdb.lookup twoChunks = some (.Partial p) ∧ p.available.length = numChunks 1451 ∧
      (SizesAgree sendingNode peerAddr c' d'.transferIn p firstAnswer ↔ 1451 = 1) := by
  obtain ⟨g', hrecv⟩ := awaitingNode_receives
  have hclient : servingNode.clients.lookup peerAddr = some (.default 5) := by rfl
  obtain ⟨c', d', p, hc', hd', hp, hchunks, hiff⟩ :=
    Handler.transfer_size_iff hclient rfl Reachable.refl servingNode_serves (nodeWith_lookup _ _)
      (by rw [List.length_replicate]; decide) awaitingNode_client awaitingNode_unknown
      (by simp [Client.default, TransferIn.default]) hrecv
  rw [List.length_replicate] at hchunks hiff
  exact ⟨g', c', d', p, hrecv, hc', hd', hp, hchunks, hiff⟩

/-- A block of 1451 bytes gets 1451 ids, for two chunks. The id 1455 is far behind them, and there is
nothing to send for it. -/
theorem transfer_size_differs :
    ∃ g' d' p q, Handler.Serves peerAddr servingNode
        ({ blockid := twoChunks }, [(.BlockRequestResponse firstAnswer, peerAddr)]) sendingNode ∧
      awaitingNode.blockRequestResponse peerAddr firstAnswer = .ok g' ∧
      g'.clients.lookup peerAddr = some d' ∧ g'.blockdb.lookup twoChunks = some (.Partial p) ∧
      firstAnswer.endId.toNat - firstAnswer.startId.toNat = 1451 ∧ p.available.length = 2 ∧
      (∃ t, d'.transferIn.transfer 1455 = .ok t ∧ t.blockid = twoChunks ∧ 1455 - t.start = 1450) ∧
      (sendingNode.at peerAddr sendingClient 1455).nextPayload peerAddr =
        .ok (some { chunkid := 1455, data := [] }, q) := by
  obtain ⟨g', hrecv⟩ := awaitingNode_receives
  have hclient : servingNode.clients.lookup peerAddr = some (.default 5) := by rfl
  obtain ⟨d', he⟩ := Handler.blockRequestResponse_expected hrecv awaitingNode_client
    awaitingNode_unknown (by simp [Client.default, TransferIn.default])
  obtain ⟨c', ho⟩ := Handler.Serves.offered servingNode_serves hclient (Allocated.default _ _)
    (nodeWith_lookup _ _)
  have hc' : c' = sendingClient := by
    have hsending : sendingNode.clients.lookup peerAddr = some sendingClient := by rfl
    exact Option.some.inj (ho.client.symm.trans hsending)
  subst hc'
  have hlo : firstAnswer.startId.toNat ≤ 1455 := by decide
  obtain ⟨q, hq⟩ := ho.nextPayload hlo (by decide) (by decide)
  refine ⟨g', d', _, q, servingNode_serves, hrecv, he.client, he.block, by decide, ?_, ?_, ?_⟩
  · rw [he.chunks]
    decide
  · have htransfers : d'.transferIn.transfers = [Handler.announced firstAnswer] := by
      obtain ⟨d₀, tokens, hd₀, rfl⟩ := Handler.blockRequestResponse_ok hrecv
      rw [awaitingNode_client, Option.some.injEq] at hd₀
      subst hd₀
      have hclient := he.client.symm.trans Handler.setClient_lookup
      rw [Option.some.injEq] at hclient
      subst hclient
      rfl
    refine ⟨Handler.announced firstAnswer, ?_, rfl, by decide⟩
    rw [TransferIn.transfer, htransfers]
    rfl
  · rw [hq, slice, List.drop_eq_nil_of_le]
    · rfl
    · rw [List.length_replicate]
      decide

end DasProtokoll.Scsync
