import DasProtokoll.Lib.Contiguous
import DasProtokoll.Lib.Run
import DasProtokoll.Scsync.TransferStatus

/-!
# Chunk ids belong to one block

A node that serves a client allocates the chunk ids of a block with the first
request for it. All later requests get the same answer.
-/

namespace DasProtokoll.Scsync

open DasProtokoll

/-- The table of a client whose first chunk id was `first`. -/
structure Allocated (db : BlockDb) (first : Nat) (out : TransferOut) : Prop where
  contiguous : Contiguous first out.transfers out.transferCursor
  once : out.transfers.Pairwise fun a b => a.2.2 ≠ b.2.2
  blocks : ∀ t ∈ out.transfers, ∃ block, db.lookup t.2.2 = some block ∧ t.2.1 = t.1 + block.len
  bounded : out.transferCursor < u64Size

/-- `res` tells the entry of the table. -/
structure Answers (transfers : List (Nat × Nat × BlockId)) (req : BlockRequest)
    (res : BlockRequestResponse) : Prop where
  blockid : res.blockid = req.blockid
  listed : (res.startId.toNat, res.endId.toNat, req.blockid) ∈ transfers
  length : res.endId.toNat = res.startId.toNat + res.len.toNat

/-- A request of one client is answered. -/
def Handler.Serves (addr : SocketAddr) (h : Handler) (e : BlockRequest × Sent) (h' : Handler) : Prop :=
  h.blockRequest addr e.1 = .ok (h', e.2)

variable {db : BlockDb} {first : Nat} {out out' : TransferOut}

theorem Allocated.default (db : BlockDb) (rand : UInt32) :
    Allocated db rand.toNat (.default rand) where
  contiguous := rfl
  once := .nil
  blocks := by simp [TransferOut.default]
  bounded := lt_trans rand.toNat_lt (by decide)

theorem Allocated.entry (ha : Allocated db first out) {t u : Nat × Nat × BlockId}
    (ht : t ∈ out.transfers) (hu : u ∈ out.transfers) (hid : t.2.2 = u.2.2) : t = u := by
  have : Std.Symm fun a b : Nat × Nat × BlockId => a.2.2 ≠ b.2.2 := ⟨fun _ _ h => h.symm⟩
  by_contra hne
  exact ha.once.forall ht hu hne hid

/-! ## One request -/

theorem Allocated.allocate (ha : Allocated db first out) {blockid : BlockId}
    {t : Nat × Nat × BlockId} (h : Handler.allocate out db blockid = .ok (t, out')) :
    Allocated db first out' ∧ out.transfers <+: out'.transfers ∧ t ∈ out'.transfers ∧
      t.2.2 = blockid := by
  obtain ⟨ht, rfl, rfl⟩ | ⟨block, hblock, hnew, hlt, rfl, rfl⟩ := Handler.allocate_ok h
  · exact ⟨ha, List.prefix_refl _, ht, rfl⟩
  · refine ⟨⟨ha.contiguous.snoc _ _, ?_, ?_, hlt⟩, List.prefix_append _ _, by simp, rfl⟩
    · rw [List.pairwise_append]
      refine ⟨ha.once, List.pairwise_singleton _ _, ?_⟩
      intro a hmem b hb
      rw [List.mem_singleton.mp hb]
      exact hnew a hmem
    · intro t ht
      rcases List.mem_append.mp ht with ht | ht
      · exact ha.blocks t ht
      · rw [List.mem_singleton.mp ht]
        exact ⟨block, hblock, rfl⟩

theorem Handler.allocate_total {blockid : BlockId} {block : Block} (hblock : db.lookup blockid = some block)
    (hids : out.transferCursor + block.len < u64Size) : ∃ r, Handler.allocate out db blockid = .ok r := by
  unfold Handler.allocate
  split
  · exact ⟨_, rfl⟩
  · have hget : db.get blockid = .ok block := BlockDb.get_eq_ok.mpr hblock
    rw [hget, Result.bind_ok, Result.assert_of hids]
    exact ⟨_, rfl⟩

theorem Allocated.toNat_lt (ha : Allocated db first out) {t : Nat × Nat × BlockId}
    (ht : t ∈ out.transfers) : t.1 < u64Size ∧ t.2.1 < u64Size := by
  have := (ha.contiguous.bounds ht).2
  have := ha.bounded
  omega

theorem Answers.eq (ha : Allocated db first out) {req req' : BlockRequest}
    {res res' : BlockRequestResponse} (hr : Answers out.transfers req res)
    (hr' : Answers out.transfers req' res') (hid : req.blockid = req'.blockid) : res = res' := by
  have hentry := ha.entry hr.listed hr'.listed hid
  have hstart : res.startId = res'.startId := UInt64.toNat_inj.mp (congrArg (fun t => t.1) hentry)
  have hend : res.endId = res'.endId := UInt64.toNat_inj.mp (congrArg (fun t => t.2.1) hentry)
  have hlen : res.len = res'.len := by
    apply UInt64.toNat_inj.mp
    have h1 := hr.length
    have h2 := hr'.length
    rw [hstart, hend] at h1
    omega
  have hblockid : res.blockid = res'.blockid := by rw [hr.blockid, hr'.blockid, hid]
  cases res
  cases res'
  simp only at hstart hend hlen hblockid
  subst hstart hend hlen hblockid
  rfl

namespace Handler

variable {h h' : Handler} {addr : SocketAddr} {c : Client} {req : BlockRequest} {sent : Sent}

theorem Serves.allocated (hs : Serves addr h (req, sent) h') (hc : h.clients.lookup addr = some c)
    (ha : Allocated h.blockdb first c.transferOut) :
    ∃ c', h'.clients.lookup addr = some c' ∧ h'.blockdb = h.blockdb ∧
      Allocated h.blockdb first c'.transferOut ∧
      c.transferOut.transfers <+: c'.transferOut.transfers ∧
      ∃ res, sent = [(.BlockRequestResponse res, addr)] ∧
        Answers c'.transferOut.transfers req res := by
  have hr : h.blockRequest addr req = .ok (h', sent) := hs
  obtain ⟨c₀, t, out, block, hc₀, halloc, hblock, rfl, rfl⟩ := blockRequest_ok hr
  obtain rfl : c₀ = c := Option.some.inj (hc₀.symm.trans hc)
  obtain ⟨hallocated, hpre, ht, hid⟩ := ha.allocate halloc
  obtain ⟨block', hblock', hlen⟩ := hallocated.blocks t ht
  obtain rfl : block' = block := by
    rw [hid] at hblock'
    exact Option.some.inj (hblock'.symm.trans hblock)
  obtain ⟨hstart, hend⟩ := hallocated.toNat_lt ht
  have hblen : block'.len < u64Size := by omega
  refine ⟨_, setClient_lookup, rfl, hallocated, hpre, _, rfl, rfl, ?_, ?_⟩
  · rw [toNat_ofNat hstart, toNat_ofNat hend, ← hid]
    exact ht
  · rw [toNat_ofNat hstart, toNat_ofNat hend, toNat_ofNat hblen]
    exact hlen

theorem Serves.total (hc : h.clients.lookup addr = some c) {block : Block}
    (hblock : h.blockdb.lookup req.blockid = some block)
    (hids : c.transferOut.transferCursor + block.len < u64Size) :
    ∃ sent h', Serves addr h (req, sent) h' := by
  obtain ⟨⟨t, out⟩, halloc⟩ := allocate_total hblock hids
  have hclient : h.client addr = .ok c := client_eq_ok.mpr hc
  have hget : h.blockdb.get req.blockid = .ok block := BlockDb.get_eq_ok.mpr hblock
  unfold Serves blockRequest
  simp only [hclient, halloc, hget, Result.bind_ok]
  exact ⟨_, _, rfl⟩

/-! ## All requests -/

/-- What one client's table looks like after some requests, compared with the table `before`. -/
def Table (addr : SocketAddr) (first : Nat) (before : List (Nat × Nat × BlockId)) (h : Handler) : Prop :=
  ∃ c, h.clients.lookup addr = some c ∧ Allocated h.blockdb first c.transferOut ∧
    before <+: c.transferOut.transfers

theorem Table.step {before : List (Nat × Nat × BlockId)} {e : BlockRequest × Sent}
    (ht : Table addr first before h) (hs : Serves addr h e h') : Table addr first before h' := by
  obtain ⟨c, hc, ha, hpre⟩ := ht
  obtain ⟨c', hc', hdb, ha', hmore, -⟩ := hs.allocated hc ha
  exact ⟨c', hc', hdb ▸ ha', hpre.trans hmore⟩

theorem Table.reachable {before : List (Nat × Nat × BlockId)} (ht : Table addr first before h)
    (hr : Reachable (Serves addr) h h') : Table addr first before h' :=
  hr.invariant ht fun _ _ _ ht hs => ht.step hs

/-- For a client that is new, each block gets its chunk ids once, and they are its own. -/
theorem chunk_ids_unique {rand : UInt32} (hc : h.clients.lookup addr = some c)
    (hnew : c.transferOut = .default rand) {l : List (Transition Handler (BlockRequest × Sent))}
    (hrun : Run (Serves addr) h l h') :
    ∃ c', h'.clients.lookup addr = some c' ∧ Allocated h'.blockdb rand.toNat c'.transferOut ∧
      (c'.transferOut.transfers.Pairwise fun a b => a.2.1 ≤ b.1) ∧
      (∀ t ∈ c'.transferOut.transfers, t.2.1 ≤ c'.transferOut.transferCursor) ∧
      (∀ t ∈ c'.transferOut.transfers, ∀ u ∈ c'.transferOut.transfers, ∀ chunkid,
        t.1 ≤ chunkid ∧ chunkid < t.2.1 → u.1 ≤ chunkid ∧ chunkid < u.2.1 → t = u) ∧
      (∀ r ∈ l, ∃ c₁ c₂ res, r.source.clients.lookup addr = some c₁ ∧
        r.target.clients.lookup addr = some c₂ ∧
        c₁.transferOut.transfers <+: c₂.transferOut.transfers ∧
        c₂.transferOut.transfers <+: c'.transferOut.transfers ∧
        r.label.2 = [(.BlockRequestResponse res, addr)] ∧
        Answers c'.transferOut.transfers r.label.1 res) ∧
      (∀ r ∈ l, ∀ r' ∈ l, r.label.1.blockid = r'.label.1.blockid → r.label.2 = r'.label.2) ∧
      ∀ req block, h'.blockdb.lookup req.blockid = some block →
        c'.transferOut.transferCursor + block.len < u64Size →
          ∃ sent h'', Serves addr h' (req, sent) h'' := by
  have hstart : Table addr rand.toNat [] h :=
    ⟨c, hc, hnew ▸ .default _ _, List.nil_prefix⟩
  obtain ⟨c', hc', ha', -⟩ := hstart.reachable ⟨l, hrun⟩
  have hanswers : ∀ r ∈ l, ∃ c₁ c₂ res, r.source.clients.lookup addr = some c₁ ∧
      r.target.clients.lookup addr = some c₂ ∧
      c₁.transferOut.transfers <+: c₂.transferOut.transfers ∧
      c₂.transferOut.transfers <+: c'.transferOut.transfers ∧
      r.label.2 = [(.BlockRequestResponse res, addr)] ∧
      Answers c'.transferOut.transfers r.label.1 res := by
    intro r hr
    obtain ⟨hbefore, hstep, hafter⟩ := hrun.mem hr
    obtain ⟨c₁, hc₁, ha₁, -⟩ := hstart.reachable hbefore
    obtain ⟨c₂, hc₂, hdb, ha₂, hmore, res, hsent, hres⟩ := Serves.allocated hstep hc₁ ha₁
    have hmid : Table addr rand.toNat c₂.transferOut.transfers r.target :=
      ⟨c₂, hc₂, hdb ▸ ha₂, List.prefix_refl _⟩
    obtain ⟨c₃, hc₃, -, hpre⟩ := hmid.reachable hafter
    obtain rfl : c₃ = c' := Option.some.inj (hc₃.symm.trans hc')
    exact ⟨c₁, c₂, res, hc₁, hc₂, hmore, hpre, hsent, hres.blockid,
      hpre.subset hres.listed, hres.length⟩
  refine ⟨c', hc', ha', ha'.contiguous.ordered, fun t ht => (ha'.contiguous.bounds ht).2.2, ?_,
    hanswers, ?_, fun req block => Serves.total hc'⟩
  · intro t ht u hu chunkid hti hui
    exact ha'.contiguous.owner ht hu hti hui
  · intro r hr r' hr' hid
    obtain ⟨-, -, res, -, -, -, -, hsent, hres⟩ := hanswers r hr
    obtain ⟨-, -, res', -, -, -, -, hsent', hres'⟩ := hanswers r' hr'
    rw [hsent, hsent', Answers.eq ha' hres hres' hid]

end Handler

/-- Nothing was requested yet. -/
def servingNode : Handler :=
  nodeWith (.Full { id := twoChunks, data := List.replicate 1451 7 }) (.default 5)

def firstAnswer : BlockRequestResponse :=
  { blockid := twoChunks, startId := 5, endId := 1456, len := 1451 }

theorem nodeWith_serves {c : Client} {out : TransferOut} {b : Block} (hlen : b.len = 1451)
    (ha : Handler.allocate c.transferOut (nodeWith b c).blockdb twoChunks =
      .ok ((5, 1456, twoChunks), out)) :
    Handler.Serves peerAddr (nodeWith b c)
      ({ blockid := twoChunks }, [(.BlockRequestResponse firstAnswer, peerAddr)])
      (nodeWith b { c with transferOut := out }) := by
  have hclient : (nodeWith b c).client peerAddr = .ok c := by rfl
  have hget : (nodeWith b c).blockdb.get twoChunks = .ok b :=
    BlockDb.get_eq_ok.mpr (nodeWith_lookup b c)
  unfold Handler.Serves Handler.blockRequest
  simp only [hclient, ha, hget, hlen, Result.bind_ok]
  rfl

theorem twoChunks_len : (Block.Full { id := twoChunks, data := List.replicate 1451 7 }).len = 1451 :=
  List.length_replicate

theorem servingNode_serves : Handler.Serves peerAddr servingNode
    ({ blockid := twoChunks }, [(.BlockRequestResponse firstAnswer, peerAddr)]) sendingNode := by
  have hget : servingNode.blockdb.get twoChunks = .ok _ := BlockDb.get_eq_ok.mpr (nodeWith_lookup _ _)
  have halloc : Handler.allocate (.default 5) servingNode.blockdb twoChunks =
      .ok ((5, 1456, twoChunks), sendingClient.transferOut) := by
    unfold Handler.allocate
    simp only [TransferOut.default, List.find?_nil, hget, Result.bind_ok, twoChunks_len]
    rw [Result.assert_of (by decide)]
    rfl
  exact nodeWith_serves twoChunks_len halloc

theorem sendingNode_serves : Handler.Serves peerAddr sendingNode
    ({ blockid := twoChunks }, [(.BlockRequestResponse firstAnswer, peerAddr)]) sendingNode := by
  apply nodeWith_serves twoChunks_len
  unfold Handler.allocate sendingClient
  rw [List.find?_cons_of_pos (by simp)]
  rfl

/-- A request that is sent again gets the same chunk ids. -/
theorem chunk_ids_unique_twice :
    ∃ l, Run (Handler.Serves peerAddr) servingNode l sendingNode ∧ l.length = 2 ∧
      ∀ r ∈ l, ∀ r' ∈ l, r.label.2 = r'.label.2 := by
  have hrun := (Run.nil.snoc servingNode_serves).snoc sendingNode_serves
  have hclient : servingNode.clients.lookup peerAddr = some (.default 5) := by rfl
  obtain ⟨-, -, -, -, -, -, -, hsame, -⟩ := Handler.chunk_ids_unique hclient rfl hrun
  refine ⟨_, hrun, rfl, ?_⟩
  intro r hr r' hr'
  refine hsame r hr r' hr' ?_
  simp only [List.nil_append, List.cons_append, List.mem_cons, List.not_mem_nil, or_false] at hr hr'
  rcases hr with rfl | rfl <;> rcases hr' with rfl | rfl <;> rfl

end DasProtokoll.Scsync
