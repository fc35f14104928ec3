import DasProtokoll.Scsync.Restore
import DasProtokoll.Scsync.Sender

/-!
# The receiving node

The server holds a block in part while chunks of it arrive, and each chunk that
is marked as available holds the bytes that the client's block has there. So a
block whose chunks are all available is the client's block.
-/

namespace DasProtokoll.Scsync

open DasProtokoll

/-- What has arrived of the block `f`. -/
structure Arrived (p : Partial) (f : Full) : Prop where
  length : p.data.length = f.data.length
  chunks : p.available.length = numChunks f.data.length
  agree : ∀ i, p.available[i]? = some true →
    AgreeOn p.data f.data (i * chunkSize) (i * chunkSize + chunkSize)

/-- What the server knows of the client whose root it downloads. -/
structure Busy (root : BlockRef) (transfers : List (Nat × Nat × BlockId)) (blockdb : BlockDb)
    (c : Client) : Prop where
  pendingRoot : blockdb.pendingRoot = some root
  listed : ∀ t ∈ c.transferIn.transfers, (t.start, t.stop, t.blockid) ∈ transfers
  status : c.transferIn.transfers ≠ [] → c.transferIn.statusTx = true
  tracked : ∀ id p, blockdb.lookup id = some (.Partial p) →
    ∃ t ∈ c.transferIn.transfers, t.blockid = id

/-- What is true of the server between two steps. `db` holds the blocks of the client and `transfers` is
its table. -/
structure Receiver (client : SocketAddr) (root : BlockRef) (db : BlockDb)
    (transfers : List (Nat × Nat × BlockId)) (h : Handler) : Prop where
  only : ∀ addr, addr ≠ client → h.clients.lookup addr = none
  loops : h.transferLoops = []
  full : Agrees h.blockdb (Holds db)
  parts : ∀ id p, h.blockdb.lookup id = some (.Partial p) → ∃ f, Holds db id f ∧ Arrived p f
  idle : h.clients.lookup client = none → h.blockdb.pendingRoot = none ∧
    (h.blockdb.root.blockid = root.blockid ∨ ∀ id p, h.blockdb.lookup id ≠ some (.Partial p))
  busy : ∀ c, h.clients.lookup client = some c → Busy root transfers h.blockdb c

/-! ## Chunks of a block -/

theorem arrived_emptyBlock (blockid : BlockId) {len : Nat} {f : Full} (hlen : len = f.data.length) :
    Arrived (Handler.emptyBlock blockid len) f where
  length := by simp [Handler.emptyBlock, hlen]
  chunks := by simp [Handler.emptyBlock, numChunks, hlen]
  agree i hi := by
    rw [Handler.emptyBlock, List.getElem?_replicate] at hi
    split at hi <;> simp at hi

theorem Arrived.stored {p : Partial} {f : Full} (ha : Arrived p f) {t : Transfer}
    {chunk : TransferPayload} (hi : chunk.chunkid - t.start < p.available.length)
    (hdata : chunk.data = slice f.data ((chunk.chunkid - t.start) * chunkSize) chunkSize) :
    Arrived (Handler.stored t p chunk) f := by
  have hpos : (chunk.chunkid - t.start) * chunkSize < f.data.length := by
    rw [ha.chunks] at hi
    exact chunk_start_lt hi
  have hfits : (chunk.chunkid - t.start) * chunkSize + chunk.data.length ≤ p.data.length := by
    rw [hdata, slice_length, ha.length]
    omega
  have hlen : (overwrite 0 p.data ((chunk.chunkid - t.start) * chunkSize) chunk.data).length =
      f.data.length := by
    rw [overwrite_length_of_fits _ _ _ _ hfits, ha.length]
  refine ⟨hlen, by simp [Handler.stored, ha.chunks], ?_⟩
  intro j hj
  have hlength := ha.length
  rw [Handler.stored, hdata]
  by_cases hji : j = chunk.chunkid - t.start
  · subst hji
    exact AgreeOn.overwrite_cut hlength (by omega)
  · rw [Handler.stored, List.getElem?_set_ne (Ne.symm hji)] at hj
    exact (ha.agree j hj).after_cut hlength (by omega)

theorem Arrived.complete {p : Partial} {f : Full} (ha : Arrived p f)
    (hall : ∀ b ∈ p.available, b = true) : p.data = f.data := by
  refine eq_of_agreeOn ha.length fun j _ hj => ?_
  rw [ha.length] at hj
  have hlt : j / chunkSize < p.available.length := by
    rw [ha.chunks, numChunks]
    simp only [chunkSize]
    omega
  have havailable : p.available[j / chunkSize]? = some true := by
    rw [List.getElem?_eq_getElem hlt, hall _ (List.getElem_mem hlt)]
  refine ha.agree _ havailable j ?_ ?_
  · simp only [chunkSize]
    omega
  · simp only [chunkSize]
    omega

variable {client : SocketAddr} {root : BlockRef} {db : BlockDb} {out : TransferOut} {h h' : Handler}
  {c : Client} {sent : Sent}

theorem Serving.unique (hs : Serving db out) {t t' : Nat × Nat × BlockId} (ht : t ∈ out.transfers)
    (ht' : t' ∈ out.transfers) {i : Nat} (h : t.1 ≤ i ∧ i < t.2.1) (h' : t'.1 ≤ i ∧ i < t'.2.1) :
    t = t' := by
  have hfind := find_ordered hs.ordered ht h.1 h.2
  rw [find_ordered hs.ordered ht' h'.1 h'.2] at hfind
  exact (Option.some.inj hfind).symm

/-! ## Steps of the server -/

theorem Receiver.mono {transfers transfers' : List (Nat × Nat × BlockId)}
    (hr : Receiver client root db transfers h) (hsub : transfers ⊆ transfers') :
    Receiver client root db transfers' h :=
  { hr with
    busy := fun c hc =>
      { hr.busy c hc with listed := fun t ht => hsub ((hr.busy c hc).listed t ht) } }

theorem Receiver.setTokens {transfers : List (Nat × Nat × BlockId)}
    (hr : Receiver client root db transfers h) (tokens : List SocketAddr) :
    Receiver client root db transfers { h with statusTokens := tokens } :=
  ⟨hr.only, hr.loops, hr.full, hr.parts, hr.idle, hr.busy⟩

theorem Receiver.setClient {transfers : List (Nat × Nat × BlockId)}
    (hr : Receiver client root db transfers h) {blockdb : BlockDb} (hfull : Agrees blockdb (Holds db))
    (hparts : ∀ id p, blockdb.lookup id = some (.Partial p) → ∃ f, Holds db id f ∧ Arrived p f)
    (hbusy : Busy root transfers blockdb c) :
    Receiver client root db transfers { h.setClient client c with blockdb } := by
  have hself : { h.setClient client c with blockdb }.clients.lookup client = some c :=
    Handler.setClient_lookup
  refine ⟨?_, hr.loops, hfull, hparts, ?_, ?_⟩
  · intro addr hne
    exact (Handler.setClient_lookup_ne hne).trans (hr.only addr hne)
  · intro hnone
    rw [hself] at hnone
    cases hnone
  · intro c' hc'
    rw [hself, Option.some.injEq] at hc'
    exact hc' ▸ hbusy

theorem Receiver.unconnectedRootUpdate {transfers : List (Nat × Nat × BlockId)}
    (hr : Receiver client root db transfers h) (hnone : h.clients.lookup client = none)
    {update : RootUpdate} (hu : update.toBlockref = root) {rand : UInt32}
    (hact : h.unconnectedRootUpdate client update rand = (h', sent)) :
    Receiver client root db transfers h' ∧ ∀ m ∈ sent, FromReceiver root m.1 := by
  obtain ⟨hpending, hparts⟩ := hr.idle hnone
  unfold Handler.unconnectedRootUpdate at hact
  split at hact
  · rename_i hroot
    obtain ⟨rfl, rfl⟩ := Prod.mk.inj hact
    refine ⟨hr, fun m hm => ?_⟩
    rw [List.mem_singleton.mp hm]
    exact .rootUpdateResponse (by rw [← hu, hroot])
  · rename_i hroot
    simp only [hpending, Option.isSome_none, Bool.false_eq_true, if_false, Prod.mk.injEq] at hact
    obtain ⟨rfl, rfl⟩ := hact
    have hfree := hparts.resolve_left fun heq => hroot (by rw [hu, heq])
    refine ⟨hr.setClient hr.full hr.parts ?_, by simp⟩
    exact ⟨congrArg some hu, by simp [Client.sendBlockRequest, Client.default, TransferIn.default],
      by simp [Client.sendBlockRequest, Client.default, TransferIn.default],
      fun id p hp => absurd hp (hfree id p)⟩

theorem Receiver.blockRequestResponse {transfers : List (Nat × Nat × BlockId)}
    (hr : Receiver client root db transfers h) {res : BlockRequestResponse}
    (hres : IsResponse db transfers res) (hact : h.blockRequestResponse client res = .ok h') :
    Receiver client root db transfers h' := by
  obtain ⟨c, tokens, hc, rfl⟩ := Handler.blockRequestResponse_ok hact
  obtain ⟨f, hf, hlen⟩ := hres.length
  have hbusy := hr.busy c hc
  refine (hr.setTokens tokens).setClient ?_ ?_ ?_
  · intro id f' g hf' hg
    rcases BlockDb.lookup_add hg with hg | ⟨-, hg, -⟩
    · exact hr.full id f' g hf' hg
    · cases hg
  · intro id p hp
    rcases BlockDb.lookup_add hp with hp | ⟨hid, hp, -⟩
    · exact hr.parts id p hp
    · cases hp
      exact ⟨f, by rw [hid]; exact hf, arrived_emptyBlock _ hlen⟩
  · refine ⟨by simpa using hbusy.pendingRoot, ?_, ?_, ?_⟩
    · intro t ht
      rcases List.mem_append.mp ht with ht | ht
      · exact hbusy.listed t ht
      · rw [List.mem_singleton.mp ht]
        exact hres.listed
    · intro _
      cases hl : c.transferIn.transfers with
      | nil => rfl
      | cons t l => simp [hbusy.status (by simp [hl])]
    · intro id p hp
      rcases BlockDb.lookup_add hp with hp | ⟨rfl, -, -⟩
      · obtain ⟨t, ht, hid⟩ := hbusy.tracked id p hp
        exact ⟨t, List.mem_append_left _ ht, hid⟩
      · exact ⟨Handler.announced res, by simp, rfl⟩

theorem Receiver.storeChunk_place (hr : Receiver client root db out.transfers h) (hs : Serving db out)
    {chunk : TransferPayload} (hp : IsPayload db out.transfers chunk) {t : Transfer}
    (hstore : h.storeChunk client chunk = .ok (t, h')) :
    (t.start, t.stop, t.blockid) ∈ out.transfers ∧ t.start ≤ chunk.chunkid ∧
      chunk.chunkid < t.stop ∧ ∃ f, Holds db t.blockid f ∧
        chunk.data = slice f.data ((chunk.chunkid - t.start) * chunkSize) chunkSize := by
  obtain ⟨c, p, hc, -, ht, -⟩ := Handler.storeChunk_eq_ok.mp hstore
  obtain ⟨hmem, hlo, hhi⟩ := Handler.transfer_ok ht
  have hlisted := (hr.busy c hc).listed t hmem
  obtain ⟨t', ht', f, hf, hlo', hhi', hdata⟩ := hp
  obtain rfl := hs.unique hlisted ht' ⟨hlo, hhi⟩ ⟨hlo', hhi'⟩
  exact ⟨hlisted, hlo, hhi, f, hf, hdata⟩

theorem Receiver.storeChunk (hr : Receiver client root db out.transfers h) (hs : Serving db out)
    {chunk : TransferPayload} (hp : IsPayload db out.transfers chunk) {t : Transfer}
    (hstore : h.storeChunk client chunk = .ok (t, h')) :
    Receiver client root db out.transfers h' := by
  obtain ⟨-, -, -, f, hf, hdata⟩ := hr.storeChunk_place hs hp hstore
  obtain ⟨c, p, hc, -, -, hblock, -, -, hi, rfl⟩ := Handler.storeChunk_eq_ok.mp hstore
  have harrived : Arrived p f := by
    obtain ⟨f', hf', ha⟩ := hr.parts _ p hblock
    obtain rfl := BlockDb.full_unique hf hf'
    exact ha
  have hpart {id : BlockId} {p' : Partial}
      (hlookup : (h.blockdb.set t.blockid (.Partial (Handler.stored t p chunk))).lookup id =
        some (.Partial p')) : ∃ p'', h.blockdb.lookup id = some (.Partial p'') := by
    by_cases hid : id = t.blockid
    · exact ⟨p, hid ▸ hblock⟩
    · exact ⟨p', by rwa [BlockDb.lookup_set_ne hid] at hlookup⟩
  refine ⟨hr.only, hr.loops, ?_, ?_, ?_, ?_⟩
  · intro id f' g hf' hg
    by_cases hid : id = t.blockid
    · subst hid
      rw [BlockDb.lookup_set_self] at hg
      cases hg
    · rw [BlockDb.lookup_set_ne hid] at hg
      exact hr.full id f' g hf' hg
  · intro id p' hp'
    by_cases hid : id = t.blockid
    · subst hid
      rw [BlockDb.lookup_set_self, Option.some.injEq, Block.Partial.injEq] at hp'
      subst hp'
      exact ⟨f, hf, harrived.stored hi hdata⟩
    · rw [BlockDb.lookup_set_ne hid] at hp'
      exact hr.parts id p' hp'
  · intro hnone
    rw [hc] at hnone
    cases hnone
  · intro c' hc'
    have hbusy := hr.busy c' hc'
    refine ⟨hbusy.pendingRoot, hbusy.listed, hbusy.status, fun id p' hp' => ?_⟩
    obtain ⟨p'', hp''⟩ := hpart hp'
    exact hbusy.tracked id p'' hp''

theorem Receiver.promote {transfers : List (Nat × Nat × BlockId)}
    (hr : Receiver client root db transfers h) (hc : h.clients.lookup client = some c) {t : Transfer}
    {p : Partial} (hblock : h.blockdb.lookup t.blockid = some (.Partial p))
    (hall : ∀ b ∈ p.available, b = true) (pending : Finset BlockId) :
    Receiver client root db transfers { h.setClient client {
        pendingBlockRequests := pending
        transferOut := c.transferOut
        transferIn := { c.transferIn with transfers := c.transferIn.transfers.erase t } } with
      blockdb := h.blockdb.set t.blockid (.Full (Handler.promoted p)) } := by
  obtain ⟨f, hf, harrived⟩ := hr.parts _ p hblock
  have hbusy := hr.busy c hc
  refine hr.setClient ?_ ?_ ?_
  · intro id f' g hf' hg
    by_cases hid : id = t.blockid
    · subst hid
      obtain rfl := BlockDb.full_unique hf hf'
      obtain rfl := BlockDb.full_unique BlockDb.lookup_set_self hg
      exact harrived.complete hall
    · rw [BlockDb.lookup_set_ne hid] at hg
      exact hr.full id f' g hf' hg
  · intro id p' hp'
    by_cases hid : id = t.blockid
    · subst hid
      rw [BlockDb.lookup_set_self] at hp'
      cases hp'
    · rw [BlockDb.lookup_set_ne hid] at hp'
      exact hr.parts id p' hp'
  · refine ⟨hbusy.pendingRoot, fun t' ht' => hbusy.listed t' (List.mem_of_mem_erase ht'), ?_, ?_⟩
    · intro hne
      exact hbusy.status fun hnil => hne (by simp [hnil])
    · intro id p' hp'
      have hid : id ≠ t.blockid := by
        rintro rfl
        rw [BlockDb.lookup_set_self] at hp'
        cases hp'
      rw [BlockDb.lookup_set_ne hid] at hp'
      obtain ⟨t', ht', rfl⟩ := hbusy.tracked id p' hp'
      have hne : t' ≠ t := by
        rintro rfl
        exact hid rfl
      exact ⟨t', (List.mem_erase_of_ne hne).mpr ht', rfl⟩

section Sealing

variable [Sealing]

theorem Receiver.receiveChunk (hr : Receiver client root db out.transfers h) (hs : Serving db out)
    {fuel : Nat} {chunk : TransferPayload} (hp : IsPayload db out.transfers chunk) {verified : Bool}
    (hact : h.receiveChunk fuel client chunk = .ok (verified, h')) :
    Receiver client root db out.transfers h' ∧ ∃ c, h'.clients.lookup client = some c := by
  obtain ⟨t, h₁, p, hstore, hblock, ⟨-, -, rfl⟩ | ⟨c, pending, hall, hc, -, rfl, -⟩⟩ :=
    Handler.receiveChunk_ok hact
  · obtain ⟨c, p, hc, -, -, -, -, -, -, rfl⟩ := Handler.storeChunk_eq_ok.mp hstore
    exact ⟨hr.storeChunk hs hp hstore, c, hc⟩
  · exact ⟨(hr.storeChunk hs hp hstore).promote hc hblock hall pending, _, Handler.setClient_lookup⟩

theorem Receiver.applyUpdate {transfers : List (Nat × Nat × BlockId)}
    (hr : Receiver client root db transfers h) (hc : h.clients.lookup client = some c) {fuel : Nat}
    (hact : h.applyUpdate fuel client = .ok (h', sent)) :
    Receiver client root db transfers h' ∧ ∀ m ∈ sent, FromReceiver root m.1 := by
  obtain ⟨new, fs, hnew, -, rfl, rfl⟩ := Handler.applyUpdate_ok hact
  rw [(hr.busy c hc).pendingRoot, Option.some.injEq] at hnew
  subst hnew
  refine ⟨⟨?_, hr.loops, hr.full, hr.parts, fun _ => ⟨rfl, Or.inl rfl⟩, ?_⟩, ?_⟩
  · intro addr hne
    exact (AList.lookup_erase_ne hne).trans (hr.only addr hne)
  · intro c' hc'
    rw [AList.lookup_erase] at hc'
    cases hc'
  · intro m hm
    obtain ⟨addr, -, rfl⟩ := List.mem_map.mp hm
    exact .rootUpdateResponse rfl

theorem Receiver.transferPayload (hr : Receiver client root db out.transfers h) (hs : Serving db out)
    {fuel : Nat} {chunk : TransferPayload} (hp : IsPayload db out.transfers chunk)
    (hact : h.transferPayload fuel client chunk = .ok (h', sent)) :
    Receiver client root db out.transfers h' ∧ ∀ m ∈ sent, FromReceiver root m.1 := by
  obtain ⟨verified, h₁, hchunk, ⟨-, rfl, rfl⟩ | ⟨-, hupdate⟩⟩ := Handler.transferPayload_ok hact
  · exact ⟨(hr.receiveChunk hs hp hchunk).1, by simp⟩
  · obtain ⟨hr₁, c, hc⟩ := hr.receiveChunk hs hp hchunk
    exact hr₁.applyUpdate hc hupdate

theorem Receiver.receive (hr : Receiver client root db out.transfers h) (hs : Serving db out)
    {fuel now : Nat} {rand : UInt32} {msg : Msg} (hmsg : FromSender root db out.transfers msg)
    (hact : h.receive fuel now rand client msg = .ok (h', sent)) :
    Receiver client root db out.transfers h' ∧ ∀ m ∈ sent, FromReceiver root m.1 := by
  cases hlookup : h.clients.lookup client with
  | none =>
    rw [Handler.receive_unknown hlookup] at hact
    cases hmsg with
    | rootUpdate hu => exact hr.unconnectedRootUpdate hlookup hu (Result.ok.inj hact)
    | blockRequestResponse | transferPayload =>
      obtain ⟨rfl, rfl⟩ := Prod.mk.inj (Result.ok.inj hact)
      exact ⟨hr, by simp⟩
  | some c =>
    rw [Handler.receive_known hlookup] at hact
    cases hmsg with
    | rootUpdate hu =>
      obtain ⟨rfl, rfl⟩ := Prod.mk.inj (Result.ok.inj hact)
      exact ⟨hr, by simp⟩
    | blockRequestResponse hres =>
      simp only [Result.bind_eq_ok, Result.pure_def, Result.ok.injEq, Prod.mk.injEq] at hact
      obtain ⟨h₁, hact, rfl, rfl⟩ := hact
      exact ⟨hr.blockRequestResponse hres hact, by simp⟩
    | transferPayload hp => exact hr.transferPayload hs hp hact

variable [Serde]

theorem Receiver.act (hr : Receiver client root db out.transfers h) (hs : Serving db out)
    {inbox : List Bytes} {e : Event}
    (hinbox : ∀ d ∈ inbox, ∀ msg, MyCodec.decode d = .ok (some msg) →
      FromSender root db out.transfers msg)
    (hact : h.act client inbox e = .ok (h', sent)) :
    Receiver client root db out.transfers h' ∧ ∀ m ∈ sent, FromReceiver root m.1 := by
  obtain ⟨rfl, rfl⟩ | ⟨i, d, msg, -, hd, hmsg, hact⟩ | ⟨addr, hact⟩ | ⟨i, hact⟩ |
    ⟨addr, blockid, hact⟩ := Handler.act_cases hact
  · exact ⟨hr, by simp⟩
  · exact hr.receive hs (hinbox d (List.mem_of_getElem? hd) msg hmsg) hact
  · obtain ⟨rfl, status, rfl⟩ := Handler.statusLoop_ok hact
    refine ⟨hr.setTokens _, fun m hm => ?_⟩
    rw [List.mem_singleton.mp hm]
    exact .transferStatus
  · simp [Handler.transferLoop, hr.loops] at hact
  · obtain ⟨rfl, rfl, -⟩ := Handler.requestRetry_ok hact
    refine ⟨hr, fun m hm => ?_⟩
    rw [List.mem_singleton.mp hm]
    exact .blockRequest

end Sealing

end DasProtokoll.Scsync
