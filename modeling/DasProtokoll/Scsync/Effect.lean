import DasProtokoll.Scsync.HandlerSpec

/-!
# What a message changes

The effects of a message on the blocks and on the tables of transfers, whoever
sent it. All that is said of the store and of the tables follows from these.
-/

namespace DasProtokoll.Scsync

open DasProtokoll

namespace Handler

/-- The table of what is received from a client. -/
def table (h : Handler) (addr : SocketAddr) : Option (List Transfer) :=
  (h.clients.lookup addr).map fun c => c.transferIn.transfers

/-- Neither blocks nor tables change. -/
structure Quiet (h h' : Handler) : Prop where
  blockdb : h'.blockdb = h.blockdb
  table : ∀ addr, h'.table addr = h.table addr

/-- A chunk that has a place in a block. -/
structure Accepts (h : Handler) (addr : SocketAddr) (chunk : TransferPayload) (c : Client)
    (t : Transfer) (p : Partial) : Prop where
  known : h.clients.lookup addr = some c
  waiting : c.transferIn.statusTx = true
  transfer : c.transferIn.transfer chunk.chunkid = .ok t
  block : h.blockdb.lookup t.blockid = some (.Partial p)
  fits : (chunk.chunkid - t.start) * chunkSize + chunk.data.length ≤ p.data.length
  short : chunk.data.length ≤ chunkSize
  index : chunk.chunkid - t.start < p.available.length

/-- All chunks of the block are there. -/
def Whole (p : Partial) : Prop := ∀ b ∈ p.available, b = true

/-- The database with the block that the chunk completes. -/
def completed (db : BlockDb) (t : Transfer) (p : Partial) (chunk : TransferPayload) : BlockDb :=
  db.set t.blockid (.Full (promoted (stored t p chunk)))

/-- What the message from `addr` does. -/
inductive Effect [Sealing] (h : Handler) (addr : SocketAddr) : Msg → Handler → Prop
  | quiet {msg : Msg} {h' : Handler} (hquiet : Quiet h h') : Effect h addr msg h'
  | registered {update : RootUpdate} {h' : Handler} (hnone : h.table addr = none)
    (hroot : update.toBlockref.blockid ≠ h.blockdb.root.blockid)
    (hpending : h.blockdb.pendingRoot = none)
    (hdb : h'.blockdb = h.blockdb.setPendingRoot update.toBlockref) (htable : h'.table addr = some [])
    (hothers : ∀ a, a ≠ addr → h'.table a = h.table a) : Effect h addr (.RootUpdate update) h'
  | announced {res : BlockRequestResponse} {l : List Transfer} {h' : Handler}
    (hknown : h.table addr = some l)
    (hdb : h'.blockdb = h.blockdb.add (.Partial (emptyBlock res.blockid res.len.toNat)))
    (htable : h'.table addr = some (l ++ [announced res]))
    (hothers : ∀ a, a ≠ addr → h'.table a = h.table a) : Effect h addr (.BlockRequestResponse res) h'
  | stored {chunk : TransferPayload} {c : Client} {t : Transfer} {p : Partial} {h' : Handler}
    (haccepts : h.Accepts addr chunk c t p) (hmissing : ¬ Whole (stored t p chunk))
    (hdb : h'.blockdb = h.blockdb.set t.blockid (.Partial (stored t p chunk)))
    (htable : ∀ a, h'.table a = h.table a) : Effect h addr (.TransferPayload chunk) h'
  | completed {chunk : TransferPayload} {c : Client} {t : Transfer} {p : Partial} {h' : Handler}
    {fuel : Nat} (haccepts : h.Accepts addr chunk c t p) (hwhole : Whole (stored t p chunk))
    (hdb : h'.blockdb = completed h.blockdb t p chunk)
    (htable : h'.table addr = some (c.transferIn.transfers.erase t))
    (hothers : ∀ a, a ≠ addr → h'.table a = h.table a)
    (hverify : verify h'.blockdb fuel true = .ok false) : Effect h addr (.TransferPayload chunk) h'
  | applied {chunk : TransferPayload} {c : Client} {t : Transfer} {p : Partial} {h' : Handler}
    {fuel : Nat} {root : BlockRef} (haccepts : h.Accepts addr chunk c t p)
    (hwhole : Whole (stored t p chunk)) (hroot : h.blockdb.pendingRoot = some root)
    (hverify : verify (completed h.blockdb t p chunk) fuel true = .ok true)
    (hdb : h'.blockdb = { completed h.blockdb t p chunk with root, pendingRoot := none })
    (htable : h'.table addr = none) (hothers : ∀ a, a ≠ addr → h'.table a = h.table a) :
    Effect h addr (.TransferPayload chunk) h'

variable {h h' : Handler} {addr : SocketAddr} {c : Client} {sent : Sent}

/-! ## Tables -/

theorem table_eq_some {l : List Transfer} :
    h.table addr = some l ↔ ∃ c, h.clients.lookup addr = some c ∧ c.transferIn.transfers = l := by
  simp [table]

theorem table_of_lookup (hc : h.clients.lookup addr = some c) :
    h.table addr = some c.transferIn.transfers := by
  simp [table, hc]

theorem table_eq_none : h.table addr = none ↔ h.clients.lookup addr = none := by
  simp [table]

@[simp] theorem table_setClient : (h.setClient addr c).table addr = some c.transferIn.transfers :=
  table_of_lookup setClient_lookup

theorem table_setClient_ne {a : SocketAddr} (hne : a ≠ addr) :
    (h.setClient addr c).table a = h.table a := by
  rw [table, setClient_lookup_ne hne, table]

theorem quiet_of_clients {c' : Client} (hc : h.clients.lookup addr = some c)
    (hdb : h'.blockdb = h.blockdb) (hclients : h'.clients = h.clients.insert addr c')
    (hsame : c'.transferIn.transfers = c.transferIn.transfers) : Quiet h h' := by
  refine ⟨hdb, fun a => ?_⟩
  by_cases ha : a = addr
  · subst ha
    rw [table, hclients, AList.lookup_insert, table_of_lookup hc, ← hsame]
    rfl
  · rw [table, hclients, AList.lookup_insert_ne ha, table]

theorem Quiet.refl (h : Handler) : Quiet h h := ⟨rfl, fun _ => rfl⟩

theorem storeChunk_accepts {chunk : TransferPayload} {t : Transfer} :
    h.storeChunk addr chunk = .ok (t, h') ↔
      ∃ c p, h.Accepts addr chunk c t p ∧ h' = { h with
        blockdb := h.blockdb.set t.blockid (.Partial (Handler.stored t p chunk))
        statusTokens := h.statusTokens ++ [addr] } := by
  rw [storeChunk_eq_ok]
  constructor
  · rintro ⟨c, p, hc, htx, ht, hp, hfits, hshort, hindex, hh⟩
    exact ⟨c, p, ⟨hc, htx, ht, hp, hfits, hshort, hindex⟩, hh⟩
  · rintro ⟨c, p, ⟨hc, htx, ht, hp, hfits, hshort, hindex⟩, hh⟩
    exact ⟨c, p, hc, htx, ht, hp, hfits, hshort, hindex, hh⟩

/-! ## Loops -/

theorem statusLoop_quiet (hs : h.statusLoop addr = .ok (h', sent)) : Quiet h h' := by
  obtain ⟨rfl, -⟩ := statusLoop_ok hs
  exact ⟨rfl, fun _ => rfl⟩

theorem requestRetry_quiet {blockid : BlockId} (hr : h.requestRetry addr blockid = .ok (h', sent)) :
    Quiet h h' := by
  obtain ⟨rfl, -⟩ := requestRetry_ok hr
  exact .refl _

theorem transferLoop_quiet {now i : Nat} (hl : h.transferLoop now i = .ok (h', sent)) : Quiet h h' := by
  obtain ⟨addr, wake, -, -, ⟨payload, h₁, hnext, rfl, -⟩ | ⟨-, rfl, -⟩⟩ := transferLoop_ok hl
  · obtain ⟨c, hc, ⟨-, hnone, -⟩ | ⟨cursor, t, f, -, -, -, -, -, -, rfl⟩⟩ := nextPayload_ok hnext
    · cases hnone
    · exact quiet_of_clients hc rfl rfl rfl
  · exact ⟨rfl, fun _ => rfl⟩

/-! ## Messages -/

section Sealing

variable [Sealing] {fuel : Nat}

theorem transferPayload_effect {chunk : TransferPayload}
    (ht : h.transferPayload fuel addr chunk = .ok (h', sent)) :
    Effect h addr (.TransferPayload chunk) h' := by
  obtain ⟨verified, h₁, hrecv, hend⟩ := transferPayload_ok ht
  obtain ⟨t, h₂, p₁, hstore, hp₁, hrecv⟩ := receiveChunk_ok hrecv
  obtain ⟨c, p, haccepts, rfl⟩ := storeChunk_accepts.mp hstore
  rw [BlockDb.lookup_set_self, Option.some.injEq, Block.Partial.injEq] at hp₁
  subst hp₁
  obtain ⟨rfl, ⟨b, hb, hfalse⟩, rfl⟩ | ⟨c', pending, hall, hc', -, rfl, hverify⟩ := hrecv
  · obtain ⟨-, rfl, -⟩ | ⟨htrue, -⟩ := hend
    · refine .stored haccepts (fun hwhole => ?_) rfl fun _ => rfl
      exact absurd (hwhole b hb) (by simp [hfalse])
    · cases htrue
  · have hcc : c' = c := by
      rw [haccepts.known] at hc'
      exact (Option.some.inj hc').symm
    subst hcc
    have hdb : (h.blockdb.set t.blockid (.Partial (Handler.stored t p chunk))).set t.blockid
        (.Full (promoted (Handler.stored t p chunk))) = Handler.completed h.blockdb t p chunk := by
      simp [BlockDb.set, Handler.completed, Finmap.insert_insert]
    simp only [hdb] at hverify hend
    obtain ⟨rfl, rfl, -⟩ | ⟨rfl, hupdate⟩ := hend
    · refine .completed haccepts hall rfl table_setClient (fun a ha => ?_) hverify
      exact table_setClient_ne ha
    · obtain ⟨root, fs, hroot, -, rfl, -⟩ := applyUpdate_ok hupdate
      refine .applied haccepts hall hroot hverify rfl ?_ fun a ha => ?_
      · exact table_eq_none.mpr (AList.lookup_erase _ _)
      · rw [table]
        exact (congrArg _ (AList.lookup_erase_ne ha)).trans (table_setClient_ne ha)

/-- The effects cover all that a message can do. -/
theorem receive_effect {now : Nat} {rand : UInt32} {msg : Msg}
    (hr : h.receive fuel now rand addr msg = .ok (h', sent)) : Effect h addr msg h' := by
  cases hlookup : h.clients.lookup addr with
  | none =>
    rw [receive_unknown hlookup] at hr
    cases msg with
    | RootUpdate update =>
      obtain hr := Result.ok.inj hr
      unfold unconnectedRootUpdate at hr
      split at hr
      · obtain ⟨rfl, -⟩ := Prod.mk.inj hr
        exact .quiet (.refl _)
      · rename_i hroot
        split at hr
        · obtain ⟨rfl, -⟩ := Prod.mk.inj hr
          exact .quiet (.refl _)
        · rename_i hpending
          obtain ⟨rfl, -⟩ := Prod.mk.inj hr
          refine .registered (table_eq_none.mpr hlookup) hroot (by simpa using hpending) rfl ?_ ?_
          · exact table_setClient
          · exact fun a ha => table_setClient_ne ha
    | TransferPayload | TransferStatus | RootUpdateResponse | BlockRequest | BlockRequestResponse =>
      obtain ⟨rfl, -⟩ := Prod.mk.inj (Result.ok.inj hr)
      exact .quiet (.refl _)
  | some c =>
    rw [receive_known hlookup] at hr
    cases msg with
    | RootUpdate update =>
      obtain ⟨rfl, -⟩ := Prod.mk.inj (Result.ok.inj hr)
      exact .quiet (.refl _)
    | RootUpdateResponse res =>
      simp only at hr
      split at hr
      · obtain ⟨rfl, -⟩ := Prod.mk.inj (Result.ok.inj hr)
        exact .quiet (.refl _)
      · simp only [Result.bind_eq_ok, Result.pure_def, Result.ok.injEq, Prod.mk.injEq] at hr
        obtain ⟨h₁, hres, rfl, -⟩ := hr
        obtain ⟨c, hc, rfl⟩ := rootUpdateResponse_ok hres
        exact .quiet (quiet_of_clients hc rfl rfl rfl)
    | BlockRequest req =>
      obtain ⟨c, t, out, block, hc, -, -, rfl, -⟩ := blockRequest_ok hr
      exact .quiet (quiet_of_clients hc rfl rfl rfl)
    | BlockRequestResponse res =>
      simp only [Result.bind_eq_ok, Result.pure_def, Result.ok.injEq, Prod.mk.injEq] at hr
      obtain ⟨h₁, hres, rfl, -⟩ := hr
      obtain ⟨c, tokens, hc, rfl⟩ := blockRequestResponse_ok hres
      refine .announced (table_of_lookup hc) rfl ?_ ?_
      · exact table_setClient
      · exact fun a ha => table_setClient_ne ha
    | TransferPayload payload => exact transferPayload_effect hr
    | TransferStatus status =>
      simp only [Result.bind_eq_ok, Result.pure_def, Result.ok.injEq, Prod.mk.injEq] at hr
      obtain ⟨h₁, hs, rfl, -⟩ := hr
      obtain ⟨c, hc, rfl⟩ := transferStatus_ok hs
      exact .quiet (quiet_of_clients hc rfl rfl rfl)

end Sealing

/-! ## Blocks -/

/-- What one message can make of a block: nothing, a chunk more, or a full block. -/
inductive Next : Block → Block → Prop
  | same (b : Block) : Next b b
  | chunk {p : Partial} {t : Transfer} {chunk : TransferPayload}
    (hindex : chunk.chunkid - t.start < p.available.length) :
    Next (.Partial p) (.Partial (Handler.stored t p chunk))
  | full {p : Partial} {t : Transfer} {chunk : TransferPayload}
    (hwhole : Whole (Handler.stored t p chunk)) :
    Next (.Partial p) (.Full (promoted (Handler.stored t p chunk)))

/-- No block waits for its promotion. A block without chunks is never promoted. -/
def Open (db : BlockDb) : Prop :=
  ∀ id p, db.lookup id = some (.Partial p) → p.available ≠ [] → ¬ Whole p

theorem lookup_completed_self {db : BlockDb} {t : Transfer} {p : Partial} {chunk : TransferPayload} :
    (Handler.completed db t p chunk).lookup t.blockid =
      some (.Full (promoted (Handler.stored t p chunk))) :=
  BlockDb.lookup_set_self

theorem lookup_completed_ne {db : BlockDb} {t : Transfer} {p : Partial} {chunk : TransferPayload}
    {id : BlockId} (hid : id ≠ t.blockid) :
    (Handler.completed db t p chunk).lookup id = db.lookup id :=
  BlockDb.lookup_set_ne hid

theorem next_completed {chunk : TransferPayload} {t : Transfer} {p : Partial}
    (haccepts : h.Accepts addr chunk c t p) (hwhole : Whole (Handler.stored t p chunk)) {id : BlockId}
    {b : Block} (hb : h.blockdb.lookup id = some b) :
    ∃ b', (Handler.completed h.blockdb t p chunk).lookup id = some b' ∧ Next b b' := by
  by_cases hid : id = t.blockid
  · subst hid
    rw [haccepts.block, Option.some.injEq] at hb
    subst hb
    exact ⟨_, lookup_completed_self, .full hwhole⟩
  · exact ⟨b, by rw [lookup_completed_ne hid, hb], .same b⟩

theorem new_completed {chunk : TransferPayload} {t : Transfer} {p : Partial}
    (haccepts : h.Accepts addr chunk c t p) {id : BlockId} (hnone : h.blockdb.lookup id = none) :
    (Handler.completed h.blockdb t p chunk).lookup id = none := by
  rw [lookup_completed_ne, hnone]
  rintro rfl
  rw [haccepts.block] at hnone
  cases hnone

theorem open_completed {db : BlockDb} (hopen : Open db) {t : Transfer} {p : Partial}
    {chunk : TransferPayload} : Open (Handler.completed db t p chunk) := by
  intro id p' hp'
  by_cases hid : id = t.blockid
  · subst hid
    exact absurd (lookup_completed_self.symm.trans hp') (by simp)
  · exact hopen id p' ((lookup_completed_ne hid).symm.trans hp')

section Sealing

variable [Sealing] {msg : Msg}

theorem Effect.next (he : Effect h addr msg h') {id : BlockId} {b : Block}
    (hb : h.blockdb.lookup id = some b) : ∃ b', h'.blockdb.lookup id = some b' ∧ Next b b' := by
  cases he with
  | quiet hquiet => exact ⟨b, by rw [hquiet.blockdb, hb], .same b⟩
  | registered hnone hroot hpending hdb => exact ⟨b, by rw [hdb]; exact hb, .same b⟩
  | announced hknown hdb => exact ⟨b, by rw [hdb]; exact BlockDb.lookup_add_of_some hb, .same b⟩
  | @stored chunk c t p h' haccepts hmissing hdb htable =>
    rw [hdb]
    by_cases hid : id = t.blockid
    · subst hid
      rw [haccepts.block, Option.some.injEq] at hb
      subst hb
      exact ⟨_, BlockDb.lookup_set_self, .chunk haccepts.index⟩
    · exact ⟨b, by rw [BlockDb.lookup_set_ne hid, hb], .same b⟩
  | completed haccepts hwhole hdb =>
    rw [hdb]
    exact next_completed haccepts hwhole hb
  | applied haccepts hwhole hroot hverify hdb =>
    rw [hdb]
    exact next_completed haccepts hwhole hb

theorem Effect.new (he : Effect h addr msg h') {id : BlockId} {b : Block}
    (hnone : h.blockdb.lookup id = none) (hb : h'.blockdb.lookup id = some b) :
    ∃ len, b = .Partial (emptyBlock id len) := by
  cases he with
  | quiet hquiet =>
    rw [hquiet.blockdb, hnone] at hb
    cases hb
  | registered hnone' hroot hpending hdb =>
    rw [hdb] at hb
    exact absurd (hnone.symm.trans hb) (by simp)
  | announced hknown hdb =>
    rw [hdb] at hb
    rcases BlockDb.lookup_add hb with hb | ⟨rfl, rfl, -⟩
    · rw [hnone] at hb
      cases hb
    · exact ⟨_, rfl⟩
  | stored haccepts hmissing hdb =>
    rw [hdb, BlockDb.lookup_set_ne, hnone] at hb
    · cases hb
    · rintro rfl
      rw [haccepts.block] at hnone
      cases hnone
  | completed haccepts hwhole hdb =>
    rw [hdb, new_completed haccepts hnone] at hb
    cases hb
  | applied haccepts hwhole hroot hverify hdb =>
    rw [hdb] at hb
    exact absurd ((new_completed haccepts hnone).symm.trans hb) (by simp)

theorem Effect.open (he : Effect h addr msg h') (hopen : Open h.blockdb) : Open h'.blockdb := by
  cases he with
  | quiet hquiet => exact hquiet.blockdb ▸ hopen
  | registered hnone hroot hpending hdb => exact hdb ▸ hopen
  | announced hknown hdb =>
    rw [hdb]
    intro id p hp hne
    rcases BlockDb.lookup_add hp with hp | ⟨-, hp, -⟩
    · exact hopen id p hp hne
    · rw [Block.Partial.injEq] at hp
      subst hp
      intro hwhole
      obtain ⟨b, hb⟩ := List.exists_mem_of_ne_nil _ hne
      exact absurd (hwhole b hb) (by simp [(List.mem_replicate.mp hb).2])
  | @stored chunk c t p h' haccepts hmissing hdb htable =>
    rw [hdb]
    intro id p' hp' hne
    by_cases hid : id = t.blockid
    · subst hid
      rw [BlockDb.lookup_set_self, Option.some.injEq, Block.Partial.injEq] at hp'
      exact hp' ▸ hmissing
    · rw [BlockDb.lookup_set_ne hid] at hp'
      exact hopen id p' hp' hne
  | completed haccepts hwhole hdb =>
    rw [hdb]
    exact open_completed hopen
  | applied haccepts hwhole hroot hverify hdb =>
    rw [hdb]
    exact open_completed hopen

end Sealing

end Handler

end DasProtokoll.Scsync
