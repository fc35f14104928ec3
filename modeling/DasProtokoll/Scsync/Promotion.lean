import DasProtokoll.Scsync.Effect

/-!
# The end of a block

A chunk is stored, and the last one of a block makes it full. Then the blocks that
it leads to are requested, and the new root is verified.
-/

namespace DasProtokoll.Scsync

open DasProtokoll

namespace Handler

variable {h h' : Handler} {addr : SocketAddr} {c : Client} {t : Transfer} {p : Partial}
  {chunk : TransferPayload} {id : BlockId}

/-! ## Requests -/

/-- The blocks that are requested because nothing of them is there. -/
def missingRefs (db : BlockDb) (refs : List BlockRef) : Finset BlockId :=
  ((refs.filter fun r => !db.contains r.blockid).map fun r => r.blockid).toFinset

theorem mem_missingRefs {db : BlockDb} {refs : List BlockRef} :
    id ∈ missingRefs db refs ↔ db.lookup id = none ∧ ∃ r ∈ refs, r.blockid = id := by
  simp only [missingRefs, List.mem_toFinset, List.mem_map, List.mem_filter, Bool.not_eq_true',
    BlockDb.contains_eq_false]
  constructor
  · rintro ⟨r, ⟨hr, hnone⟩, rfl⟩
    exact ⟨hnone, r, hr, rfl⟩
  · rintro ⟨hnone, r, hr, rfl⟩
    exact ⟨r, ⟨hr, hnone⟩, rfl⟩

theorem requestMissing_eq (h : Handler) (addr : SocketAddr) (c : Client) (refs : List BlockRef) :
    (h.setClient addr c).requestMissing addr refs = .ok (h.setClient addr { c with
      pendingBlockRequests := missingRefs h.blockdb refs ∪ c.pendingBlockRequests }) := by
  induction refs generalizing c with
  | nil => simp [requestMissing, missingRefs]
  | cons r refs ih =>
    rw [requestMissing, setClient_blockdb]
    split
    · rename_i hcontains
      rw [ih]
      simp [missingRefs, hcontains]
    · rename_i hcontains
      have htwice (c' : Client) : (h.setClient addr c).setClient addr c' = h.setClient addr c' := by
        simp [setClient, AList.insert_insert]
      rw [client_eq_ok.mpr setClient_lookup, Result.bind_ok, htwice, ih]
      simp [missingRefs, hcontains, Client.sendBlockRequest]

/-! ## Chunks -/

/-- What a chunk makes of the node when others of its block are still missing. -/
def withChunk (h : Handler) (addr : SocketAddr) (t : Transfer) (p : Partial) (chunk : TransferPayload) :
    Handler :=
  { h with
    blockdb := h.blockdb.set t.blockid (.Partial (stored t p chunk))
    statusTokens := h.statusTokens ++ [addr] }

/-- What the last chunk of a block makes of the node, when `dec` is in the block. -/
def withBlock (h : Handler) (addr : SocketAddr) (c : Client) (t : Transfer) (p : Partial)
    (chunk : TransferPayload) (dec : Decoded) : Handler :=
  { h.setClient addr {
      pendingBlockRequests :=
        missingRefs (completed h.blockdb t p chunk) (blockrefs dec) ∪ c.pendingBlockRequests
      transferOut := c.transferOut
      transferIn := { c.transferIn with transfers := c.transferIn.transfers.erase t } } with
    blockdb := completed h.blockdb t p chunk
    statusTokens := h.statusTokens ++ [addr] }

theorem whole_iff : Whole p ↔ false ∉ p.available := by
  constructor
  · intro hwhole hf
    cases hwhole false hf
  · intro hf b hb
    cases b with
    | true => rfl
    | false => exact absurd hb hf

theorem tryPromote_missing {db : BlockDb} (hp : db.lookup id = some (.Partial p)) (hmissing : ¬ Whole p) :
    db.tryPromote id = .ok (false, db) := by
  rw [whole_iff, not_not] at hmissing
  simp [BlockDb.tryPromote, BlockDb.get, hp, Block.partialRef, hmissing]

theorem tryPromote_whole {db : BlockDb} (hp : db.lookup id = some (.Partial p)) (hwhole : Whole p) :
    db.tryPromote id = .ok (true, db.set id (.Full (promoted p))) := by
  rw [whole_iff] at hwhole
  simp [BlockDb.tryPromote, BlockDb.get, hp, Block.partialRef, hwhole, promoted]

theorem set_completed {db : BlockDb} :
    (db.set t.blockid (.Partial (stored t p chunk))).set t.blockid (.Full (promoted (stored t p chunk))) =
      completed db t p chunk := by
  simp [BlockDb.set, completed, Finmap.insert_insert]

section Sealing

variable [Sealing] {fuel : Nat}

theorem receiveChunk_missing (ha : h.Accepts addr chunk c t p) (hmissing : ¬ Whole (stored t p chunk)) :
    h.receiveChunk fuel addr chunk = .ok (false, h.withChunk addr t p chunk) := by
  rw [receiveChunk, storeChunk_accepts.mpr ⟨c, p, ha, rfl⟩, Result.bind_ok]
  simp only [tryPromote_missing BlockDb.lookup_set_self hmissing, Result.bind_ok, Bool.not_false, if_true,
    Result.pure_def]
  rfl

theorem receiveChunk_whole (ha : h.Accepts addr chunk c t p) (hwhole : Whole (stored t p chunk)) :
    h.receiveChunk fuel addr chunk = (do
      let dec ← resolve (completed h.blockdb t p chunk) fuel t.blockid true
      let verified ← verify (completed h.blockdb t p chunk) fuel true
      return (verified, h.withBlock addr c t p chunk dec)) := by
  have hmem := (transfer_ok ha.transfer).1
  have hclient : ({ h.withChunk addr t p chunk with blockdb := completed h.blockdb t p chunk } :
      Handler).client addr = .ok c := client_eq_ok.mpr ha.known
  rw [receiveChunk, storeChunk_accepts.mpr ⟨c, p, ha, rfl⟩, Result.bind_ok]
  simp only [tryPromote_whole BlockDb.lookup_set_self hwhole, Result.bind_ok, Bool.not_true,
    Bool.false_eq_true, if_false, set_completed]
  rw [withChunk] at hclient
  rw [hclient, Result.bind_ok, Result.assert_of hmem, Result.bind_ok]
  simp only [requestMissing_eq, Result.bind_ok]
  rfl

theorem receiveChunk_accepts {verified : Bool} (hr : h.receiveChunk fuel addr chunk = .ok (verified, h')) :
    ∃ c t p, h.Accepts addr chunk c t p ∧
      (¬ Whole (stored t p chunk) ∧ verified = false ∧ h' = h.withChunk addr t p chunk ∨
        Whole (stored t p chunk) ∧ ∃ dec, h' = h.withBlock addr c t p chunk dec ∧
          resolve (completed h.blockdb t p chunk) fuel t.blockid true = .ok dec ∧
          verify (completed h.blockdb t p chunk) fuel true = .ok verified) := by
  obtain ⟨⟨t, h₁⟩, hstore, -⟩ := Result.bind_eq_ok.mp hr
  obtain ⟨c, p, ha, -⟩ := storeChunk_accepts.mp hstore
  refine ⟨c, t, p, ha, ?_⟩
  by_cases hwhole : Whole (stored t p chunk)
  · rw [receiveChunk_whole ha hwhole] at hr
    simp only [Result.bind_eq_ok, Result.pure_def, Result.ok.injEq, Prod.mk.injEq] at hr
    obtain ⟨dec, hdec, v, hverify, rfl, rfl⟩ := hr
    exact Or.inr ⟨hwhole, dec, rfl, hdec, hverify⟩
  · rw [receiveChunk_missing ha hwhole, Result.ok.injEq, Prod.mk.injEq] at hr
    exact Or.inl ⟨hwhole, hr.1.symm, hr.2.symm⟩

end Sealing

end Handler

end DasProtokoll.Scsync
