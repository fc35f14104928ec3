import DasProtokoll.Scsync.Handler

/-!
# What the handler can do

For each function, what is known of the state before and after it when it does
not panic.
-/

namespace DasProtokoll.Scsync

open DasProtokoll

theorem toNat_ofNat {n : Nat} (h : n < u64Size) : (UInt64.ofNat n).toNat = n :=
  UInt64.toNat_ofNat_of_lt h

namespace Handler

variable {h h' : Handler} {addr addr' : SocketAddr} {c : Client} {sent : Sent}

@[simp] theorem client_eq_ok : h.client addr = .ok c ↔ h.clients.lookup addr = some c :=
  Result.unwrap_eq_ok

@[simp] theorem setClient_lookup : (h.setClient addr c).clients.lookup addr = some c :=
  AList.lookup_insert _

theorem setClient_lookup_ne (hne : addr' ≠ addr) :
    (h.setClient addr c).clients.lookup addr' = h.clients.lookup addr' :=
  AList.lookup_insert_ne hne

@[simp] theorem setClient_blockdb : (h.setClient addr c).blockdb = h.blockdb := rfl
@[simp] theorem setClient_folder : (h.setClient addr c).folder = h.folder := rfl
@[simp] theorem setClient_fs : (h.setClient addr c).fs = h.fs := rfl
@[simp] theorem setClient_packetDelay : (h.setClient addr c).packetDelay = h.packetDelay := rfl
@[simp] theorem setClient_statusTokens : (h.setClient addr c).statusTokens = h.statusTokens := rfl
@[simp] theorem setClient_transferLoops : (h.setClient addr c).transferLoops = h.transferLoops := rfl

/-! ## Serving blocks -/

theorem allocate_ok {out out' : TransferOut} {db : BlockDb} {blockid : BlockId}
    {t : Nat × Nat × BlockId} (ha : allocate out db blockid = .ok (t, out')) :
    (t ∈ out.transfers ∧ t.2.2 = blockid ∧ out' = out) ∨
      ∃ block, db.lookup blockid = some block ∧ (∀ t ∈ out.transfers, t.2.2 ≠ blockid) ∧
        out.transferCursor + block.len < u64Size ∧
        t = (out.transferCursor, out.transferCursor + block.len, blockid) ∧
        out' = { out with
          transferCursor := out.transferCursor + block.len
          transfers := out.transfers ++ [t] } := by
  unfold allocate at ha
  split at ha
  · rename_i t' hfind
    rw [Result.pure_def, Result.ok.injEq, Prod.mk.injEq] at ha
    obtain ⟨rfl, rfl⟩ := ha
    exact Or.inl ⟨List.mem_of_find?_eq_some hfind, by simpa using List.find?_some hfind, rfl⟩
  · rename_i hnone
    simp only [Result.bind_eq_ok, BlockDb.get_eq_ok, Result.assert_eq_ok, Result.pure_def,
      Result.ok.injEq, Prod.mk.injEq] at ha
    obtain ⟨block, hblock, _, hlt, rfl, rfl⟩ := ha
    refine Or.inr ⟨block, hblock, ?_, hlt, rfl, rfl⟩
    intro t ht
    simpa using List.find?_eq_none.mp hnone t ht

theorem blockRequest_ok {req : BlockRequest} (hr : h.blockRequest addr req = .ok (h', sent)) :
    ∃ c t out block, h.clients.lookup addr = some c ∧
      allocate c.transferOut h.blockdb req.blockid = .ok (t, out) ∧
      h.blockdb.lookup req.blockid = some block ∧
      h' = h.setClient addr { c with transferOut := out } ∧
      sent = [(.BlockRequestResponse {
        blockid := req.blockid
        startId := .ofNat t.1
        endId := .ofNat t.2.1
        len := .ofNat block.len }, addr)] := by
  simp only [blockRequest, Result.bind_eq_ok, client_eq_ok, BlockDb.get_eq_ok, Result.pure_def,
    Result.ok.injEq, Prod.mk.injEq] at hr
  obtain ⟨c, hc, ⟨t, out⟩, ha, block, hblock, rfl, rfl⟩ := hr
  exact ⟨c, t, out, block, hc, ha, hblock, rfl, rfl⟩

theorem transferStatus_eq (hc : h.clients.lookup addr = some c) (now : Nat) (status : TransferStatus) :
    h.transferStatus now addr status = .ok { h.setClient addr { c with
      transferOut := { c.transferOut with
        cursor := status.missingRanges.head?.map fun x => x.1
        todo := status.missingRanges } } with
      transferLoops :=
        if c.transferOut.cursor = none ∧ status.missingRanges ≠ [] then
          h.transferLoops ++ [(addr, now)]
        else h.transferLoops } := by
  cases hs : status.missingRanges <;> cases hcur : c.transferOut.cursor <;>
    simp [transferStatus, Handler.client, hc, hs, hcur, setClient]

theorem transferStatus_ok {now : Nat} {status : TransferStatus}
    (hs : h.transferStatus now addr status = .ok h') :
    ∃ c, h.clients.lookup addr = some c ∧ h' = { h.setClient addr { c with
      transferOut := { c.transferOut with
        cursor := status.missingRanges.head?.map fun x => x.1
        todo := status.missingRanges } } with
      transferLoops :=
        if c.transferOut.cursor = none ∧ status.missingRanges ≠ [] then
          h.transferLoops ++ [(addr, now)]
        else h.transferLoops } := by
  obtain ⟨c, hc, -⟩ := Result.bind_eq_ok.mp hs
  rw [client_eq_ok] at hc
  rw [transferStatus_eq hc, Result.ok.injEq] at hs
  exact ⟨c, hc, hs.symm⟩

theorem nextPayload_ok {payload : Option TransferPayload}
    (hn : h.nextPayload addr = .ok (payload, h')) :
    ∃ c, h.clients.lookup addr = some c ∧
      ((c.transferOut.cursor = none ∧ payload = none ∧ h' = h) ∨
        ∃ cursor t f, c.transferOut.cursor = some cursor ∧ t ∈ c.transferOut.transfers ∧
          t.1 ≤ cursor ∧ cursor < t.2.1 ∧ h.blockdb.lookup t.2.2 = some (.Full f) ∧
          payload = some {
            chunkid := cursor
            data := slice f.data ((cursor - t.1) * chunkSize) chunkSize } ∧
          h' = h.setClient addr { c with
            transferOut := { c.transferOut with
              cursor := Ranges.firstFrom c.transferOut.todo (cursor + 1) } }) := by
  simp only [nextPayload, Result.bind_eq_ok, client_eq_ok] at hn
  obtain ⟨c, hc, hn⟩ := hn
  refine ⟨c, hc, ?_⟩
  split at hn
  · rename_i hcur
    rw [Result.pure_def, Result.ok.injEq, Prod.mk.injEq] at hn
    exact Or.inl ⟨hcur, hn.1.symm, hn.2.symm⟩
  · rename_i cursor hcur
    split at hn
    · cases hn
    · rename_i lo hi blockid hfind
      simp only [Result.bind_eq_ok, Result.assert_eq_ok, Result.pure_def, Result.ok.injEq,
        Prod.mk.injEq, BlockDb.getFull, BlockDb.get_eq_ok] at hn
      obtain ⟨f, ⟨block, hblock, hf⟩, _, _, rfl, rfl⟩ := hn
      have hin := List.find?_some hfind
      simp only [decide_eq_true_eq] at hin
      refine Or.inr ⟨cursor, _, f, hcur, List.mem_of_find?_eq_some hfind, hin.1, hin.2, ?_, rfl, rfl⟩
      cases block with
      | Full f' =>
        obtain rfl := Result.ok.inj hf
        exact hblock
      | Partial p => cases hf

theorem transferLoop_ok {now i : Nat} (hl : h.transferLoop now i = .ok (h', sent)) :
    ∃ addr wake, h.transferLoops[i]? = some (addr, wake) ∧ wake ≤ now ∧
      ((∃ payload h₁, h.nextPayload addr = .ok (some payload, h₁) ∧
          h' = { h₁ with transferLoops := h₁.transferLoops.set i (addr, now + h₁.packetDelay) } ∧
          sent = [(.TransferPayload payload, addr)]) ∨
        (h.nextPayload addr = .ok (none, h) ∧
          h' = { h with transferLoops := h.transferLoops.eraseIdx i } ∧ sent = [])) := by
  simp only [transferLoop, Result.bind_eq_ok, Result.unwrap_eq_ok, Result.assert_eq_ok] at hl
  obtain ⟨⟨addr, wake⟩, hloop, _, hwake, ⟨payload, h₁⟩, hnext, hl⟩ := hl
  refine ⟨addr, wake, hloop, hwake, ?_⟩
  cases payload with
  | some payload =>
    simp only [Result.pure_def, Result.ok.injEq, Prod.mk.injEq] at hl
    exact Or.inl ⟨payload, h₁, hnext, hl.1.symm, hl.2.symm⟩
  | none =>
    simp only [Result.pure_def, Result.ok.injEq, Prod.mk.injEq] at hl
    obtain ⟨c, -, ⟨-, -, rfl⟩ | ⟨_, _, _, _, _, _, _, _, hsome, -⟩⟩ := nextPayload_ok hnext
    · exact Or.inr ⟨hnext, hl.1.symm, hl.2.symm⟩
    · cases hsome

/-! ## Receiving blocks -/

theorem rootUpdateResponse_ok {res : RootUpdateResponse} (hr : h.rootUpdateResponse addr res = .ok h') :
    ∃ c, h.clients.lookup addr = some c ∧
      h' = h.setClient addr (c.sendBlockRequest { blockid := res.toBlockid }) := by
  simp only [rootUpdateResponse, Result.bind_eq_ok, client_eq_ok, Result.pure_def, Result.ok.injEq] at hr
  obtain ⟨c, hc, rfl⟩ := hr
  exact ⟨c, hc, rfl⟩

theorem requestRetry_ok {blockid : BlockId} (hr : h.requestRetry addr blockid = .ok (h', sent)) :
    h' = h ∧ sent = [(.BlockRequest { blockid }, addr)] ∧
      ∃ c, h.clients.lookup addr = some c ∧ blockid ∈ c.pendingBlockRequests := by
  simp only [requestRetry, Result.bind_eq_ok, client_eq_ok, Result.assert_eq_ok, Result.pure_def,
    Result.ok.injEq, Prod.mk.injEq] at hr
  obtain ⟨c, hc, _, hmem, rfl, rfl⟩ := hr
  exact ⟨rfl, rfl, c, hc, hmem⟩

def announced (res : BlockRequestResponse) : Transfer :=
  { blockid := res.blockid, start := res.startId.toNat, stop := res.endId.toNat }

@[simp] theorem announced_blockid (res : BlockRequestResponse) :
    (announced res).blockid = res.blockid := rfl

def emptyBlock (blockid : BlockId) (len : Nat) : Partial where
  id := blockid
  data := List.replicate len 0
  available := List.replicate ((len + chunkSize - 1) / chunkSize) false

theorem blockRequestResponse_ok {res : BlockRequestResponse}
    (hr : h.blockRequestResponse addr res = .ok h') :
    ∃ c tokens, h.clients.lookup addr = some c ∧
      h' = { h.setClient addr { c with
          pendingBlockRequests := c.pendingBlockRequests.erase res.blockid
          transferIn := {
            transfers := c.transferIn.transfers ++ [announced res]
            statusTx := c.transferIn.transfers.isEmpty || c.transferIn.statusTx } } with
        blockdb := h.blockdb.add (.Partial (emptyBlock res.blockid res.len.toNat))
        statusTokens := tokens } := by
  simp only [blockRequestResponse, Result.bind_eq_ok, client_eq_ok, Result.assert_eq_ok,
    Result.pure_def, Result.ok.injEq] at hr
  obtain ⟨c, hc, _, _, rfl⟩ := hr
  have hlaunch : decide ((c.transferIn.transfers ++ [announced res]).length = 1) =
      c.transferIn.transfers.isEmpty := by
    cases c.transferIn.transfers <;> simp
  refine ⟨c, if (c.transferIn.transfers ++ [announced res]).length = 1 then h.statusTokens ++ [addr]
    else h.statusTokens, hc, ?_⟩
  rw [← hlaunch]
  rfl

theorem statusLoop_ok (hs : h.statusLoop addr = .ok (h', sent)) :
    h' = { h with statusTokens := h.statusTokens.erase addr } ∧
      ∃ status, sent = [(.TransferStatus status, addr)] := by
  simp only [statusLoop, Result.bind_eq_ok, Result.pure_def, Result.ok.injEq, Prod.mk.injEq] at hs
  obtain ⟨_, _, rle, _, rfl, rfl⟩ := hs
  exact ⟨rfl, _, rfl⟩

def stored (t : Transfer) (p : Partial) (chunk : TransferPayload) : Partial :=
  { p with
    data := overwrite 0 p.data ((chunk.chunkid - t.start) * chunkSize) chunk.data
    available := p.available.set (chunk.chunkid - t.start) true }

theorem transfer_ok {tin : TransferIn} {chunkid : Nat} {t : Transfer}
    (ht : tin.transfer chunkid = .ok t) :
    t ∈ tin.transfers ∧ t.start ≤ chunkid ∧ chunkid < t.stop := by
  rw [TransferIn.transfer, Result.unwrap_eq_ok] at ht
  have hin := List.find?_some ht
  simp only [decide_eq_true_eq] at hin
  exact ⟨List.mem_of_find?_eq_some ht, hin⟩

theorem partialRef_eq_ok {block : Block} {p : Partial} :
    block.partialRef = .ok p ↔ block = .Partial p := by
  cases block <;> simp [Block.partialRef]

theorem storeChunk_eq_ok {chunk : TransferPayload} {t : Transfer} :
    h.storeChunk addr chunk = .ok (t, h') ↔
      ∃ c p, h.clients.lookup addr = some c ∧ c.transferIn.statusTx = true ∧
        c.transferIn.transfer chunk.chunkid = .ok t ∧
        h.blockdb.lookup t.blockid = some (.Partial p) ∧
        (chunk.chunkid - t.start) * chunkSize + chunk.data.length ≤ p.data.length ∧
        chunk.data.length ≤ chunkSize ∧ chunk.chunkid - t.start < p.available.length ∧
        h' = { h with
          blockdb := h.blockdb.set t.blockid (.Partial (stored t p chunk))
          statusTokens := h.statusTokens ++ [addr] } := by
  simp only [storeChunk, Result.bind_eq_ok, client_eq_ok, Result.assert_eq_ok, BlockDb.get_eq_ok,
    partialRef_eq_ok, Result.pure_def, Result.ok.injEq, Prod.mk.injEq]
  constructor
  · rintro ⟨c, hc, _, htx, t, ht, _, hblock, p, rfl, _, hfits, _, hlen, _, hid, rfl, rfl⟩
    exact ⟨c, p, hc, htx, ht, hblock, by omega, by omega, hid, rfl⟩
  · rintro ⟨c, p, hc, htx, ht, hblock, hfits, hlen, hid, rfl⟩
    exact ⟨c, hc, (), htx, t, ht, _, hblock, p, rfl, (), by omega, (), by omega, (), hid, rfl, rfl⟩

theorem requestMissing_ok {refs : List BlockRef}
    (hr : (h.setClient addr c).requestMissing addr refs = .ok h') :
    ∃ pending, h' = h.setClient addr { c with pendingBlockRequests := pending } := by
  induction refs generalizing c with
  | nil =>
    rw [requestMissing, Result.pure_def, Result.ok.injEq] at hr
    exact ⟨c.pendingBlockRequests, hr.symm⟩
  | cons r refs ih =>
    rw [requestMissing] at hr
    split at hr
    · exact ih hr
    · simp only [Result.bind_eq_ok, client_eq_ok, setClient_lookup, Option.some.injEq] at hr
      obtain ⟨_, rfl, hr⟩ := hr
      have htwice (c' : Client) : (h.setClient addr c).setClient addr c' = h.setClient addr c' := by
        simp [setClient, AList.insert_insert]
      rw [htwice] at hr
      obtain ⟨pending, rfl⟩ := ih hr
      exact ⟨pending, rfl⟩

section Sealing

variable [Sealing] {fuel : Nat}

/-- The block that comes out of a partial one. -/
def promoted (p : Partial) : Full := { id := p.id, data := p.data }

theorem receiveChunk_ok {chunk : TransferPayload} {verified : Bool}
    (hr : h.receiveChunk fuel addr chunk = .ok (verified, h')) :
    ∃ t h₁ p, h.storeChunk addr chunk = .ok (t, h₁) ∧
      h₁.blockdb.lookup t.blockid = some (.Partial p) ∧
      ((verified = false ∧ (∃ b ∈ p.available, b = false) ∧ h' = h₁) ∨
        ∃ c pending, (∀ b ∈ p.available, b = true) ∧ h₁.clients.lookup addr = some c ∧
          t ∈ c.transferIn.transfers ∧
          h' = { h₁.setClient addr {
              pendingBlockRequests := pending
              transferOut := c.transferOut
              transferIn := { c.transferIn with transfers := c.transferIn.transfers.erase t } } with
            blockdb := h₁.blockdb.set t.blockid (.Full (promoted p)) } ∧
          verify h'.blockdb fuel true = .ok verified) := by
  simp only [receiveChunk, Result.bind_eq_ok] at hr
  obtain ⟨⟨t, h₁⟩, hstore, ⟨done, db⟩, hpromote, hr⟩ := hr
  obtain ⟨p, hp, ⟨rfl, rfl, hmissing⟩ | ⟨rfl, hall, rfl⟩⟩ := BlockDb.tryPromote_ok hpromote
  · simp only [Bool.not_false, if_true, Result.pure_def, Result.ok.injEq, Prod.mk.injEq] at hr
    exact ⟨t, h₁, p, hstore, hp, Or.inl ⟨hr.1.symm, hmissing, hr.2.symm⟩⟩
  · simp only [Bool.not_true, Bool.false_eq_true, if_false, Result.bind_eq_ok, client_eq_ok,
      Result.assert_eq_ok, Result.pure_def, Result.ok.injEq, Prod.mk.injEq] at hr
    obtain ⟨c, hc, _, hmem, dec, -, h₂, hmissing, v, hverify, rfl, rfl⟩ := hr
    obtain ⟨pending, rfl⟩ := requestMissing_ok hmissing
    exact ⟨t, h₁, p, hstore, hp, Or.inr ⟨c, pending, hall, hc, hmem, rfl, hverify⟩⟩

theorem applyUpdate_ok (hu : h.applyUpdate fuel addr = .ok (h', sent)) :
    ∃ root fs, h.blockdb.pendingRoot = some root ∧
      (BlockDb.writeToDir { h.blockdb with root, pendingRoot := none } fuel h.folder).run h.fs =
        .ok ((), fs) ∧
      h' = { h with
        blockdb := { h.blockdb with root, pendingRoot := none }
        fs
        clients := h.clients.erase addr } ∧
      sent = h.clients.keys.map fun clientAddr => (.RootUpdateResponse {
        fromBlockid := h.blockdb.root.blockid
        toBlockid := root.blockid
        toKey := root.key }, clientAddr) := by
  simp only [applyUpdate, BlockDb.applyPending, Result.bind_eq_ok, Result.unwrap_eq_ok,
    Result.pure_def, Result.ok.injEq, Prod.mk.injEq] at hu
  obtain ⟨⟨old, db⟩, ⟨root, hroot, rfl, rfl⟩, ⟨⟨⟩, fs⟩, hrun, rfl, rfl⟩ := hu
  exact ⟨root, fs, hroot, hrun, rfl, rfl⟩

theorem transferPayload_ok {chunk : TransferPayload}
    (ht : h.transferPayload fuel addr chunk = .ok (h', sent)) :
    ∃ verified h₁, h.receiveChunk fuel addr chunk = .ok (verified, h₁) ∧
      ((verified = false ∧ h' = h₁ ∧ sent = []) ∨
        (verified = true ∧ h₁.applyUpdate fuel addr = .ok (h', sent))) := by
  simp only [transferPayload, Result.bind_eq_ok] at ht
  obtain ⟨⟨verified, h₁⟩, hr, ht⟩ := ht
  refine ⟨verified, h₁, hr, ?_⟩
  cases verified with
  | false =>
    simp only [Bool.not_false, if_true, Result.pure_def, Result.ok.injEq, Prod.mk.injEq] at ht
    exact Or.inl ⟨rfl, ht.1.symm, ht.2.symm⟩
  | true => exact Or.inr ⟨rfl, ht⟩

/-! ## Dispatch -/

variable {now : Nat} {rand : UInt32} {msg : Msg}

theorem receive_unknown (hnone : h.clients.lookup addr = none) :
    h.receive fuel now rand addr msg =
      match msg with
      | .RootUpdate update => .ok (h.unconnectedRootUpdate addr update rand)
      | _ => .ok (h, []) := by
  unfold receive
  rw [if_pos hnone]
  cases msg <;> rfl

theorem receive_known (hsome : h.clients.lookup addr = some c) :
    h.receive fuel now rand addr msg =
      match msg with
      | .RootUpdate _ => .ok (h, [])
      | .RootUpdateResponse res =>
        if !h.needsUpdate res then .ok (h, [])
        else do return (← h.rootUpdateResponse addr res, [])
      | .BlockRequest req => h.blockRequest addr req
      | .BlockRequestResponse res => do return (← h.blockRequestResponse addr res, [])
      | .TransferPayload payload => h.transferPayload fuel addr payload
      | .TransferStatus status => do return (← h.transferStatus now addr status, []) := by
  unfold receive
  rw [if_neg (by simp [hsome])]
  cases msg <;> rfl

end Sealing

end Handler

end DasProtokoll.Scsync
