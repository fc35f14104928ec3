import DasProtokoll.Scsync.System
import DasProtokoll.Scsync.TransferStatus

/-!
# The sending node

The client never asks for blocks. It allocates chunk ids for each of its blocks
once, answers requests from this table and sends the chunks that a status names.
-/

namespace DasProtokoll.Scsync

open DasProtokoll

def Complete (db : BlockDb) : Prop := ∀ id b, db.lookup id = some b → ∃ f, b = .Full f

/-- What is true of the client between two steps. `c` is what it knows of the server. -/
structure Sender (server : SocketAddr) (db : BlockDb) (h : Handler) (c : Client) : Prop where
  blockdb : h.blockdb = db
  known : h.clients.lookup server = some c
  only : ∀ addr, addr ≠ server → h.clients.lookup addr = none
  pending : c.pendingBlockRequests = ∅
  tokens : h.statusTokens = []
  serving : Serving db c.transferOut
  once : c.transferOut.transfers.Pairwise fun a b => a.2.2 ≠ b.2.2

/-- A response tells the transfer of a block. -/
structure IsResponse (db : BlockDb) (transfers : List (Nat × Nat × BlockId))
    (res : BlockRequestResponse) : Prop where
  listed : (res.startId.toNat, res.endId.toNat, res.blockid) ∈ transfers
  length : ∃ f, db.lookup res.blockid = some (.Full f) ∧ res.len.toNat = f.data.length

/-- What the client sends. -/
inductive FromSender (root : BlockRef) (db : BlockDb) (transfers : List (Nat × Nat × BlockId)) :
    Msg → Prop
  | rootUpdate {update : RootUpdate} (h : update.toBlockref = root) :
    FromSender root db transfers (.RootUpdate update)
  | blockRequestResponse {res : BlockRequestResponse} (h : IsResponse db transfers res) :
    FromSender root db transfers (.BlockRequestResponse res)
  | transferPayload {payload : TransferPayload} (h : IsPayload db transfers payload) :
    FromSender root db transfers (.TransferPayload payload)

/-- What the server sends. -/
inductive FromReceiver (root : BlockRef) : Msg → Prop
  | rootUpdateResponse {res : RootUpdateResponse} (h : res.toBlockid = root.blockid) :
    FromReceiver root (.RootUpdateResponse res)
  | blockRequest {req : BlockRequest} : FromReceiver root (.BlockRequest req)
  | transferStatus {status : TransferStatus} : FromReceiver root (.TransferStatus status)

variable {root : BlockRef} {db : BlockDb} {server : SocketAddr} {h h' : Handler} {c : Client}
  {sent : Sent}

/-! ## The table of transfers -/

theorem IsResponse.mono {transfers transfers' : List (Nat × Nat × BlockId)} {res : BlockRequestResponse}
    (h : IsResponse db transfers res) (hsub : transfers ⊆ transfers') : IsResponse db transfers' res :=
  ⟨hsub h.listed, h.length⟩

theorem IsPayload.mono {transfers transfers' : List (Nat × Nat × BlockId)} {payload : TransferPayload}
    (h : IsPayload db transfers payload) (hsub : transfers ⊆ transfers') :
    IsPayload db transfers' payload := by
  obtain ⟨t, ht, f, hf, hlo, hhi, hdata⟩ := h
  exact ⟨t, hsub ht, f, hf, hlo, hhi, hdata⟩

theorem FromSender.mono {transfers transfers' : List (Nat × Nat × BlockId)} {msg : Msg}
    (h : FromSender root db transfers msg) (hsub : transfers ⊆ transfers') :
    FromSender root db transfers' msg := by
  cases h with
  | rootUpdate h => exact .rootUpdate h
  | blockRequestResponse h => exact .blockRequestResponse (h.mono hsub)
  | transferPayload h => exact .transferPayload (h.mono hsub)

theorem Serving.lt_u64 {out : TransferOut} (hs : Serving db out) {t : Nat × Nat × BlockId}
    (ht : t ∈ out.transfers) : t.1 ≤ t.2.1 ∧ t.2.1 < u64Size := by
  obtain ⟨f, -, hlen⟩ := hs.blocks t ht
  have := hs.below t ht
  have := hs.bounded
  omega

theorem Serving.allocate {out out' : TransferOut} (hs : Serving db out)
    (honce : out.transfers.Pairwise fun a b => a.2.2 ≠ b.2.2) (hdb : Complete db) {blockid : BlockId}
    {t : Nat × Nat × BlockId} (ha : Handler.allocate out db blockid = .ok (t, out')) :
    Serving db out' ∧ (out'.transfers.Pairwise fun a b => a.2.2 ≠ b.2.2) ∧ t ∈ out'.transfers ∧
      t.2.2 = blockid ∧ out.transfers ⊆ out'.transfers := by
  obtain ⟨ht, rfl, rfl⟩ | ⟨block, hblock, hnew, hlt, rfl, rfl⟩ := Handler.allocate_ok ha
  · exact ⟨hs, honce, ht, rfl, List.Subset.refl _⟩
  · obtain ⟨f, rfl⟩ := hdb _ _ hblock
    refine ⟨⟨?_, ?_, ?_, hlt⟩, ?_, by simp, rfl, List.subset_append_left _ _⟩
    · rw [List.pairwise_append]
      refine ⟨hs.ordered, List.pairwise_singleton _ _, fun a ha b hb => ?_⟩
      rw [List.mem_singleton.mp hb]
      exact hs.below a ha
    · intro t ht
      rcases List.mem_append.mp ht with ht | ht
      · exact (hs.below t ht).trans (Nat.le_add_right _ _)
      · rw [List.mem_singleton.mp ht]
    · intro t ht
      rcases List.mem_append.mp ht with ht | ht
      · exact hs.blocks t ht
      · rw [List.mem_singleton.mp ht]
        exact ⟨f, hblock, rfl⟩
    · rw [List.pairwise_append]
      refine ⟨honce, List.pairwise_singleton _ _, fun a ha b hb => ?_⟩
      rw [List.mem_singleton.mp hb]
      exact hnew a ha

/-! ## Steps of the client -/

theorem Sender.setOut (hs : Sender server db h c) {out : TransferOut} (hout : Serving db out)
    (honce : out.transfers.Pairwise fun a b => a.2.2 ≠ b.2.2) (loops : List (SocketAddr × Nat)) :
    Sender server db { h.setClient server { c with transferOut := out } with transferLoops := loops }
      { c with transferOut := out } where
  blockdb := hs.blockdb
  known := Handler.setClient_lookup
  only addr hne := (Handler.setClient_lookup_ne hne).trans (hs.only addr hne)
  pending := hs.pending
  tokens := hs.tokens
  serving := hout
  once := honce

theorem Sender.blockRequest (hs : Sender server db h c) (hdb : Complete db) {req : BlockRequest}
    (hr : h.blockRequest server req = .ok (h', sent)) :
    ∃ c', Sender server db h' c' ∧ c.transferOut.transfers ⊆ c'.transferOut.transfers ∧
      ∀ m ∈ sent, FromSender root db c'.transferOut.transfers m.1 := by
  obtain ⟨c₀, t, out, block, hc, halloc, hblock, rfl, rfl⟩ := Handler.blockRequest_ok hr
  rw [hs.known, Option.some.injEq] at hc
  subst hc
  rw [hs.blockdb] at halloc hblock
  obtain ⟨hserving, honce, ht, hid, hsub⟩ := hs.serving.allocate hs.once hdb halloc
  refine ⟨_, hs.setOut hserving honce h.transferLoops, hsub, ?_⟩
  intro m hm
  rw [List.mem_singleton.mp hm]
  obtain ⟨f, hf, hlen⟩ := hserving.blocks t ht
  have h64 := hserving.lt_u64 ht
  rw [hid, hblock, Option.some.injEq] at hf
  subst hf
  refine .blockRequestResponse
    ⟨?_, f, hblock, toNat_ofNat (show f.data.length < u64Size by omega)⟩
  rw [toNat_ofNat (by omega), toNat_ofNat h64.2, ← hid]
  exact ht

theorem Sender.transferStatus (hs : Sender server db h c) {now : Nat} {status : TransferStatus}
    (ht : h.transferStatus now server status = .ok h') :
    ∃ c', Sender server db h' c' ∧ c.transferOut.transfers ⊆ c'.transferOut.transfers := by
  obtain ⟨c₀, hc, rfl⟩ := Handler.transferStatus_ok ht
  rw [hs.known, Option.some.injEq] at hc
  subst hc
  have hserving : Serving db { c.transferOut with
      cursor := status.missingRanges.head?.map fun x => x.1
      todo := status.missingRanges } :=
    ⟨hs.serving.ordered, hs.serving.below, hs.serving.blocks, hs.serving.bounded⟩
  exact ⟨_, hs.setOut hserving hs.once _, List.Subset.refl _⟩

theorem Sender.transferLoop (hs : Sender server db h c) {now i : Nat}
    (hl : h.transferLoop now i = .ok (h', sent)) :
    ∃ c', Sender server db h' c' ∧ c.transferOut.transfers ⊆ c'.transferOut.transfers ∧
      ∀ m ∈ sent, FromSender root db c'.transferOut.transfers m.1 := by
  obtain ⟨addr, wake, -, -, ⟨payload, h₁, hnext, rfl, rfl⟩ | ⟨-, rfl, rfl⟩⟩ := Handler.transferLoop_ok hl
  · obtain ⟨c₀, hc, ⟨-, hnone, -⟩ | ⟨cursor, t, f, -, ht, hlo, hhi, hf, hpayload, rfl⟩⟩ :=
      Handler.nextPayload_ok hnext
    · cases hnone
    · have haddr : addr = server := by
        by_contra hne
        rw [hs.only addr hne] at hc
        cases hc
      subst haddr
      rw [hs.known, Option.some.injEq] at hc
      subst hc
      rw [hs.blockdb] at hf
      obtain rfl := Option.some.inj hpayload
      have hserving : Serving db { c.transferOut with
          cursor := Ranges.firstFrom c.transferOut.todo (cursor + 1) } :=
        ⟨hs.serving.ordered, hs.serving.below, hs.serving.blocks, hs.serving.bounded⟩
      refine ⟨_, hs.setOut hserving hs.once _, List.Subset.refl _, ?_⟩
      intro m hm
      rw [List.mem_singleton.mp hm]
      exact .transferPayload ⟨t, ht, f, hf, hlo, hhi, rfl⟩
  · refine ⟨c, ⟨hs.blockdb, hs.known, hs.only, hs.pending, hs.tokens, hs.serving, hs.once⟩,
      List.Subset.refl _, by simp⟩

section Act

variable [Serde] [Sealing]

theorem Sender.act (hs : Sender server db h c) (hdb : Complete db) {inbox : List Bytes} {e : Event}
    (hroot : db.root = root)
    (hinbox : ∀ d ∈ inbox, ∀ msg, MyCodec.decode d = .ok (some msg) → FromReceiver root msg)
    (hact : h.act server inbox e = .ok (h', sent)) :
    ∃ c', Sender server db h' c' ∧ c.transferOut.transfers ⊆ c'.transferOut.transfers ∧
      ∀ m ∈ sent, FromSender root db c'.transferOut.transfers m.1 := by
  have hsame : ∃ c', Sender server db h c' ∧ c.transferOut.transfers ⊆ c'.transferOut.transfers ∧
      ∀ m ∈ ([] : Sent), FromSender root db c'.transferOut.transfers m.1 :=
    ⟨c, hs, List.Subset.refl _, by simp⟩
  obtain ⟨rfl, rfl⟩ | ⟨i, d, msg, -, hd, hmsg, hr⟩ | ⟨addr, hl⟩ | ⟨i, hl⟩ | ⟨addr, blockid, hr⟩ :=
    Handler.act_cases hact
  · exact hsame
  · rw [Handler.receive_known hs.known] at hr
    cases hinbox d (List.mem_of_getElem? hd) msg hmsg with
    | @rootUpdateResponse res hres =>
      have hneeds : h.needsUpdate res = false := by
        simp [Handler.needsUpdate, hs.blockdb, hroot, hres]
      simp only [hneeds, Bool.not_false, if_true, Result.ok.injEq, Prod.mk.injEq] at hr
      obtain ⟨rfl, rfl⟩ := hr
      exact hsame
    | blockRequest => exact hs.blockRequest hdb hr
    | transferStatus =>
      simp only [Result.bind_eq_ok, Result.pure_def, Result.ok.injEq, Prod.mk.injEq] at hr
      obtain ⟨h₁, ht, rfl, rfl⟩ := hr
      obtain ⟨c', hs', hsub⟩ := hs.transferStatus ht
      exact ⟨c', hs', hsub, by simp⟩
  · simp [Handler.statusLoop, hs.tokens, Result.assert_of_not] at hl
  · exact hs.transferLoop hl
  · obtain ⟨-, -, c₀, hc, hmem⟩ := Handler.requestRetry_ok hr
    by_cases haddr : addr = server
    · subst haddr
      rw [hs.known, Option.some.injEq] at hc
      subst hc
      simp [hs.pending] at hmem
    · rw [hs.only addr haddr] at hc
      cases hc

end Act

end DasProtokoll.Scsync
