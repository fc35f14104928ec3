import DasProtokoll.Scsync.MissingRanges
import DasProtokoll.Scsync.Serde

/-!
# From a status to the payloads

A sender that gets a status sweeps over its ranges, one chunk after the other,
and cuts the data of each chunk from the block that the chunk id was allocated
for.
-/

namespace DasProtokoll.Scsync

open DasProtokoll

/-- What a sender keeps true of the transfers that it allocates. -/
structure Serving (db : BlockDb) (out : TransferOut) : Prop where
  ordered : out.transfers.Pairwise fun a b => a.2.1 ≤ b.1
  below : ∀ t ∈ out.transfers, t.2.1 ≤ out.transferCursor
  blocks : ∀ t ∈ out.transfers, ∃ f, db.lookup t.2.2 = some (.Full f) ∧ t.2.1 = t.1 + f.data.length
  bounded : out.transferCursor < u64Size

/-- The payload of a chunk id: its part of the block, cut off at the end of the block. -/
def IsPayload (db : BlockDb) (transfers : List (Nat × Nat × BlockId)) (payload : TransferPayload) :
    Prop :=
  ∃ t ∈ transfers, ∃ f, db.lookup t.2.2 = some (.Full f) ∧
    t.1 ≤ payload.chunkid ∧ payload.chunkid < t.2.1 ∧
    payload.data = slice f.data ((payload.chunkid - t.1) * chunkSize) chunkSize

theorem find_ordered {l : List (Nat × Nat × BlockId)} (h : l.Pairwise fun a b => a.2.1 ≤ b.1)
    {t : Nat × Nat × BlockId} (ht : t ∈ l) {c : Nat} (hlo : t.1 ≤ c) (hhi : c < t.2.1) :
    l.find? (fun t => t.1 ≤ c ∧ c < t.2.1) = some t := by
  induction l with
  | nil => simp at ht
  | cons a l ih =>
    obtain ⟨ha, hl⟩ := List.pairwise_cons.mp h
    rcases List.mem_cons.mp ht with rfl | ht
    · rw [List.find?_cons_of_pos (by simp [hlo, hhi])]
    · have := ha t ht
      rw [List.find?_cons_of_neg (by simp; omega), ih hl ht]

/-- What is left to send. -/
def left (todo : Ranges) : Option Nat → List Nat
  | none => []
  | some c => (Ranges.members todo).filter (c ≤ ·)

theorem left_firstFrom {todo : Ranges} (h : Ranges.Ascending todo) (c : Nat) :
    left todo (Ranges.firstFrom todo c) = (Ranges.members todo).filter (c ≤ ·) := by
  cases hi : Ranges.firstFrom todo c with
  | none => exact (Ranges.filter_of_none hi).symm
  | some i =>
    obtain ⟨hmem, -, -⟩ := h.firstFrom_least hi
    rw [left, h.filter_of_some hi,
      Ranges.filter_eq_cons h.members_sorted hmem le_rfl fun _ _ hj => hj]

theorem left_head {todo : Ranges} (h : Ranges.Ascending todo) :
    left todo (todo.head?.map fun x => x.1) = Ranges.members todo := by
  cases todo with
  | nil => rfl
  | cons r rs =>
    simp only [List.head?_cons, Option.map_some, left, List.filter_eq_self, decide_eq_true_eq]
    intro i hi
    obtain ⟨s, hs, hlo, -⟩ := Ranges.mem_members.mp hi
    rcases List.mem_cons.mp hs with rfl | hs
    · exact hlo
    · have := (List.pairwise_cons.mp h.ordered).1 s hs
      have := h.nonempty r (by simp)
      omega

namespace Handler

/-- Runs the transfer loop until it stops, with no message in between. -/
def runTransferLoop : Nat → Nat → Handler → Result (Sent × Handler)
  | 0, _, _ => .diverge
  | fuel + 1, now, h =>
    if h.transferLoops = [] then return ([], h)
    else do
      let (h, sent) ← h.transferLoop now 0
      let (rest, h) ← runTransferLoop fuel (now + h.packetDelay) h
      return (sent ++ rest, h)

theorem runTransferLoop_idle {h : Handler} (fuel now : Nat) (hloops : h.transferLoops = []) :
    runTransferLoop (fuel + 1) now h = .ok ([], h) := by
  rw [runTransferLoop, if_pos hloops]
  rfl

theorem nextPayload_none {h : Handler} {addr : SocketAddr} {client : Client}
    (hclient : h.clients.lookup addr = some client) (hcursor : client.transferOut.cursor = none) :
    h.nextPayload addr = .ok (none, h) := by
  simp [nextPayload, Handler.client, hclient, hcursor]

theorem nextPayload_some {h : Handler} {addr : SocketAddr} {client : Client} {c : Nat}
    (hclient : h.clients.lookup addr = some client) (hcursor : client.transferOut.cursor = some c)
    (hs : Serving h.blockdb client.transferOut) {t : Nat × Nat × BlockId}
    (ht : t ∈ client.transferOut.transfers) (hlo : t.1 ≤ c) (hhi : c < t.2.1)
    (h64 : (c - t.1) * chunkSize < u64Size) :
    ∃ payload, payload.chunkid = c ∧ IsPayload h.blockdb client.transferOut.transfers payload ∧
      h.nextPayload addr = .ok (some payload, h.setClient addr { client with
        transferOut := { client.transferOut with
          cursor := Ranges.firstFrom client.transferOut.todo (c + 1) } }) := by
  obtain ⟨f, hf, -⟩ := hs.blocks t ht
  refine ⟨{ chunkid := c, data := slice f.data ((c - t.1) * chunkSize) chunkSize }, rfl,
    ⟨t, ht, f, hf, hlo, hhi, rfl⟩, ?_⟩
  have hfull : h.blockdb.getFull t.2.2 = .ok f := by
    simp [BlockDb.getFull, BlockDb.get, hf, Block.full]
  simp only [nextPayload, Handler.client, hclient, hcursor, Result.unwrap_some, Result.bind_ok,
    find_ordered hs.ordered ht hlo hhi, hfull, Result.assert_of h64, Result.pure_def, slice]

theorem runTransferLoop_eq {addr : SocketAddr} {todo : Ranges} (hasc : Ranges.Ascending todo)
    {fuel now : Nat} {h : Handler} {client : Client} (hclient : h.clients.lookup addr = some client)
    (htodo : client.transferOut.todo = todo) (hs : Serving h.blockdb client.transferOut)
    (hserved : ∀ c ∈ Ranges.members todo, ∃ t ∈ client.transferOut.transfers,
      t.1 ≤ c ∧ c < t.2.1 ∧ (c - t.1) * chunkSize < u64Size)
    (hcursor : ∀ c, client.transferOut.cursor = some c → c ∈ Ranges.members todo)
    (hloop : h.transferLoops = [(addr, now)])
    (hfuel : (left todo client.transferOut.cursor).length + 2 ≤ fuel) :
    ∃ (payloads : List TransferPayload) (h' : Handler), runTransferLoop fuel now h =
        .ok (payloads.map fun p => (.TransferPayload p, addr), h') ∧ h'.transferLoops = [] ∧
      payloads.map (fun p => p.chunkid) = left todo client.transferOut.cursor ∧
      ∀ p ∈ payloads, IsPayload h.blockdb client.transferOut.transfers p := by
  induction fuel generalizing now h client with
  | zero => omega
  | succ fuel ih =>
    cases hc : client.transferOut.cursor with
    | none =>
      obtain ⟨fuel, rfl⟩ := Nat.exists_eq_succ_of_ne_zero (by omega : fuel ≠ 0)
      refine ⟨[], { h with transferLoops := [] }, ?_, rfl, rfl, by simp⟩
      simp [runTransferLoop, transferLoop, hloop, Result.assert_of, nextPayload_none hclient hc]
    | some c =>
      have hmem := hcursor c hc
      obtain ⟨t, ht, hlo, hhi, h64⟩ := hserved c hmem
      obtain ⟨payload, rfl, hpayload, hnext⟩ := nextPayload_some hclient hc hs ht hlo hhi h64
      have hleft : left todo (some payload.chunkid) = payload.chunkid ::
          left todo (Ranges.firstFrom todo (payload.chunkid + 1)) := by
        rw [left_firstFrom hasc, left]
        exact Ranges.filter_eq_cons hasc.members_sorted hmem le_rfl fun _ _ hj => hj
      rw [hc, hleft, List.length_cons] at hfuel
      obtain ⟨payloads, h', hrun, hstop, hids, hdata⟩ := @ih (now + h.packetDelay)
        { h.setClient addr { client with
          transferOut := { client.transferOut with
            cursor := Ranges.firstFrom client.transferOut.todo (payload.chunkid + 1) } } with
          transferLoops := [(addr, now + h.packetDelay)] } _
        (AList.lookup_insert _) htodo ⟨hs.ordered, hs.below, hs.blocks, hs.bounded⟩ hserved
        (fun i hi => (hasc.firstFrom_least (htodo ▸ hi)).1) rfl (by simp only [htodo]; omega)
      refine ⟨payload :: payloads, h', ?_, hstop, ?_, ?_⟩
      · simp only [runTransferLoop, hloop, transferLoop]
        simp only [reduceCtorEq, if_false, List.getElem?_cons_zero, Result.unwrap_some,
          Result.bind_ok, Result.assert_of le_rfl, hnext, Result.pure_def]
        simp only [setClient, hloop, List.set_cons_zero] at hrun ⊢
        rw [hrun, Result.bind_ok]
        rfl
      · rw [List.map_cons, hids, htodo, hleft]
      · intro p hp
        rcases List.mem_cons.mp hp with rfl | hp
        · exact hpayload
        · exact hdata p hp

theorem statusLoop_eq {h : Handler} {addr : SocketAddr} {client : Client} {ranges : Ranges}
    (hclient : h.clients.lookup addr = some client) (htoken : addr ∈ h.statusTokens)
    (hranges : missingRanges h.blockdb client.transferIn.transfers = .ok ranges) :
    h.statusLoop addr = .ok ({ h with statusTokens := h.statusTokens.erase addr },
      [(.TransferStatus { missingRanges := ranges }, addr)]) := by
  simp [statusLoop, outstanding, hclient, Result.assert_of htoken, hranges]

/-- The whole sweep after a status with ascending ranges of allocated chunks. -/
theorem sweep {h : Handler} {addr : SocketAddr} {client : Client}
    (hclient : h.clients.lookup addr = some client) (hs : Serving h.blockdb client.transferOut)
    (hidle : client.transferOut.cursor = none) (hloops : h.transferLoops = []) {todo : Ranges}
    (hasc : Ranges.Ascending todo)
    (hserved : ∀ c ∈ Ranges.members todo, ∃ t ∈ client.transferOut.transfers,
      t.1 ≤ c ∧ c < t.2.1 ∧ (c - t.1) * chunkSize < u64Size) (now : Nat) :
    ∃ h', h.transferStatus now addr { missingRanges := todo } = .ok h' ∧
      ∃ fuel₀, ∀ fuel ≥ fuel₀, ∃ (payloads : List TransferPayload) (h'' : Handler),
        runTransferLoop fuel now h' =
          .ok (payloads.map fun p => (.TransferPayload p, addr), h'') ∧ h''.transferLoops = [] ∧
        payloads.map (fun p => p.chunkid) = Ranges.members todo ∧
        ∀ p ∈ payloads, IsPayload h.blockdb client.transferOut.transfers p := by
  refine ⟨_, transferStatus_eq hclient now _, ?_⟩
  by_cases hnil : todo = []
  · subst hnil
    refine ⟨1, fun fuel hfuel => ?_⟩
    obtain ⟨fuel, rfl⟩ := Nat.exists_eq_succ_of_ne_zero (by omega : fuel ≠ 0)
    refine ⟨[], _, runTransferLoop_idle fuel now ?_, ?_, rfl, by simp⟩ <;> simp [hloops]
  · refine ⟨(Ranges.members todo).length + 2, fun fuel hfuel => ?_⟩
    have hcursor : ∀ c, (todo.head?.map fun x => x.1) = some c → c ∈ Ranges.members todo := by
      intro c hc
      cases todo with
      | nil => exact absurd rfl hnil
      | cons r rs =>
        obtain rfl := Option.some.inj hc
        exact Ranges.mem_members.mpr ⟨r, by simp, le_rfl, hasc.nonempty r (by simp)⟩
    have hrun := @runTransferLoop_eq addr todo hasc fuel now
      { h.setClient addr { client with
        transferOut := { client.transferOut with
          cursor := todo.head?.map fun x => x.1
          todo } } with
        transferLoops :=
          if client.transferOut.cursor = none ∧ todo ≠ [] then h.transferLoops ++ [(addr, now)]
          else h.transferLoops } _
      (AList.lookup_insert _) rfl ⟨hs.ordered, hs.below, hs.blocks, hs.bounded⟩ hserved hcursor
      (by simp [hidle, hnil, hloops]) (by rw [left_head hasc]; exact hfuel)
    simp only [left_head hasc] at hrun
    exact hrun

end Handler

theorem served_of_missing {db : BlockDb} {transfers : List Transfer}
    (hr : Receiving db transfers) {sdb : BlockDb} {out : TransferOut} (hs : Serving sdb out)
    (halloc : ∀ t ∈ transfers, (t.start, t.stop, t.blockid) ∈ out.transfers) {c : Nat}
    (hc : c ∈ missingIds db transfers) :
    ∃ t ∈ out.transfers, t.1 ≤ c ∧ c < t.2.1 ∧ (c - t.1) * chunkSize < u64Size := by
  obtain ⟨t, ht, i, hi, rfl⟩ := mem_missingIds.mp hc
  obtain ⟨p, hp⟩ := hr.blocks t ht
  have hchunk : i < numChunks p.data.length := by
    have := (List.getElem?_eq_some_iff.mp hi).1
    simpa [availableOf, hp.lookup, hp.chunks] using this
  have hle := numChunks_le p.data.length
  have hlt := chunk_start_lt hchunk
  have hstop := hp.stop
  have hbound := (hs.below _ (halloc t ht)).trans_lt hs.bounded
  simp only at hbound
  refine ⟨_, halloc t ht, by simp, by simp only; omega, ?_⟩
  simp only [Nat.add_sub_cancel_left]
  omega

/-- A status that the receiver computes makes an idle sender send just the chunks that it names: all
missing ones in order, or the first of them when the status was cut. -/
theorem status_drives_transfer [Serde] {receiver : Handler} {peer : SocketAddr} {rc : Client}
    (hpeer : receiver.clients.lookup peer = some rc) (htoken : peer ∈ receiver.statusTokens)
    (hr : Receiving receiver.blockdb rc.transferIn.transfers) {sender : Handler} {addr : SocketAddr}
    {sc : Client} (haddr : sender.clients.lookup addr = some sc)
    (hs : Serving sender.blockdb sc.transferOut)
    (halloc : ∀ t ∈ rc.transferIn.transfers, (t.start, t.stop, t.blockid) ∈ sc.transferOut.transfers)
    (hidle : sc.transferOut.cursor = none) (hloops : sender.transferLoops = []) :
    ∃ ids : List Nat, ids.Pairwise (· < ·) ∧
      (∀ c, c ∈ ids ↔ ∃ t ∈ rc.transferIn.transfers, ∃ i,
        (availableOf receiver.blockdb t)[i]? = some false ∧ c = t.start + i) ∧
      ∃ receiver' status, receiver.statusLoop peer =
          .ok (receiver', [(.TransferStatus status, peer)]) ∧
        ∀ capacity d, MyCodec.encode capacity (.TransferStatus status) = .ok d →
          ∃ arrived, MyCodec.decode d = .ok (some (.TransferStatus arrived)) ∧
            ∀ now, ∃ h', sender.transferStatus now addr arrived = .ok h' ∧
              ∃ fuel₀, ∀ fuel ≥ fuel₀, ∃ (payloads : List TransferPayload) (h'' : Handler),
                Handler.runTransferLoop fuel now h' =
                  .ok (payloads.map fun p => (.TransferPayload p, addr), h'') ∧
                h''.transferLoops = [] ∧
                payloads.map (fun p => p.chunkid) <+: ids ∧
                (∀ values, MyCodec.differences 0 (MyCodec.bounds status.missingRanges) = .ok values →
                  (1 :: Varint.writeAll values).length ≤ mtu →
                  payloads.map (fun p => p.chunkid) = ids) ∧
                ∀ p ∈ payloads, IsPayload sender.blockdb sc.transferOut.transfers p := by
  obtain ⟨ranges, hranges, hasc, hids, hin⟩ := Handler.missingRanges_spec hr
  have hbound : ∀ t ∈ rc.transferIn.transfers, t.stop < u64Size := fun t ht =>
    (hs.below _ (halloc t ht)).trans_lt hs.bounded
  refine ⟨missingIds receiver.blockdb rc.transferIn.transfers, hids ▸ hasc.members_sorted,
    fun c => mem_missingIds, _, _, Handler.statusLoop_eq hpeer htoken hranges, ?_⟩
  intro capacity d hd
  have h64 : ∀ r ∈ ranges, r.1 < u64Size ∧ r.2 < u64Size := by
    intro r hrange
    obtain ⟨t, ht, -, hhi⟩ := hin r hrange
    have := hbound t ht
    have := hasc.nonempty r hrange
    omega
  obtain ⟨values, k, hvalues, hdecode, hfits⟩ := MyCodec.decode_status h64 hd
  refine ⟨_, hdecode, fun now => ?_⟩
  have hserved : ∀ c ∈ Ranges.members (ranges.take k), ∃ t ∈ sc.transferOut.transfers,
      t.1 ≤ c ∧ c < t.2.1 ∧ (c - t.1) * chunkSize < u64Size := by
    intro c hc
    apply served_of_missing hr hs halloc
    obtain ⟨r, hrange, hlo, hhi⟩ := Ranges.mem_members.mp hc
    rw [← hids]
    exact Ranges.mem_members.mpr ⟨r, List.mem_of_mem_take hrange, hlo, hhi⟩
  obtain ⟨h', hstatus, fuel₀, hrun⟩ :=
    Handler.sweep haddr hs hidle hloops (hasc.sublist (List.take_sublist k ranges)) hserved now
  refine ⟨h', hstatus, fuel₀, fun fuel hfuel => ?_⟩
  obtain ⟨payloads, h'', hloop, hstop, hsent, hdata⟩ := hrun fuel hfuel
  refine ⟨payloads, h'', hloop, hstop, ?_, ?_, hdata⟩
  · rw [hsent, ← hids]
    refine ⟨Ranges.members (ranges.drop k), ?_⟩
    rw [← Ranges.members_append, List.take_append_drop]
  · intro values' hvalues' hshort
    rw [hvalues, Result.ok.injEq] at hvalues'
    subst hvalues'
    have hbounded := MyCodec.bounds_lt h64
    rw [List.length_cons, Varint.length_writeAll _ (MyCodec.mem_differences hvalues hbounded)] at hshort
    rw [hsent, hfits (by omega), hids]

/-! ## A block of two chunks -/

def twoChunks : BlockId := Vector.replicate 32 2

def peerAddr : SocketAddr := { ip := .V4 (Vector.replicate 4 127), port := 21088 }

/-- A node with one block and one client. -/
def nodeWith (block : Block) (client : Client) : Handler where
  folder := { absolute := true, components := [] }
  fs := { cwd := [], node := fun _ => none }
  blockdb := {
    root := { blockid := twoChunks, key := Vector.replicate 16 0, hints := [] }
    pendingRoot := none
    blocks := Finmap.singleton twoChunks block }
  clients := AList.singleton peerAddr client
  packetDelay := 1
  statusTokens := [peerAddr]
  transferLoops := []

theorem nodeWith_lookup (block : Block) (client : Client) :
    (nodeWith block client).blockdb.lookup twoChunks = some block := Finmap.lookup_singleton_eq

def receivingClient : Client :=
  { Client.default 0 with
    transferIn := {
      transfers := [{ blockid := twoChunks, start := 5, stop := 1456 }]
      statusTx := true } }

/-- The first chunk has arrived. -/
def receivingNode : Handler :=
  nodeWith (.Partial { id := twoChunks, data := List.replicate 1451 0, available := [true, false] })
    receivingClient

def sendingClient : Client :=
  { Client.default 0 with
    transferOut := { TransferOut.default 5 with
      transfers := [(5, 1456, twoChunks)]
      transferCursor := 1456 } }

def sendingNode : Handler :=
  nodeWith (.Full { id := twoChunks, data := List.replicate 1451 7 }) sendingClient

theorem receivingNode_receiving :
    Receiving receivingNode.blockdb receivingClient.transferIn.transfers := by
  refine ⟨List.pairwise_singleton _ _, fun t ht => ?_⟩
  obtain rfl := List.mem_singleton.mp ht
  exact ⟨_, nodeWith_lookup _ _, by rw [List.length_replicate], by rw [List.length_replicate]; rfl⟩

theorem sendingNode_serving : Serving sendingNode.blockdb sendingClient.transferOut := by
  refine ⟨List.pairwise_singleton _ _, by decide, fun t ht => ?_, by decide⟩
  obtain rfl := List.mem_singleton.mp ht
  exact ⟨_, nodeWith_lookup _ _, by rw [List.length_replicate]⟩

/-- The second chunk is the only one that is sent. -/
theorem status_drives_transfer_second :
    letI := serde
    ∃ (arrived : TransferStatus) (h' : Handler) (fuel : Nat) (payloads : List TransferPayload)
      (h'' : Handler),
      MyCodec.decode [1, 6, 1] = .ok (some (.TransferStatus arrived)) ∧
      sendingNode.transferStatus 0 peerAddr arrived = .ok h' ∧
      Handler.runTransferLoop fuel 0 h' =
        .ok (payloads.map fun p => (.TransferPayload p, peerAddr), h'') ∧
      6 ∈ payloads.map (fun p => p.chunkid) ∧ 5 ∉ payloads.map (fun p => p.chunkid) := by
  let _ := serde
  obtain ⟨ids, -, hids, receiver', status, hstatus, hsend⟩ := @status_drives_transfer _
    receivingNode peerAddr receivingClient rfl (by decide) receivingNode_receiving
    sendingNode peerAddr sendingClient rfl sendingNode_serving (by decide) rfl rfl
  have hsent : (receivingNode.statusLoop peerAddr >>= fun r => .ok r.2) =
      .ok [(.TransferStatus { missingRanges := [(6, 7)] }, peerAddr)] := by decide +kernel
  rw [hstatus, Result.bind_ok, Result.ok.injEq] at hsent
  obtain rfl : status = { missingRanges := [(6, 7)] } := by simpa using hsent
  obtain ⟨arrived, harrived, hrun⟩ := hsend 8192 [1, 6, 1] (by decide +kernel)
  obtain ⟨h', hh', fuel, hrun⟩ := hrun 0
  obtain ⟨payloads, h'', hloop, -, -, hall, -⟩ := hrun fuel le_rfl
  have hpayloads := hall [6, 1] (by decide) (by decide +kernel)
  refine ⟨arrived, h', fuel, payloads, h'', harrived, hh', hloop, ?_, ?_⟩
  · rw [hpayloads, hids]
    exact ⟨_, List.mem_singleton_self _, 1, by decide +kernel, rfl⟩
  · rw [hpayloads, hids]
    rintro ⟨t, ht, i, hi, hc⟩
    rw [List.mem_singleton.mp ht] at hi hc
    obtain rfl : i = 0 := by simpa using hc.symm
    exact absurd hi (by decide +kernel)

end DasProtokoll.Scsync
