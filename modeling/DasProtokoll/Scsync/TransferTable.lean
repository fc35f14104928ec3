import DasProtokoll.Scsync.Effect
import DasProtokoll.Scsync.Sync

/-!
# The table of transfers of the receiver

A response puts an entry into the table, whether its block is new or not. As long
as all responses are for new blocks, each entry has a partial block of its own.
-/

namespace DasProtokoll.Scsync

open DasProtokoll

/-- Each entry has a partial block of its own, and no chunk id is in two entries. -/
structure TableOk (db : BlockDb) (l : List Transfer) : Prop where
  once : l.Pairwise fun a b => a.blockid ≠ b.blockid
  disjoint : l.Pairwise fun a b => a.stop ≤ b.start ∨ b.stop ≤ a.start
  present : ∀ t ∈ l, ∃ p, db.lookup t.blockid = some (.Partial p)

/-- The status loop, a chunk and the promotion after it find partial blocks. -/
def AccessesOk (h : Handler) (addr : SocketAddr) : Prop :=
  (∃ ranges, h.outstanding addr = .ok ranges) ∧
    ∀ c, h.clients.lookup addr = some c → ∀ (chunk : TransferPayload) t,
      c.transferIn.transfer chunk.chunkid = .ok t →
      (∃ block p, h.blockdb.get t.blockid = .ok block ∧ block.partialRef = .ok p) ∧
        ∀ h', h.storeChunk addr chunk = .ok (t, h') → ∃ r, h'.blockdb.tryPromote t.blockid = .ok r

/-- What is to be true of the table of a client, if it is known. -/
def TransfersOk (h : Handler) (addr : SocketAddr) : Prop :=
  (∀ l, h.table addr = some l → TableOk h.blockdb l) ∧ AccessesOk h addr

/-! ## What follows from the table -/

theorem tryPromote_stored {h h' : Handler} {addr : SocketAddr} {chunk : TransferPayload} {t : Transfer}
    (hs : h.storeChunk addr chunk = .ok (t, h')) : ∃ r, h'.blockdb.tryPromote t.blockid = .ok r := by
  obtain ⟨c, p, -, rfl⟩ := Handler.storeChunk_accepts.mp hs
  simp only [BlockDb.tryPromote, BlockDb.get, BlockDb.lookup_set_self, Result.unwrap_some,
    Result.bind_ok, Block.partialRef]
  split
  · exact ⟨_, rfl⟩
  · exact ⟨_, rfl⟩

theorem accessesOk {h : Handler} {addr : SocketAddr}
    (ht : ∀ l, h.table addr = some l → TableOk h.blockdb l) : AccessesOk h addr := by
  constructor
  · cases hlookup : h.clients.lookup addr with
    | none => exact ⟨[], by simp [Handler.outstanding, hlookup]⟩
    | some c =>
      have hranges := missingRanges_eq (ht _ (Handler.table_of_lookup hlookup)).present
      refine ⟨c.transferIn.transfers.flatMap (missing h.blockdb), ?_⟩
      simp [Handler.outstanding, hlookup, hranges]
  · intro c hc chunk t htransfer
    obtain ⟨hmem, -⟩ := Handler.transfer_ok htransfer
    obtain ⟨p, hp⟩ := (ht _ (Handler.table_of_lookup hc)).present t hmem
    exact ⟨⟨.Partial p, p, BlockDb.get_eq_ok.mpr hp, rfl⟩, fun h' => tryPromote_stored⟩

theorem transfersOk_iff {h : Handler} {addr : SocketAddr} :
    TransfersOk h addr ↔ ∀ l, h.table addr = some l → TableOk h.blockdb l :=
  ⟨fun h => h.1, fun h => ⟨h, accessesOk h⟩⟩

/-! ## Changes of the table -/

theorem lookup_announced {db : BlockDb} {id : BlockId} (hnone : db.lookup id = none) (len : Nat) :
    (db.add (.Partial (Handler.emptyBlock id len))).lookup id =
      some (.Partial (Handler.emptyBlock id len)) := by
  rw [BlockDb.add_of_none hnone]
  exact BlockDb.lookup_set_self

theorem Transfer.eq_of_listed {a b : Transfer}
    (h : (a.start, a.stop, a.blockid) = (b.start, b.stop, b.blockid)) : a = b := by
  cases a
  cases b
  simp_all

theorem Serving.disjoint {db : BlockDb} {out : TransferOut} (hs : Serving db out)
    {t t' : Nat × Nat × BlockId} (ht : t ∈ out.transfers) (ht' : t' ∈ out.transfers) (hne : t ≠ t') :
    t.2.1 ≤ t'.1 ∨ t'.2.1 ≤ t.1 := by
  have hsymm : Std.Symm fun a b : Nat × Nat × BlockId => a.2.1 ≤ b.1 ∨ b.2.1 ≤ a.1 :=
    ⟨fun _ _ h => h.symm⟩
  have hpairs : out.transfers.Pairwise fun a b => a.2.1 ≤ b.1 ∨ b.2.1 ≤ a.1 :=
    hs.ordered.imp fun h => Or.inl h
  exact hpairs.forall ht ht' hne

theorem TableOk.stored {db : BlockDb} {l : List Transfer} (ht : TableOk db l) {id : BlockId}
    (p : Partial) : TableOk (db.set id (.Partial p)) l := by
  refine ⟨ht.once, ht.disjoint, fun t htl => ?_⟩
  by_cases hid : t.blockid = id
  · exact ⟨p, by rw [hid, BlockDb.lookup_set_self]⟩
  · rw [BlockDb.lookup_set_ne hid]
    exact ht.present t htl

theorem TableOk.completed {db : BlockDb} {l : List Transfer} (ht : TableOk db l) {t : Transfer}
    (htl : t ∈ l) (f : Full) : TableOk (db.set t.blockid (.Full f)) (l.erase t) := by
  have hnodup : l.Nodup := ht.once.imp fun {a b} hne heq => hne (congrArg Transfer.blockid heq)
  refine ⟨ht.once.sublist List.erase_sublist, ht.disjoint.sublist List.erase_sublist, ?_⟩
  intro t' ht'
  obtain ⟨hne, hmem⟩ := hnodup.mem_erase_iff.mp ht'
  have hsymm : Std.Symm fun a b : Transfer => a.blockid ≠ b.blockid := ⟨fun _ _ h => h.symm⟩
  have hid := ht.once.forall hmem htl hne
  rw [BlockDb.lookup_set_ne hid]
  exact ht.present t' hmem

/-! ## Steps of the server -/

section Serde

variable [Serde] [Sealing] {addrs : Addresses} {s s' : System} {e : Event}

theorem System.server_effect (h : System.Step addrs s e s') :
    Handler.Quiet s.server s'.server ∨
      ∃ msg, s.Receives e msg ∧ Handler.Effect s.server addrs.client msg s'.server := by
  obtain ⟨-, _, _, _, -, -, rfl⟩ | ⟨hpeer, server, sent, _, hact, -, rfl⟩ := System.step_cases h
  · exact Or.inl (.refl _)
  · obtain ⟨rfl, -⟩ | ⟨i, d, msg, haction, hd, hmsg, hr⟩ | ⟨addr, hl⟩ | ⟨i, hl⟩ | ⟨addr, id, hr⟩ :=
      Handler.act_cases hact
    · exact Or.inl (.refl _)
    · exact Or.inr ⟨msg, ⟨hpeer, i, d, haction, hd, hmsg⟩, Handler.receive_effect hr⟩
    · exact Or.inl (Handler.statusLoop_quiet hl)
    · exact Or.inl (Handler.transferLoop_quiet hl)
    · exact Or.inl (Handler.requestRetry_quiet hr)

/-- What is true of a table without entries and is kept by the changes of the table is kept by each
step. -/
theorem System.table_step {P : BlockDb → List Transfer → Prop} (h : System.Step addrs s e s')
    (hok : ∀ l, s.server.table addrs.client = some l → P s.server.blockdb l) (hempty : ∀ db, P db [])
    (hannounced : ∀ res l, s.Receives e (.BlockRequestResponse res) →
      s.server.table addrs.client = some l → P s.server.blockdb l →
      P (s.server.blockdb.add (.Partial (Handler.emptyBlock res.blockid res.len.toNat)))
        (l ++ [Handler.announced res]))
    (hstored : ∀ l (t : Transfer) p p', s.server.blockdb.lookup t.blockid = some (.Partial p) →
      P s.server.blockdb l → P (s.server.blockdb.set t.blockid (.Partial p')) l)
    (hcompleted : ∀ l (t : Transfer) p f, t ∈ l →
      s.server.blockdb.lookup t.blockid = some (.Partial p) → P s.server.blockdb l →
      P (s.server.blockdb.set t.blockid (.Full f)) (l.erase t)) :
    ∀ l, s'.server.table addrs.client = some l → P s'.server.blockdb l := by
  intro l hl
  obtain hquiet | ⟨msg, hmsg, heffect⟩ := System.server_effect h
  · rw [hquiet.blockdb]
    exact hok l (hquiet.table _ ▸ hl)
  · cases heffect with
    | quiet hquiet =>
      rw [hquiet.blockdb]
      exact hok l (hquiet.table _ ▸ hl)
    | registered hnone hroot hpending hdb htable hothers =>
      rw [htable, Option.some.injEq] at hl
      subst hl
      exact hempty _
    | announced hknown hdb htable hothers =>
      rw [htable, Option.some.injEq] at hl
      subst hl
      rw [hdb]
      exact hannounced _ _ hmsg hknown (hok _ hknown)
    | stored haccepts hmissing hdb htable =>
      rw [hdb]
      exact hstored _ _ _ _ haccepts.block (hok l (htable _ ▸ hl))
    | completed haccepts hwhole hdb htable hothers hverify =>
      rw [htable, Option.some.injEq] at hl
      subst hl
      rw [hdb]
      exact hcompleted _ _ _ _ (Handler.transfer_ok haccepts.transfer).1 haccepts.block
        (hok _ (Handler.table_of_lookup haccepts.known))
    | applied haccepts hwhole hroot hverify hdb htable hothers =>
      rw [htable] at hl
      cases hl

theorem System.server_receive (h : System.Step addrs s e s') {msg : Msg} (hr : s.Receives e msg) :
    ∃ sent, s.server.receive e.fuel e.now e.rand addrs.client msg = .ok (s'.server, sent) := by
  obtain ⟨hserver, i, d, haction, hd, hmsg⟩ := hr
  obtain ⟨hpeer, -⟩ | ⟨-, server, sent, _, hact, -, rfl⟩ := System.step_cases h
  · rw [hserver] at hpeer
    cases hpeer
  · refine ⟨sent, ?_⟩
    simpa [Handler.act, haction, hd, hmsg] using hact

theorem System.announced (h : System.Step addrs s e s') {res : BlockRequestResponse}
    (hr : s.Receives e (.BlockRequestResponse res)) {l : List Transfer}
    (hl : s.server.table addrs.client = some l) :
    s'.server.table addrs.client = some (l ++ [Handler.announced res]) ∧
      s'.server.blockdb =
        s.server.blockdb.add (.Partial (Handler.emptyBlock res.blockid res.len.toNat)) := by
  obtain ⟨c, hc, rfl⟩ := Handler.table_eq_some.mp hl
  obtain ⟨sent, hrecv⟩ := System.server_receive h hr
  rw [Handler.receive_known hc] at hrecv
  simp only [Result.bind_eq_ok, Result.pure_def, Result.ok.injEq, Prod.mk.injEq] at hrecv
  obtain ⟨h₁, hres, hh, -⟩ := hrecv
  obtain ⟨c', tokens, hc', rfl⟩ := Handler.blockRequestResponse_ok hres
  rw [hc, Option.some.injEq] at hc'
  subst hc'
  rw [← hh]
  exact ⟨Handler.table_setClient, rfl⟩

/-- The response that is delivered, if any, is for a block that the server does not have. -/
def NewBlock (addrs : Addresses) (r : Transition System Event) : Prop :=
  ∀ res, r.source.Receives r.label (.BlockRequestResponse res) →
    r.source.server.table addrs.client ≠ none → r.source.server.blockdb.lookup res.blockid = none

variable {root : BlockRef} {db : BlockDb} {c : Client}

omit [Sealing] in
theorem SystemInv.listed (hinv : SystemInv addrs root db s c) {l : List Transfer}
    (hl : s.server.table addrs.client = some l) {t : Transfer} (ht : t ∈ l) :
    (t.start, t.stop, t.blockid) ∈ c.transferOut.transfers := by
  obtain ⟨c₁, hc₁, rfl⟩ := Handler.table_eq_some.mp hl
  exact (hinv.receiver.busy c₁ hc₁).listed t ht

omit [Sealing] in
theorem SystemInv.response (hinv : SystemInv addrs root db s c) {res : BlockRequestResponse}
    (hr : s.Receives e (.BlockRequestResponse res)) : IsResponse db c.transferOut.transfers res := by
  obtain ⟨-, i, d, -, hd, hmsg⟩ := hr
  cases hinv.toServer d (List.mem_of_getElem? hd) _ hmsg with
  | blockRequestResponse h => exact h

omit [Sealing] in
theorem TableOk.announced (hinv : SystemInv addrs root db s c) {res : BlockRequestResponse}
    (hres : IsResponse db c.transferOut.transfers res) {l : List Transfer}
    (hl : s.server.table addrs.client = some l) (ht : TableOk s.server.blockdb l)
    (hnew : s.server.blockdb.lookup res.blockid = none) :
    TableOk (s.server.blockdb.add (.Partial (Handler.emptyBlock res.blockid res.len.toNat)))
      (l ++ [Handler.announced res]) := by
  have hids : ∀ t ∈ l, t.blockid ≠ res.blockid := by
    intro t htl heq
    obtain ⟨p, hp⟩ := ht.present t htl
    rw [heq, hnew] at hp
    cases hp
  refine ⟨?_, ?_, ?_⟩
  · rw [List.pairwise_append]
    refine ⟨ht.once, List.pairwise_singleton _ _, fun a ha b hb => ?_⟩
    rw [List.mem_singleton.mp hb]
    exact hids a ha
  · rw [List.pairwise_append]
    refine ⟨ht.disjoint, List.pairwise_singleton _ _, fun a ha b hb => ?_⟩
    rw [List.mem_singleton.mp hb]
    refine hinv.sender.serving.disjoint (hinv.listed hl ha) hres.listed fun heq => hids a ha ?_
    exact congrArg (fun t => t.2.2) heq
  · intro t htl
    rcases List.mem_append.mp htl with htl | htl
    · obtain ⟨p, hp⟩ := ht.present t htl
      exact ⟨p, BlockDb.lookup_add_of_some hp⟩
    · rw [List.mem_singleton.mp htl]
      exact ⟨_, lookup_announced hnew _⟩

theorem transfersOk_step (hinv : SystemInv addrs root db s c)
    (hok : ∀ l, s.server.table addrs.client = some l → TableOk s.server.blockdb l)
    (h : System.Step addrs s e s') (hnew : NewBlock addrs ⟨s, e, s'⟩) :
    ∀ l, s'.server.table addrs.client = some l → TableOk s'.server.blockdb l := by
  refine System.table_step h hok ?_ ?_ ?_ ?_
  · intro db
    exact ⟨List.Pairwise.nil, List.Pairwise.nil, by simp⟩
  · intro res l hr hl ht
    exact ht.announced hinv (hinv.response hr) hl (hnew _ hr (by simp [hl]))
  · intro l t p p' _ ht
    exact ht.stored p'
  · intro l t p f htl _ ht
    exact ht.completed htl f

theorem not_transfersOk_of_known (hinv : SystemInv addrs root db s c) (h : System.Step addrs s e s')
    {res : BlockRequestResponse} (hr : s.Receives e (.BlockRequestResponse res)) {l : List Transfer}
    (hl : s.server.table addrs.client = some l) {b : Block}
    (hb : s.server.blockdb.lookup res.blockid = some b) :
    ¬ ∀ l, s'.server.table addrs.client = some l → TableOk s'.server.blockdb l := by
  intro hok
  obtain ⟨htable, hdb⟩ := System.announced h hr hl
  have ht := hok _ htable
  have hb' : s'.server.blockdb.lookup res.blockid = some b := by
    rw [hdb]
    exact BlockDb.lookup_add_of_some hb
  obtain ⟨p, hp⟩ := ht.present (Handler.announced res) (by simp)
  rw [Handler.announced_blockid, hb', Option.some.injEq] at hp
  subst hp
  obtain ⟨c₁, hc₁, rfl⟩ := Handler.table_eq_some.mp hl
  obtain ⟨t, htl, hid⟩ := (hinv.receiver.busy c₁ hc₁).tracked _ p hb
  exact (List.pairwise_append.mp ht.once).2.2 t htl _ (List.mem_singleton_self _) hid

variable {client server : Opt} {rand : UInt32} {nonce : Vector UInt8 12} {capacity : Nat} {s₀ : System}

/-- The table is in order in all states of a run exactly when each response that the server handles is
for a block that it does not have. -/
theorem transfers_ok_iff (hno : NoCollision (client.blocks ++ server.blocks))
    (hstart : System.start addrs client server rand nonce capacity = .ok s₀)
    {l : List (Transition System Event)} (hrun : Run (System.Step addrs) s₀ l s) :
    TransfersOk s₀.server addrs.client ∧
      ((∀ r ∈ l, TransfersOk r.target.server addrs.client) ↔ ∀ r ∈ l, NewBlock addrs r) := by
  obtain ⟨root, c, -, -, hinv⟩ := SystemInv.start hno hstart
  have hempty : ∀ l, s₀.server.table addrs.client = some l → TableOk s₀.server.blockdb l := by
    obtain ⟨_, _, _, -, -, rfl⟩ := start_ok hstart
    intro l hl
    cases hl
  refine ⟨transfersOk_iff.mpr hempty, ?_⟩
  refine hrun.guard_iff (I := fun s => (∃ c, SystemInv addrs root
      (BlockDb.new root (insertAll client.blocks)) s c) ∧
      ∀ l, s.server.table addrs.client = some l → TableOk s.server.blockdb l)
    ⟨⟨c, hinv⟩, hempty⟩ ?_ ?_
  · rintro t e u ⟨⟨c, hinv⟩, hok⟩ hstep
    rw [transfersOk_iff]
    refine ⟨fun hgood res hr hknown => ?_, transfersOk_step hinv hok hstep⟩
    by_contra hlookup
    obtain ⟨b, hb⟩ := Option.ne_none_iff_exists'.mp hlookup
    obtain ⟨l, hl⟩ := Option.ne_none_iff_exists'.mp hknown
    exact not_transfersOk_of_known hinv hstep hr hl hb hgood
  · rintro t e u ⟨⟨c, hinv⟩, hok⟩ hstep hnew
    obtain ⟨c', hinv', -⟩ := hinv.step rfl (insertAll_complete root client.blocks) hstep
    exact ⟨⟨c', hinv'⟩, transfersOk_step hinv hok hstep hnew⟩

end Serde

/-! ## A response that comes twice -/

section Replay

variable [Serde]

/-- The message that the server gets in a step. -/
def System.received (s : System) (e : Event) : Option Msg :=
  match e.peer, e.action with
  | .server, .deliver i =>
    match (s.toServer[i]?).map MyCodec.decode with
    | some (.ok msg) => msg
    | _ => none
  | _, _ => none

theorem System.receives_iff {s : System} {e : Event} {msg : Msg} :
    s.Receives e msg ↔ s.received e = some msg := by
  obtain ⟨peer, action, _, _, _, _⟩ := e
  cases peer with
  | client => simp [Receives, received]
  | server =>
    cases action with
    | deliver i =>
      cases hd : s.toServer[i]? with
      | none => simp [Receives, received, hd]
      | some d =>
        cases hdecode : MyCodec.decode d <;> simp [Receives, received, hd, hdecode]
    | statusLoop | transferLoop | requestRetry => simp [Receives, received]

def System.isNew (s : System) (e : Event) : Bool :=
  match s.received e with
  | some (.BlockRequestResponse res) =>
    (s.server.table ends.client).isNone || (s.server.blockdb.lookup res.blockid).isNone
  | _ => true

theorem System.newBlock_of_isNew {s s' : System} {e : Event} (h : s.isNew e = true) :
    NewBlock ends ⟨s, e, s'⟩ := by
  intro res hr hknown
  rw [receives_iff] at hr
  simp only [isNew, hr, Bool.or_eq_true, Option.isNone_iff_eq_none] at h
  exact h.resolve_left hknown

variable [Sealing]

def System.nextNew (s : System) (e : Event) : Result System := do
  Result.assert (s.isNew e = true)
  s.next ends e

theorem System.nextNew_ok {s s' : System} {e : Event} (h : s.nextNew e = .ok s') :
    System.Step ends s e s' ∧ NewBlock ends ⟨s, e, s'⟩ := by
  obtain ⟨_, hnew, h⟩ := Result.bind_eq_ok.mp h
  exact ⟨h, newBlock_of_isNew (Result.assert_eq_ok.mp hnew)⟩

def folderScript : List Event :=
  eventOf .server (.deliver 0) :: fetch 0 1 (blockOf plainName 1)

end Replay

/-- The first response makes the only entry. -/
theorem transfers_ok_iff_folder :
    letI := serde
    letI := sealing
    ∃ s₀ s l, startOf plainName = .ok s₀ ∧ Run (System.Step ends) s₀ l s ∧
      (∀ r ∈ l, TransfersOk r.target.server ends.client) ∧
      ((s.server.table ends.client).map List.length) = some 1 := by
  let _ := serde
  let _ := sealing
  have hrun : (do
      let s₀ ← startOf plainName
      let s ← replay System.nextNew s₀ folderScript
      return (s.server.table ends.client).map List.length) = .ok (some 1) := by decide +kernel
  simp only [Result.bind_eq_ok, Result.pure_def, Result.ok.injEq] at hrun
  obtain ⟨s₀, hstart, s, hreplay, htable⟩ := hrun
  obtain ⟨l, hl, hnew⟩ := replay_run (fun _ _ _ => System.nextNew_ok) hreplay
  exact ⟨s₀, s, l, hstart, hl, (transfers_ok_iff plainName_noCollision hstart hl).2.mpr hnew, htable⟩

/-- The response for the folder comes again when the folder is complete. Then the status loop panics. -/
theorem full_block_listed :
    letI := serde
    letI := sealing
    NoCollision ((clientOpt plainName).blocks ++ serverOpt.blocks) ∧
      ∃ s₀ s, startOf plainName = .ok s₀ ∧ Reachable (System.Step ends) s₀ s ∧
        (s.server.statusLoop ends.client >>= fun r => .ok r.2) = .panic ∧
        ¬ TransfersOk s.server ends.client := by
  let _ := serde
  let _ := sealing
  have hrun : (do
      let s₀ ← startOf plainName
      let s ← replay (System.next ends) s₀
        (folderScript ++ [eventOf .server (.deliver 2), eventOf .server (.deliver 1)])
      return (s.server.statusLoop ends.client >>= fun r => .ok r.2, s.server.outstanding ends.client)) =
      .ok (.panic, .panic) := by decide +kernel
  simp only [Result.bind_eq_ok, Result.pure_def, Result.ok.injEq, Prod.mk.injEq] at hrun
  obtain ⟨s₀, hstart, s, hreplay, hloop, houtstanding⟩ := hrun
  refine ⟨plainName_noCollision, s₀, s, hstart, replay_reachable (fun _ _ _ h => h) hreplay, hloop, ?_⟩
  rintro ⟨-, ⟨ranges, hranges⟩, -⟩
  rw [houtstanding] at hranges
  cases hranges

end DasProtokoll.Scsync
