import DasProtokoll.Scsync.TransferTable

/-!
# A payload that comes again

While its block is partial, a chunk that is there already changes nothing. After
the promotion nothing is left of its transfer, and the chunk has no place.
-/

namespace DasProtokoll.Scsync

open DasProtokoll

/-- What the blocks and the client of a node keep. -/
def Unchanged (h h' : Handler) (addr : SocketAddr) : Prop :=
  h'.blockdb = h.blockdb ∧ ∀ c, h.clients.lookup addr = some c →
    ∃ c', h'.clients.lookup addr = some c' ∧
      c'.transferIn.transfers = c.transferIn.transfers ∧
      c'.pendingBlockRequests = c.pendingBlockRequests

/-- The payload is processed without a panic and changes nothing. -/
def Idempotent [Sealing] (h : Handler) (addr : SocketAddr) (chunk : TransferPayload) : Prop :=
  ∀ fuel now rand, ∃ h' sent, h.receive fuel now rand addr (.TransferPayload chunk) = .ok (h', sent) ∧
    Unchanged h h' addr

/-! ## A chunk that is there -/

/-- The chunk is available, in a block that is there. -/
def Available (db : BlockDb) (t : Transfer) (chunk : TransferPayload) : Prop :=
  ∃ b, db.lookup t.blockid = some b ∧
    ∀ p, b = .Partial p → p.available[chunk.chunkid - t.start]? = some true

theorem Available.next {db db' : BlockDb} {t : Transfer} {chunk : TransferPayload}
    (ha : Available db t chunk)
    (hnext : ∀ b, db.lookup t.blockid = some b → ∃ b', db'.lookup t.blockid = some b' ∧
      Handler.Next b b') : Available db' t chunk := by
  obtain ⟨b, hb, havail⟩ := ha
  obtain ⟨b', hb', hstep⟩ := hnext b hb
  refine ⟨b', hb', ?_⟩
  rintro p' rfl
  cases hstep with
  | same => exact havail p' rfl
  | @chunk p t' chunk' hindex =>
    have hold := havail p rfl
    by_cases hi : chunk'.chunkid - t'.start = chunk.chunkid - t.start
    · rw [Handler.stored, hi, List.getElem?_set_self (hi ▸ hindex)]
    · rw [Handler.stored, List.getElem?_set_ne hi, hold]

theorem stored_again {p : Partial} {f : Full} (ha : Arrived p f) {t : Transfer}
    {chunk : TransferPayload} (hi : p.available[chunk.chunkid - t.start]? = some true)
    (hdata : chunk.data = slice f.data ((chunk.chunkid - t.start) * chunkSize) chunkSize) :
    Handler.stored t p chunk = p := by
  obtain ⟨hlt, hbit⟩ := List.getElem?_eq_some_iff.mp hi
  have hpos := chunk_start_lt (ha.chunks ▸ hlt)
  have hlength := ha.length
  have hbytes : overwrite 0 p.data ((chunk.chunkid - t.start) * chunkSize) chunk.data = p.data := by
    have hlen : (overwrite 0 p.data ((chunk.chunkid - t.start) * chunkSize) chunk.data).length =
        p.data.length := by
      refine overwrite_length_of_fits _ _ _ _ ?_
      rw [hdata, slice_length]
      omega
    refine eq_of_agreeOn hlen fun j _ hj => ?_
    by_cases hin : (chunk.chunkid - t.start) * chunkSize ≤ j ∧
        j < (chunk.chunkid - t.start) * chunkSize + chunkSize
    · rw [ha.agree _ hi j hin.1 hin.2, hdata]
      exact AgreeOn.overwrite_cut hlength (by omega) j hin.1 hin.2
    · refine AgreeOn.overwrite (a := j) (b := j + 1) (by omega) ?_ j le_rfl (Nat.lt_succ_self j)
      rw [hdata, slice_length]
      omega
  have hbits : p.available.set (chunk.chunkid - t.start) true = p.available := by
    apply List.ext_getElem?
    intro j
    by_cases hj : chunk.chunkid - t.start = j
    · rw [← hj, List.getElem?_set_self hlt, hi]
    · rw [List.getElem?_set_ne hj]
  rw [Handler.stored, hbytes, hbits]

section Sealing

variable [Sealing] {h h₁ : Handler} {addr : SocketAddr} {chunk : TransferPayload} {t : Transfer}
  {p : Partial} {c : Client}

theorem receive_of_missing (haccepts : h.Accepts addr chunk c t p)
    (hmissing : ¬ Handler.Whole (Handler.stored t p chunk)) (fuel now : Nat) (rand : UInt32) :
    h.receive fuel now rand addr (.TransferPayload chunk) = .ok ({ h with
      blockdb := h.blockdb.set t.blockid (.Partial (Handler.stored t p chunk))
      statusTokens := h.statusTokens ++ [addr] }, []) := by
  have hstore := Handler.storeChunk_accepts.mpr ⟨c, p, haccepts, rfl⟩
  have hpromote : (h.blockdb.set t.blockid (.Partial (Handler.stored t p chunk))).tryPromote t.blockid =
      .ok (false, h.blockdb.set t.blockid (.Partial (Handler.stored t p chunk))) := by
    have hall : ((Handler.stored t p chunk).available.all fun b => b) = false := by
      rw [← Bool.not_eq_true, List.all_eq_true]
      exact hmissing
    simp only [BlockDb.tryPromote, BlockDb.get, BlockDb.lookup_set_self, Result.unwrap_some,
      Result.bind_ok, Block.partialRef, hall, Bool.not_false, if_true, Result.pure_def]
  rw [Handler.receive_known haccepts.known]
  simp [Handler.transferPayload, Handler.receiveChunk, hstore, hpromote]

theorem stored_of_receive {h' : Handler} {sent : Sent} {fuel now : Nat} {rand : UInt32}
    (hc : h.clients.lookup addr = some c)
    (hr : h.receive fuel now rand addr (.TransferPayload chunk) = .ok (h', sent)) :
    ∃ t h₁, h.storeChunk addr chunk = .ok (t, h₁) := by
  rw [Handler.receive_known hc] at hr
  obtain ⟨verified, h₂, hrecv, -⟩ := Handler.transferPayload_ok hr
  obtain ⟨t, h₁, p, hstore, -⟩ := Handler.receiveChunk_ok hrecv
  exact ⟨t, h₁, hstore⟩

theorem available_of_receive {h h' : Handler} {addr : SocketAddr} {sent : Sent} {fuel now : Nat}
    {rand : UInt32} (hr : h.receive fuel now rand addr (.TransferPayload chunk) = .ok (h', sent))
    {h₁ : Handler} (hstore : h.storeChunk addr chunk = .ok (t, h₁)) :
    Available h'.blockdb t chunk := by
  obtain ⟨c, p, haccepts, -⟩ := Handler.storeChunk_accepts.mp hstore
  have hset : (Handler.stored t p chunk).available[chunk.chunkid - t.start]? = some true := by
    rw [Handler.stored, List.getElem?_set_self haccepts.index]
  rw [Handler.receive_known haccepts.known] at hr
  obtain ⟨verified, h₂, hrecv, hend⟩ := Handler.transferPayload_ok hr
  obtain ⟨t', h₃, p₁, hstore', hp₁, hrecv⟩ := Handler.receiveChunk_ok hrecv
  rw [hstore, Result.ok.injEq, Prod.mk.injEq] at hstore'
  obtain ⟨rfl, rfl⟩ := hstore'
  obtain ⟨c', p', haccepts', rfl⟩ := Handler.storeChunk_accepts.mp hstore
  obtain rfl : p' = p := by
    have := haccepts'.block.symm.trans haccepts.block
    simpa using this
  have hchunk : Available h₂.blockdb t chunk := by
    obtain ⟨-, -, rfl⟩ | ⟨c₂, pending, -, -, -, rfl, -⟩ := hrecv
    · refine ⟨_, BlockDb.lookup_set_self, fun q hq => ?_⟩
      rw [← Block.Partial.inj hq]
      exact hset
    · exact ⟨_, BlockDb.lookup_set_self, by simp⟩
  obtain ⟨-, rfl, -⟩ | ⟨-, hupdate⟩ := hend
  · exact hchunk
  · obtain ⟨new, fs, -, -, rfl, -⟩ := Handler.applyUpdate_ok hupdate
    exact hchunk

end Sealing

section Serde

variable [Serde] [Sealing] {addrs : Addresses} {s s' : System} {e : Event} {root : BlockRef}
  {db : BlockDb} {c : Client} {chunk : TransferPayload} {t : Transfer}

/-! ## Along a run -/

theorem System.server_next (h : System.Step addrs s e s') {id : BlockId} {b : Block}
    (hb : s.server.blockdb.lookup id = some b) :
    ∃ b', s'.server.blockdb.lookup id = some b' ∧ Handler.Next b b' := by
  obtain hquiet | ⟨msg, -, heffect⟩ := System.server_effect h
  · exact ⟨b, by rw [hquiet.blockdb, hb], .same b⟩
  · exact heffect.next hb

theorem System.server_open (h : System.Step addrs s e s') (hopen : Handler.Open s.server.blockdb) :
    Handler.Open s'.server.blockdb := by
  obtain hquiet | ⟨msg, -, heffect⟩ := System.server_effect h
  · exact hquiet.blockdb ▸ hopen
  · exact heffect.open hopen

theorem System.start_open {client server : Opt} {rand : UInt32} {nonce : Vector UInt8 12}
    {capacity : Nat} {s₀ : System}
    (h : System.start addrs client server rand nonce capacity = .ok s₀) :
    Handler.Open s₀.server.blockdb := by
  obtain ⟨_, _, _, -, -, rfl⟩ := start_ok h
  intro id p hp
  obtain ⟨f, -, -, hf⟩ := insertAll_lookup hp
  cases hf

omit [Sealing] in
theorem SystemInv.payload (hinv : SystemInv addrs root db s c)
    (hr : s.Receives e (.TransferPayload chunk)) : IsPayload db c.transferOut.transfers chunk := by
  obtain ⟨-, i, d, -, hd, hmsg⟩ := hr
  cases hinv.toServer d (List.mem_of_getElem? hd) _ hmsg with
  | transferPayload h => exact h

/-- What stays true of a chunk that was processed. -/
structure Processed (addrs : Addresses) (root : BlockRef) (db : BlockDb) (t : Transfer)
    (chunk : TransferPayload) (s : System) (c : Client) : Prop where
  inv : SystemInv addrs root db s c
  opened : Handler.Open s.server.blockdb
  listed : (t.start, t.stop, t.blockid) ∈ c.transferOut.transfers
  available : Available s.server.blockdb t chunk

theorem Processed.step (hp : Processed addrs root db t chunk s c) (hroot : db.root = root)
    (hdb : Complete db) (h : System.Step addrs s e s') :
    ∃ c', Processed addrs root db t chunk s' c' := by
  obtain ⟨c', hinv, hsub⟩ := hp.inv.step hroot hdb h
  exact ⟨c', hinv, System.server_open h hp.opened, hsub hp.listed,
    hp.available.next fun b => System.server_next h⟩

omit [Sealing] in
theorem SystemInv.same_transfer (hinv : SystemInv addrs root db s c)
    (hlisted : (t.start, t.stop, t.blockid) ∈ c.transferOut.transfers)
    (hrange : t.start ≤ chunk.chunkid ∧ chunk.chunkid < t.stop) {c₁ : Client}
    (hc₁ : s.server.clients.lookup addrs.client = some c₁) {t' : Transfer}
    (ht' : c₁.transferIn.transfer chunk.chunkid = .ok t') : t' = t := by
  obtain ⟨hmem, hrange'⟩ := Handler.transfer_ok ht'
  have hlisted' := (hinv.receiver.busy c₁ hc₁).listed t' hmem
  exact Transfer.eq_of_listed (hinv.sender.serving.unique hlisted' hlisted hrange' hrange)

omit [Sealing] in
theorem SystemInv.transfer_of_partial (hinv : SystemInv addrs root db s c)
    (hlisted : (t.start, t.stop, t.blockid) ∈ c.transferOut.transfers)
    (hrange : t.start ≤ chunk.chunkid ∧ chunk.chunkid < t.stop) {c₁ : Client}
    (hc₁ : s.server.clients.lookup addrs.client = some c₁) {p : Partial}
    (hp : s.server.blockdb.lookup t.blockid = some (.Partial p)) :
    c₁.transferIn.transfer chunk.chunkid = .ok t ∧ c₁.transferIn.statusTx = true := by
  have hbusy := hinv.receiver.busy c₁ hc₁
  obtain ⟨t', ht', hid⟩ := hbusy.tracked _ p hp
  have hlisted' := hbusy.listed t' ht'
  have hsame : (t'.start, t'.stop, t'.blockid) = (t.start, t.stop, t.blockid) := by
    by_contra hne
    have hsymm : Std.Symm fun a b : Nat × Nat × BlockId => a.2.2 ≠ b.2.2 := ⟨fun _ _ h => h.symm⟩
    exact hinv.sender.once.forall hlisted' hlisted hne hid
  obtain ⟨t₁, hfind⟩ : ∃ t₁, c₁.transferIn.transfer chunk.chunkid = .ok t₁ := by
    simp only [TransferIn.transfer, Result.unwrap_eq_ok, ← Option.isSome_iff_exists,
      List.find?_isSome]
    simp only [Prod.mk.injEq] at hsame
    refine ⟨t', ht', ?_⟩
    simp [hsame.1, hsame.2.1, hrange.1, hrange.2]
  obtain rfl := hinv.same_transfer hlisted hrange hc₁ hfind
  exact ⟨hfind, hbusy.status (List.ne_nil_of_mem ht')⟩

theorem Processed.idempotent_iff (hp : Processed addrs root db t chunk s c)
    (hrange : t.start ≤ chunk.chunkid ∧ chunk.chunkid < t.stop) {f : Full} (hf : Holds db t.blockid f)
    (hdata : chunk.data = slice f.data ((chunk.chunkid - t.start) * chunkSize) chunkSize) {c₁ : Client}
    (hc₁ : s.server.clients.lookup addrs.client = some c₁) :
    Idempotent s.server addrs.client chunk ↔
      ∃ p, s.server.blockdb.lookup t.blockid = some (.Partial p) := by
  constructor
  · intro hidem
    obtain ⟨h', sent, hr, -⟩ := hidem 0 0 0
    obtain ⟨t', h₁, hstore⟩ := stored_of_receive hc₁ hr
    obtain ⟨c₂, p, haccepts, -⟩ := Handler.storeChunk_accepts.mp hstore
    obtain rfl := hp.inv.same_transfer hp.listed hrange haccepts.known haccepts.transfer
    exact ⟨p, haccepts.block⟩
  · rintro ⟨p, hpart⟩ fuel now rand
    obtain ⟨f', hf', harrived⟩ := hp.inv.receiver.parts _ p hpart
    obtain rfl := BlockDb.full_unique hf' hf
    obtain ⟨b, hb, havail⟩ := hp.available
    rw [hpart, Option.some.injEq] at hb
    have hbit := havail p hb.symm
    obtain ⟨hlt, -⟩ := List.getElem?_eq_some_iff.mp hbit
    obtain ⟨htransfer, hwaiting⟩ := hp.inv.transfer_of_partial hp.listed hrange hc₁ hpart
    have hpos := chunk_start_lt (harrived.chunks ▸ hlt)
    have hlength := harrived.length
    have haccepts : s.server.Accepts addrs.client chunk c₁ t p := by
      refine ⟨hc₁, hwaiting, htransfer, hpart, ?_, ?_, hlt⟩
      · rw [hdata, slice_length]
        omega
      · rw [hdata, slice_length]
        omega
    have hsame := stored_again harrived hbit hdata
    have hmissing : ¬ Handler.Whole (Handler.stored t p chunk) := by
      rw [hsame]
      exact hp.opened _ p hpart (List.ne_nil_of_length_pos (by omega))
    refine ⟨_, _, receive_of_missing haccepts hmissing fuel now rand, ?_, fun c' hc' => ?_⟩
    · rw [hsame]
      exact BlockDb.set_lookup hpart
    · exact ⟨c', hc', rfl, rfl⟩

variable {client server : Opt} {rand : UInt32} {nonce : Vector UInt8 12} {capacity : Nat} {s₀ : System}

/-- A payload that the server has processed can be processed again, with no change, exactly as long as
the block that it went into is partial. -/
theorem payload_idempotent_iff (hno : NoCollision (client.blocks ++ server.blocks))
    (hstart : System.start addrs client server rand nonce capacity = .ok s₀)
    {l : List (Transition System Event)} (hrun : Run (System.Step addrs) s₀ l s)
    {r : Transition System Event} (hr : r ∈ l)
    (hreceived : r.source.Receives r.label (.TransferPayload chunk))
    (hprocessed : r.source.server.clients.lookup addrs.client ≠ none)
    (hknown : s.server.clients.lookup addrs.client ≠ none) :
    ∃ t h₁, r.source.server.storeChunk addrs.client chunk = .ok (t, h₁) ∧
      (Idempotent s.server addrs.client chunk ↔
        ∃ p, s.server.blockdb.lookup t.blockid = some (.Partial p)) := by
  obtain ⟨root, c, -, -, hinv⟩ := SystemInv.start hno hstart
  have hopen := System.start_open hstart
  obtain ⟨hbefore, hstep, hafter⟩ := hrun.mem hr
  have hcomplete := insertAll_complete root client.blocks
  obtain ⟨⟨c₁, hinv₁⟩, hopen₁⟩ := hbefore.invariant
    (I := fun s => (∃ c, SystemInv addrs root (BlockDb.new root (insertAll client.blocks)) s c) ∧
      Handler.Open s.server.blockdb) ⟨⟨c, hinv⟩, hopen⟩ (by
    rintro t e u ⟨⟨c, hinv⟩, hopen⟩ hstep
    obtain ⟨c', hinv', -⟩ := hinv.step rfl hcomplete hstep
    exact ⟨⟨c', hinv'⟩, System.server_open hstep hopen⟩)
  obtain ⟨c₂, hc₂⟩ := Option.ne_none_iff_exists'.mp hprocessed
  obtain ⟨sent, hrecv⟩ := System.server_receive hstep hreceived
  obtain ⟨t, h₁, hstore⟩ := stored_of_receive hc₂ hrecv
  obtain ⟨hlisted, hlo, hhi, f, hf, hdata⟩ :=
    hinv₁.receiver.storeChunk_place hinv₁.sender.serving (hinv₁.payload hreceived) hstore
  obtain ⟨c₃, hinv₃, hsub⟩ := hinv₁.step rfl hcomplete hstep
  obtain ⟨c₄, hprocessed⟩ := hafter.invariant
    (I := fun s => ∃ c, Processed addrs root (BlockDb.new root (insertAll client.blocks)) t chunk s c)
    ⟨c₃, hinv₃, System.server_open hstep hopen₁, hsub hlisted, available_of_receive hrecv hstore⟩ (by
    rintro t e u ⟨c, hp⟩ hstep
    exact hp.step rfl hcomplete hstep)
  obtain ⟨c₅, hc₅⟩ := Option.ne_none_iff_exists'.mp hknown
  exact ⟨t, h₁, hstore, hprocessed.idempotent_iff ⟨hlo, hhi⟩ hf hdata hc₅⟩

end Serde

/-! ## A folder that comes twice -/

def folderArrives : Event := eventOf .server (.deliver 2)

/-- The session up to the payload of the folder, the session after it, the payload, and what comes of it
when it is received again. -/
def folderTwice [Serde] [Sealing] : Result (System × System × System × TransferPayload × Result Sent) := do
  let s₀ ← startOf plainName
  let s₁ ← replay (System.next ends) s₀ folderScript
  let msg ← Result.unwrap (s₁.received folderArrives)
  let chunk ← Result.unwrap (payloadOf msg)
  let s ← s₁.next ends folderArrives
  let again := s.server.receive 3 0 7 ends.client (.TransferPayload chunk) >>= fun r => .ok r.2
  return (s₀, s₁, s, chunk, again)

theorem folderTwice_ok [Serde] [Sealing] {s₀ s₁ s : System} {chunk : TransferPayload}
    {again : Result Sent} (h : folderTwice = .ok (s₀, s₁, s, chunk, again)) :
    startOf plainName = .ok s₀ ∧ Reachable (System.Step ends) s₀ s₁ ∧
      System.Step ends s₁ folderArrives s ∧ s₁.Receives folderArrives (.TransferPayload chunk) ∧
      again = (s.server.receive 3 0 7 ends.client (.TransferPayload chunk) >>= fun r => .ok r.2) := by
  simp only [folderTwice, Result.bind_eq_ok, Result.unwrap_eq_ok, Result.pure_def, Result.ok.injEq,
    Prod.mk.injEq] at h
  obtain ⟨_, hstart, _, hreplay, msg, hmsg, _, hchunk, _, hstep, rfl, rfl, rfl, rfl, rfl⟩ := h
  cases msg with
  | TransferPayload payload =>
    obtain rfl := Option.some.inj hchunk
    exact ⟨hstart, replay_reachable (fun _ _ _ h => h) hreplay, hstep, System.receives_iff.mpr hmsg, rfl⟩
  | TransferStatus | RootUpdate | RootUpdateResponse | BlockRequest | BlockRequestResponse => cases hchunk

theorem folderTwice_run :
    letI := serde
    letI := sealing
    ∃ s₀ s₁ s chunk, folderTwice = .ok (s₀, s₁, s, chunk, .panic) ∧
      s₁.server.clients.lookup ends.client ≠ none ∧ s.server.clients.lookup ends.client ≠ none := by
  let _ := serde
  let _ := sealing
  have hrun : (folderTwice >>= fun r => .ok ((r.2.1.server.clients.lookup ends.client).isSome,
      (r.2.2.1.server.clients.lookup ends.client).isSome, r.2.2.2.2)) = .ok (true, true, .panic) := by
    decide +kernel
  obtain ⟨⟨s₀, s₁, s, chunk, again⟩, htwice, hknown⟩ := Result.bind_eq_ok.mp hrun
  simp only [Result.ok.injEq, Prod.mk.injEq, Option.isSome_iff_ne_none] at hknown
  obtain ⟨hbefore, hafter, rfl⟩ := hknown
  exact ⟨s₀, s₁, s, chunk, htwice, hbefore, hafter⟩

/-- After the payload of the folder, whether the payload can come again is whether the folder is partial. -/
theorem payload_idempotent_iff_folder :
    letI := serde
    letI := sealing
    ∃ s₀ s₁ s chunk, startOf plainName = .ok s₀ ∧ Reachable (System.Step ends) s₀ s₁ ∧
      System.Step ends s₁ folderArrives s ∧ s₁.Receives folderArrives (.TransferPayload chunk) ∧
      ∃ t h₁, s₁.server.storeChunk ends.client chunk = .ok (t, h₁) ∧
        (Idempotent s.server ends.client chunk ↔
          ∃ p, s.server.blockdb.lookup t.blockid = some (.Partial p)) := by
  let _ := serde
  let _ := sealing
  obtain ⟨s₀, s₁, s, chunk, htwice, hbefore, hafter⟩ := folderTwice_run
  obtain ⟨hstart, ⟨l, hl⟩, hstep, hreceives, -⟩ := folderTwice_ok htwice
  exact ⟨s₀, s₁, s, chunk, hstart, ⟨l, hl⟩, hstep, hreceives,
    payload_idempotent_iff plainName_noCollision hstart (hl.snoc hstep) (r := ⟨s₁, folderArrives, s⟩) (by simp)
      hreceives hbefore hafter⟩

/-- When it comes again, the server panics. -/
theorem payload_panics :
    letI := serde
    letI := sealing
    NoCollision ((clientOpt plainName).blocks ++ serverOpt.blocks) ∧
      ∃ s₀ s₁ s chunk, startOf plainName = .ok s₀ ∧ Reachable (System.Step ends) s₀ s₁ ∧
        System.Step ends s₁ folderArrives s ∧ s₁.Receives folderArrives (.TransferPayload chunk) ∧
        s₁.server.clients.lookup ends.client ≠ none ∧ s.server.clients.lookup ends.client ≠ none ∧
        ¬ Idempotent s.server ends.client chunk := by
  let _ := serde
  let _ := sealing
  obtain ⟨s₀, s₁, s, chunk, htwice, hbefore, hafter⟩ := folderTwice_run
  obtain ⟨hstart, hreach, hstep, hreceives, hagain⟩ := folderTwice_ok htwice
  refine ⟨plainName_noCollision, s₀, s₁, s, chunk, hstart, hreach, hstep, hreceives, hbefore, hafter, ?_⟩
  intro hidem
  obtain ⟨h', sent, hr, -⟩ := hidem 3 0 7
  rw [hr] at hagain
  cases hagain

end DasProtokoll.Scsync
