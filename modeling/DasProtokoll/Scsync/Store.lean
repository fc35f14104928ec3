import DasProtokoll.Lib.Run
import DasProtokoll.Scsync.Effect
import DasProtokoll.Scsync.Restore
import DasProtokoll.Scsync.System
import DasProtokoll.Scsync.TransferStatus

/-!
# The store is copy-on-write

Whatever the peers send, a block that is full stays as it is, a partial block
only becomes the full block of its data, and the root only changes with a
verification.
-/

namespace DasProtokoll.Scsync

open DasProtokoll

/-- Each block is stored under its id. -/
def Keyed (db : BlockDb) : Prop := ∀ id b, db.lookup id = some b → b.id = id

namespace Handler

/-- All that makes a node do something. -/
inductive Input where
  | connect (srv : SocketAddr) (rand : UInt32) (nonce : Vector UInt8 12)
  | message (fuel now : Nat) (rand : UInt32) (addr : SocketAddr) (msg : Msg)
  | statusLoop (addr : SocketAddr)
  | transferLoop (now i : Nat)
  | requestRetry (addr : SocketAddr) (blockid : BlockId)

variable {h h' : Handler}

/-! ## Keys -/

theorem keyed_add {db : BlockDb} (hk : Keyed db) (block : Block) : Keyed (db.add block) := by
  intro id b hb
  rcases BlockDb.lookup_add hb with hb | ⟨rfl, rfl, -⟩
  · exact hk id b hb
  · rfl

theorem keyed_set {db : BlockDb} (hk : Keyed db) {id : BlockId} {block : Block} (hid : block.id = id) :
    Keyed (db.set id block) := by
  intro id' b hb
  by_cases h : id' = id
  · subst h
    rw [BlockDb.lookup_set_self, Option.some.injEq] at hb
    exact hb ▸ hid
  · rw [BlockDb.lookup_set_ne h] at hb
    exact hk id' b hb

theorem keyed_completed {db : BlockDb} (hk : Keyed db) {t : Transfer} {p : Partial}
    (hp : db.lookup t.blockid = some (.Partial p)) (chunk : TransferPayload) :
    Keyed (completed db t p chunk) := by
  have hid : p.id = t.blockid := hk _ _ hp
  exact keyed_set hk hid

section Sealing

variable [Sealing]

/-! ## Steps -/

def handle (h : Handler) : Input → Result (Handler × Sent)
  | .connect srv rand nonce => return h.connect srv rand nonce
  | .message fuel now rand addr msg => h.receive fuel now rand addr msg
  | .statusLoop addr => h.statusLoop addr
  | .transferLoop now i => h.transferLoop now i
  | .requestRetry addr blockid => h.requestRetry addr blockid

def Handles (h : Handler) (e : Input) (h' : Handler) : Prop := ∃ sent, h.handle e = .ok (h', sent)

theorem Handles.cases {e : Input} (hh : Handles h e h') :
    h'.blockdb = h.blockdb ∨
      ∃ fuel now rand addr msg, e = .message fuel now rand addr msg ∧ Effect h addr msg h' := by
  obtain ⟨sent, hh⟩ := hh
  cases e with
  | connect srv rand nonce =>
    obtain ⟨rfl, -⟩ := Prod.mk.inj (Result.ok.inj hh)
    exact Or.inl rfl
  | message fuel now rand addr msg =>
    exact Or.inr ⟨fuel, now, rand, addr, msg, rfl, receive_effect hh⟩
  | statusLoop addr => exact Or.inl (statusLoop_quiet hh).blockdb
  | transferLoop now i => exact Or.inl (transferLoop_quiet hh).blockdb
  | requestRetry addr blockid => exact Or.inl (requestRetry_quiet hh).blockdb

theorem Effect.keyed {addr : SocketAddr} {msg : Msg} (he : Effect h addr msg h') (hk : Keyed h.blockdb) :
    Keyed h'.blockdb := by
  cases he with
  | quiet hquiet => exact hquiet.blockdb ▸ hk
  | registered hnone hroot hpending hdb => exact hdb ▸ hk
  | announced hknown hdb =>
    rw [hdb]
    exact keyed_add hk _
  | @stored chunk c t p h' haccepts hmissing hdb =>
    rw [hdb]
    have hid : p.id = t.blockid := hk _ _ haccepts.block
    exact keyed_set hk hid
  | completed haccepts hwhole hdb =>
    rw [hdb]
    exact keyed_completed hk haccepts.block _
  | applied haccepts hwhole hroot hverify hdb =>
    rw [hdb]
    exact keyed_completed hk haccepts.block _

theorem Handles.keyed {e : Input} (hh : Handles h e h') (hk : Keyed h.blockdb) : Keyed h'.blockdb := by
  obtain hdb | ⟨_, _, _, _, _, _, heffect⟩ := hh.cases
  · exact hdb ▸ hk
  · exact heffect.keyed hk

/-! ## Blocks and the root -/

theorem Handles.full {e : Input} (hh : Handles h e h') {id : BlockId} {f : Full}
    (hf : h.blockdb.lookup id = some (.Full f)) : h'.blockdb.lookup id = some (.Full f) := by
  obtain hdb | ⟨_, _, _, _, _, _, heffect⟩ := hh.cases
  · rwa [hdb]
  · obtain ⟨b, hb, hnext⟩ := heffect.next hf
    cases hnext
    exact hb

/-- What becomes of a partial block in one step. -/
inductive Progress (p : Partial) : Input → Block → Prop
  | same {e : Input} : Progress p e (.Partial p)
  | chunk {fuel now : Nat} {rand : UInt32} {addr : SocketAddr} {chunk : TransferPayload} {t : Transfer}
    (hmissing : ¬ Whole (Handler.stored t p chunk)) :
    Progress p (.message fuel now rand addr (.TransferPayload chunk))
      (.Partial (Handler.stored t p chunk))
  | full {fuel now : Nat} {rand : UInt32} {addr : SocketAddr} {chunk : TransferPayload} {t : Transfer}
    {f : Full} (hwhole : Whole (Handler.stored t p chunk)) (hid : f.id = p.id)
    (hdata : f.data = (Handler.stored t p chunk).data) :
    Progress p (.message fuel now rand addr (.TransferPayload chunk)) (.Full f)

omit [Sealing] in
theorem progress_completed {chunk : TransferPayload} {addr : SocketAddr} {c : Client} {t : Transfer}
    {q : Partial} (haccepts : h.Accepts addr chunk c t q) (hwhole : Whole (Handler.stored t q chunk))
    {id : BlockId} {p : Partial} (hp : h.blockdb.lookup id = some (.Partial p)) {fuel now : Nat}
    {rand : UInt32} :
    ∃ b, (Handler.completed h.blockdb t q chunk).lookup id = some b ∧
      Progress p (.message fuel now rand addr (.TransferPayload chunk)) b := by
  by_cases hid : id = t.blockid
  · subst hid
    obtain rfl := Block.Partial.inj (Option.some.inj (hp.symm.trans haccepts.block))
    exact ⟨_, lookup_completed_self, .full hwhole rfl rfl⟩
  · exact ⟨_, (lookup_completed_ne hid).trans hp, .same⟩

theorem Handles.progress {e : Input} (hh : Handles h e h') {id : BlockId} {p : Partial}
    (hp : h.blockdb.lookup id = some (.Partial p)) :
    ∃ b, h'.blockdb.lookup id = some b ∧ Progress p e b := by
  obtain hdb | ⟨fuel, now, rand, addr, msg, rfl, heffect⟩ := hh.cases
  · exact ⟨_, by rw [hdb, hp], .same⟩
  cases heffect with
  | quiet hquiet => exact ⟨_, by rw [hquiet.blockdb, hp], .same⟩
  | registered hnone hroot hpending hdb => exact ⟨_, by rw [hdb]; exact hp, .same⟩
  | announced hknown hdb => exact ⟨_, by rw [hdb]; exact BlockDb.lookup_add_of_some hp, .same⟩
  | @stored chunk c t q h' haccepts hmissing hdb =>
    rw [hdb]
    by_cases hid : id = t.blockid
    · subst hid
      obtain rfl := Block.Partial.inj (Option.some.inj (hp.symm.trans haccepts.block))
      exact ⟨_, BlockDb.lookup_set_self, .chunk hmissing⟩
    · exact ⟨_, (BlockDb.lookup_set_ne hid).trans hp, .same⟩
  | @completed chunk c t q h' fuel' haccepts hwhole hdb =>
    rw [hdb]
    exact progress_completed haccepts hwhole hp
  | @applied chunk c t q h' fuel' root haccepts hwhole hroot hverify hdb =>
    rw [hdb]
    exact progress_completed haccepts hwhole hp

theorem Handles.root {e : Input} (hh : Handles h e h')
    (hne : h'.blockdb.root ≠ h.blockdb.root) :
    ∃ fuel now rand addr chunk db fuel', e = .message fuel now rand addr (.TransferPayload chunk) ∧
      h.blockdb.pendingRoot = some h'.blockdb.root ∧ db.pendingRoot = h.blockdb.pendingRoot ∧
      h'.blockdb.blocks = db.blocks ∧ verify db fuel' true = .ok true := by
  obtain hdb | ⟨fuel, now, rand, addr, msg, rfl, heffect⟩ := hh.cases
  · exact absurd (by rw [hdb]) hne
  cases heffect with
  | quiet hquiet => exact absurd (by rw [hquiet.blockdb]) hne
  | registered hnone hroot hpending hdb => exact absurd (by rw [hdb]; rfl) hne
  | announced hknown hdb => exact absurd (by rw [hdb, BlockDb.add_root]) hne
  | stored haccepts hmissing hdb => exact absurd (by rw [hdb, BlockDb.set_root]) hne
  | completed haccepts hwhole hdb => exact absurd (by rw [hdb]; rfl) hne
  | @applied chunk c t p h' fuel' root haccepts hwhole hroot hverify hdb =>
    refine ⟨fuel, now, rand, addr, chunk, completed h.blockdb t p chunk, fuel', rfl, ?_, rfl, ?_, hverify⟩
    · rw [hroot, hdb]
    · rw [hdb]

/-! ## Runs -/

theorem keyed_start {opt : Opt} (hstart : opt.handler = .ok h) : Keyed h.blockdb := by
  simp only [Opt.handler, blockdbFromFolder, Result.bind_eq_ok, Result.pure_def, Result.ok.injEq] at hstart
  obtain ⟨_, ⟨⟨root, blocks⟩, -, rfl⟩, rfl⟩ := hstart
  intro id b hb
  obtain ⟨f, -, hid, rfl⟩ := insertAll_lookup hb
  exact hid

theorem keyed_reachable (hr : Reachable Handles h h') (hk : Keyed h.blockdb) : Keyed h'.blockdb :=
  hr.invariant hk fun _ _ _ hk hh => hh.keyed hk

theorem full_reachable (hr : Reachable Handles h h') {id : BlockId} {f : Full}
    (hf : h.blockdb.lookup id = some (.Full f)) : h'.blockdb.lookup id = some (.Full f) :=
  hr.invariant hf fun _ _ _ hf hh => hh.full hf

/-- The store of a node, whatever it is sent. -/
theorem copy_on_write {opt : Opt} {h₀ : Handler} (hstart : opt.handler = .ok h₀)
    {l : List (Transition Handler Input)} (hrun : Run Handles h₀ l h) :
    Keyed h.blockdb ∧
    (∀ id f, h₀.blockdb.lookup id = some (.Full f) → h.blockdb.lookup id = some (.Full f)) ∧
    ∀ r ∈ l,
      (∀ id f, r.target.blockdb.lookup id = some (.Full f) → h.blockdb.lookup id = some (.Full f)) ∧
      (∀ id p, r.source.blockdb.lookup id = some (.Partial p) →
        ∃ b, r.target.blockdb.lookup id = some b ∧ Progress p r.label b) ∧
      (r.target.blockdb.root ≠ r.source.blockdb.root →
        ∃ fuel now rand addr chunk db fuel',
          r.label = .message fuel now rand addr (.TransferPayload chunk) ∧
          r.source.blockdb.pendingRoot = some r.target.blockdb.root ∧
          db.pendingRoot = r.source.blockdb.pendingRoot ∧ r.target.blockdb.blocks = db.blocks ∧
          verify db fuel' true = .ok true) := by
  have hreach : Reachable Handles h₀ h := ⟨l, hrun⟩
  refine ⟨keyed_reachable hreach (keyed_start hstart), fun id f => full_reachable hreach, ?_⟩
  intro r hr
  obtain ⟨-, hstep, hafter⟩ := hrun.mem hr
  exact ⟨fun id f => full_reachable hafter, fun id p => Handles.progress hstep, Handles.root hstep⟩

end Sealing

/-- A node with an empty folder. -/
def emptyOpt : Opt where
  files := { absolute := true, components := [[0x73]] }
  tree := .nil
  rand _ := (Vector.replicate 16 5, Vector.replicate 16 0)
  packetDelay := 0
  fs := { cwd := [], node := fun place => if place = [] ∨ place = [[0x73]] then some .dir else none }

/-- The node hears of a block that it has not asked for. -/
theorem copy_on_write_response :
    letI := sealing
    ∃ h₀ h l, emptyOpt.handler = .ok h₀ ∧ Run Handles h₀ l h ∧ l.length = 2 ∧ Keyed h.blockdb := by
  let _ := sealing
  have hok : (do let _ ← emptyOpt.handler; return) = .ok () := by decide +kernel
  obtain ⟨h₀, hstart, -⟩ := Result.bind_eq_ok.mp hok
  have hconnect : Handles h₀ (.connect peerAddr 7 (Vector.replicate 12 0))
      (h₀.setClient peerAddr (.default 7)) := ⟨_, rfl⟩
  have hclient : (h₀.setClient peerAddr (.default 7)).clients.lookup peerAddr = some (.default 7) :=
    setClient_lookup
  have hresponse : ∃ h, Handles (h₀.setClient peerAddr (.default 7)) (.message 0 0 7 peerAddr
      (.BlockRequestResponse { blockid := twoChunks, startId := 5, endId := 8, len := 3 })) h := by
    unfold Handles handle
    simp only [receive_known hclient, blockRequestResponse, client_eq_ok.mpr hclient, Result.bind_ok]
    rw [Result.assert_of (by decide)]
    exact ⟨_, _, rfl⟩
  obtain ⟨h, hresponse⟩ := hresponse
  have hrun := (Run.nil.snoc hconnect).snoc hresponse
  exact ⟨h₀, h, _, hstart, hrun, rfl, (copy_on_write hstart hrun).1⟩

end Handler

end DasProtokoll.Scsync
