import DasProtokoll.Scsync.Promotion
import DasProtokoll.Scsync.Resolve
import DasProtokoll.Scsync.StatusOrder
import Mathlib.Algebra.BigOperators.Group.Finset.Basic
import Mathlib.Algebra.Order.BigOperators.Group.Finset

/-!
# What the server asks for

The server asks for blocks that the client has, and its statuses name chunks that
the client has allocated. So nothing that the network delivers makes the client
panic.
-/

namespace DasProtokoll.Scsync

open DasProtokoll Relation

section Sealing

variable [Sealing] {db : BlockDb} {id : BlockId}

/-! ## What `resolve` returns -/

theorem traverseChildren_resolves
    {rec_ : PathBuf → BlockRef → Decoded → Unit → Result (Unit × Option Decoded)} {path : PathBuf}
    {bref : BlockRef} {children : List Child} {d : Decoded}
    (h : traverseChildren db (resolveBlockVisitor id) rec_ path bref children () = .ok ((), some d)) :
    ∃ c ∈ children, ∃ f dec, db.lookup c.blockref.blockid = some (.Full f) ∧
      decodeAs c.type f c.blockref.key = some dec ∧
      rec_ (path.join (.ofString c.name)) c.blockref dec () = .ok ((), some d) := by
  induction children with
  | nil => cases h
  | cons c children ih =>
    by_cases hfull : IsFull db (c.type, c.blockref)
    · obtain ⟨f, hf⟩ := hfull
      rw [traverseChildren_of_full hf] at h
      simp only [Result.bind_eq_ok, Result.unwrap_eq_ok] at h
      obtain ⟨dec, hdec, ⟨⟨⟩, t⟩, hrec, h⟩ := h
      cases t with
      | some t =>
        obtain rfl : t = d := by
          simpa [proceed] using h
        exact ⟨c, by simp, f, dec, hf, hdec, hrec⟩
      | none =>
        obtain ⟨c', hc', hrest⟩ := ih h
        exact ⟨c', by simp [hc'], hrest⟩
    · obtain ⟨c', hc', hrest⟩ := ih ((traverseChildren_skip hfull).symm.trans h)
      exact ⟨c', by simp [hc'], hrest⟩

theorem decodedBy_self (hkeyed : Keyed db) {type : BlockType} {r : BlockRef} {f : Full} {dec : Decoded}
    (hf : db.lookup r.blockid = some (.Full f)) (hdec : decodeAs type f r.key = some dec)
    (hid : f.id = id) : DecodedBy db id (type, r) dec := by
  have hr : r.blockid = id := (hkeyed _ _ hf).symm.trans hid
  exact ⟨hr, f, hr ▸ hf, hdec⟩

omit [Sealing] in
theorem resolveBlockVisitor_call {path : PathBuf} {f : Full} {dec : Decoded} :
    (resolveBlockVisitor id).call db () (.ofDecoded path f dec) =
      ((), if f.id = id then some dec else none) := by
  cases dec <;> simp only [Visitor.call, Call.ofDecoded, resolveBlockVisitor]

theorem traverseRec_resolves (hkeyed : Keyed db) {fuel : Nat} {path : PathBuf} {type : BlockType}
    {r : BlockRef} {f : Full} {dec d : Decoded} (hf : db.lookup r.blockid = some (.Full f))
    (hdec : decodeAs type f r.key = some dec)
    (h : traverseRec db (resolveBlockVisitor id) fuel path r dec () = .ok ((), some d)) :
    ∃ n, DirReaches db (type, r) n ∧ DecodedBy db id n d := by
  induction fuel generalizing path type r f dec with
  | zero => cases h
  | succ fuel ih =>
    by_cases htype : type = .Directory
    · subst htype
      obtain ⟨dir, hdir, rfl⟩ := Option.map_eq_some_iff.mp hdec
      rw [traverseRec_directory hf,
        show Call.Dir path f dir = .ofDecoded path f (.Dir dir) from rfl, resolveBlockVisitor_call] at h
      split at h
      · rename_i hid
        simp only [proceed, Result.ok.injEq, Prod.mk.injEq, Option.some.injEq,
          true_and] at h
        exact ⟨_, .refl, h ▸ decodedBy_self hkeyed hf hdec hid⟩
      · rw [proceed_none rfl] at h
        obtain ⟨c, hc, f', dec', hf', hdec', hrec⟩ := traverseChildren_resolves h
        obtain ⟨n, hn, hby⟩ := ih hf' hdec' hrec
        exact ⟨n, hn.head ((dirChild_iff hf hdir).mpr ⟨c, hc, rfl⟩), hby⟩
    · rw [traverseRec_file htype hf hdec, resolveBlockVisitor_call] at h
      simp only [Result.ok.injEq, Prod.mk.injEq, true_and, Option.ite_none_right_eq_some,
        Option.some.injEq] at h
      obtain ⟨hid, rfl⟩ := h
      exact ⟨_, .refl, decodedBy_self hkeyed hf hdec hid⟩

theorem resolve_sound (hkeyed : Keyed db) {root : BlockRef} (hp : db.pendingRoot = some root) {fuel : Nat}
    {d : Decoded} (h : resolve db fuel id true = .ok d) :
    ∃ n, DirReaches db (.Directory, root) n ∧ DecodedBy db id n d := by
  simp only [resolve, BlockDb.rootRef, if_true, hp, Result.unwrap_some, Result.bind_ok,
    Result.bind_eq_ok, Result.unwrap_eq_ok] at h
  obtain ⟨⟨⟨⟩, t⟩, htrav, rfl⟩ := h
  by_cases hread : ∃ f dir, db.lookup root.blockid = some (.Full f) ∧ Dir.fromFull f root.key = some dir
  · obtain ⟨f, dir, hf, hdir⟩ := hread
    have hdec := decodeAs_directory hdir
    rw [traverse_of_full hf hdir, show Call.Dir rootPath f dir = .ofDecoded rootPath f (.Dir dir) from rfl,
      resolveBlockVisitor_call] at htrav
    split at htrav
    · rename_i hid
      simp only [proceed, Result.ok.injEq, Prod.mk.injEq, Option.some.injEq,
        true_and] at htrav
      exact ⟨_, .refl, htrav ▸ decodedBy_self hkeyed hf hdec hid⟩
    · rw [proceed_none rfl] at htrav
      exact traverseRec_resolves hkeyed hf hdec htrav
  · rw [traverse_of_unreadable] at htrav
    · cases htrav
    · exact fun f dir hf hdir => hread ⟨f, dir, hf, hdir⟩

theorem DirReaches.agree {db' : BlockDb} {r n : Ref} (hall : AllFull db r) (hagree : Agrees db' (Holds db))
    (h : DirReaches db' r n) : DirReaches db r n := by
  induction h with
  | refl => exact .refl
  | @tail b c _ hbc ih =>
    obtain ⟨htype, f', dir, hf', hdir, child, hchild, rfl⟩ := hbc
    obtain ⟨f, hf⟩ := hall b (ReflTransGen.mono (fun _ _ => Or.inl) _ _ ih)
    refine ih.tail ⟨htype, f, dir, hf, ?_, child, hchild, rfl⟩
    rwa [Dir.fromFull, fromFull_congr (hagree _ f f' hf hf').symm, ← Dir.fromFull]

theorem blockrefs_full {r n : Ref} (hall : AllFull db r) (hn : Reaches db r n) {f : Full} {dec : Decoded}
    (hf : db.lookup n.2.blockid = some (.Full f)) (hdec : decodeAs n.1 f n.2.key = some dec)
    {m : BlockRef} (hm : m ∈ Handler.blockrefs dec) : ∃ g, Holds db m.blockid g := by
  obtain ⟨type, n⟩ := n
  cases type with
  | Directory =>
    obtain ⟨dir, hdir, rfl⟩ := Option.map_eq_some_iff.mp hdec
    obtain ⟨child, hchild, rfl⟩ := List.mem_map.mp hm
    exact hall _ (hn.tail (Or.inl ⟨rfl, f, dir, hf, hdir, child, hchild, rfl⟩))
  | FileMeta =>
    obtain ⟨meta_, hmeta, rfl⟩ := Option.map_eq_some_iff.mp hdec
    exact hall (.Leaf, m) (hn.tail (Or.inr ⟨rfl, f, meta_, hf, hmeta, hm, rfl⟩))
  | Leaf =>
    obtain ⟨leaf, -, rfl⟩ := Option.map_eq_some_iff.mp hdec
    cases hm

theorem resolve_refs_full {db' : BlockDb} {root : BlockRef} (hall : AllFull db (.Directory, root))
    (hagree : Agrees db' (Holds db)) (hkeyed : Keyed db') (hp : db'.pendingRoot = some root) {fuel : Nat}
    {dec : Decoded} (h : resolve db' fuel id true = .ok dec) {m : BlockRef}
    (hm : m ∈ Handler.blockrefs dec) : ∃ g, Holds db m.blockid g := by
  obtain ⟨n, hn, rfl, f', hf', hdec⟩ := resolve_sound hkeyed hp h
  have hreach : Reaches db (.Directory, root) n :=
    ReflTransGen.mono (fun _ _ => Or.inl) _ _ (hn.agree hall hagree)
  obtain ⟨f, hf⟩ := hall n hreach
  refine blockrefs_full hall hreach hf ?_ hm
  cases htype : n.1 <;> rw [htype] at hdec <;>
    simp only [decodeAs, Dir.fromFull, Meta.fromFull, Leaf.fromFull] at hdec ⊢ <;>
    rwa [fromFull_congr (hagree _ f f' hf hf').symm]

end Sealing

/-! ## Chunks that are allocated -/

/-- The chunk is one of a block that the client has ids for. -/
def InChunks (db : BlockDb) (transfers : List (Nat × Nat × BlockId)) (x : Nat) : Prop :=
  ∃ t ∈ transfers, ∃ f, db.lookup t.2.2 = some (.Full f) ∧ t.1 ≤ x ∧ x < t.1 + numChunks f.data.length

/-- No range is empty, and all chunks in them are allocated. -/
def Named (db : BlockDb) (transfers : List (Nat × Nat × BlockId)) (rs : Ranges) : Prop :=
  ∀ r ∈ rs, r.1 < r.2 ∧ ∀ x, r.1 ≤ x → x < r.2 → InChunks db transfers x

section Named

variable {db : BlockDb} {out : TransferOut} {transfers transfers' : List (Nat × Nat × BlockId)}
  {rs : Ranges} {x : Nat}

theorem InChunks.mono (h : InChunks db transfers x) (hsub : transfers ⊆ transfers') :
    InChunks db transfers' x := by
  obtain ⟨t, ht, hrest⟩ := h
  exact ⟨t, hsub ht, hrest⟩

theorem Named.mono (h : Named db transfers rs) (hsub : transfers ⊆ transfers') : Named db transfers' rs :=
  fun r hr => ⟨(h r hr).1, fun x hlo hhi => ((h r hr).2 x hlo hhi).mono hsub⟩

theorem Serving.inChunks (hs : Serving db out) (h : InChunks db out.transfers x) :
    x < out.transferCursor ∧ ∃ t ∈ out.transfers, t.1 ≤ x ∧ x < t.2.1 ∧ (x - t.1) * chunkSize < u64Size := by
  obtain ⟨t, ht, f, hf, hlo, hhi⟩ := h
  obtain ⟨f', hf', hstop⟩ := hs.blocks t ht
  obtain rfl := BlockDb.full_unique hf hf'
  have hle := numChunks_le f.data.length
  have hbelow := hs.below t ht
  have hbounded := hs.bounded
  have hlt : (x - t.1) * chunkSize < f.data.length := chunk_start_lt (by omega)
  exact ⟨by omega, t, ht, hlo, by omega, by omega⟩

theorem Named.head (h : Named db transfers rs) (hx : (rs.head?.map fun r => r.1) = some x) :
    InChunks db transfers x := by
  cases rs with
  | nil => cases hx
  | cons r rs =>
    obtain rfl := Option.some.inj hx
    obtain ⟨hlt, hin⟩ := h r (by simp)
    exact hin _ le_rfl hlt

theorem Named.firstFrom (h : Named db transfers rs) {c : Nat} (hx : Ranges.firstFrom rs c = some x) :
    InChunks db transfers x := by
  obtain ⟨pre, r, post, rfl, -, hc, rfl⟩ := Ranges.firstFrom_eq_some hx
  obtain ⟨hlt, hin⟩ := h r (by simp)
  exact hin _ (le_max_right _ _) (max_lt hc hlt)

theorem Serving.named_lt (hs : Serving db out) (h : Named db out.transfers rs) :
    ∀ r ∈ rs, r.1 < u64Size ∧ r.2 < u64Size := by
  intro r hr
  obtain ⟨hlt, hin⟩ := h r hr
  have hlast := (hs.inChunks (hin (r.2 - 1) (by omega) (by omega))).1
  have hbounded := hs.bounded
  omega

end Named

/-! ## The server -/

/-- The server waits for blocks of the client only. -/
structure Asks (client : SocketAddr) (db : BlockDb) (h : Handler) : Prop where
  keyed : Keyed h.blockdb
  pending : ∀ c, h.clients.lookup client = some c → ∀ id ∈ c.pendingBlockRequests, ∃ f, Holds db id f

/-- What the client can do with a message without a panic. -/
inductive Expected (root : BlockRef) (db : BlockDb) (transfers : List (Nat × Nat × BlockId)) : Msg → Prop
  | rootUpdateResponse {res : RootUpdateResponse} (h : res.toBlockid = root.blockid) :
    Expected root db transfers (.RootUpdateResponse res)
  | blockRequest {req : BlockRequest} (h : ∃ f, Holds db req.blockid f) :
    Expected root db transfers (.BlockRequest req)
  | transferStatus {status : TransferStatus} (h : Named db transfers status.missingRanges) :
    Expected root db transfers (.TransferStatus status)

section Server

variable {root : BlockRef} {db : BlockDb} {client : SocketAddr} {h h' : Handler} {c : Client}
  {sent : Sent} {out : TransferOut}

theorem Expected.mono {transfers transfers' : List (Nat × Nat × BlockId)} {msg : Msg}
    (h : Expected root db transfers msg) (hsub : transfers ⊆ transfers') :
    Expected root db transfers' msg := by
  cases h with
  | rootUpdateResponse h => exact .rootUpdateResponse h
  | blockRequest h => exact .blockRequest h
  | transferStatus h => exact .transferStatus (h.mono hsub)

theorem Asks.of_client (hkeyed : Keyed h'.blockdb) (hc : h'.clients.lookup client = some c)
    (hpending : ∀ id ∈ c.pendingBlockRequests, ∃ f, Holds db id f) : Asks client db h' := by
  refine ⟨hkeyed, fun c' hc' => ?_⟩
  obtain rfl := Option.some.inj (hc.symm.trans hc')
  exact hpending

theorem Asks.of_none (hkeyed : Keyed h'.blockdb) (hnone : h'.clients.lookup client = none) :
    Asks client db h' := by
  refine ⟨hkeyed, fun c' hc' => ?_⟩
  rw [hnone] at hc'
  cases hc'

section Sealing

variable [Sealing] {fuel now : Nat} {rand : UInt32} {msg : Msg}

theorem Asks.receiveChunk (ha : Asks client db h) (hr : Receiver client root db out.transfers h)
    (hs : Serving db out) (hall : AllFull db (.Directory, root)) {chunk : TransferPayload}
    (hp : IsPayload db out.transfers chunk) {verified : Bool} (hkeyed : Keyed h'.blockdb)
    (hact : h.receiveChunk fuel client chunk = .ok (verified, h')) : Asks client db h' := by
  have hr' := (hr.receiveChunk hs hp hact).1
  obtain ⟨c, t, p, haccepts, ⟨-, -, rfl⟩ | ⟨-, dec, rfl, hdec, -⟩⟩ := Handler.receiveChunk_accepts hact
  · exact .of_client hkeyed haccepts.known (ha.pending c haccepts.known)
  · refine .of_client hkeyed Handler.setClient_lookup fun id hid => ?_
    rcases Finset.mem_union.mp hid with hid | hid
    · obtain ⟨-, m, hm, rfl⟩ := Handler.mem_missingRefs.mp hid
      exact resolve_refs_full hall hr'.full hkeyed (hr.busy c haccepts.known).pendingRoot hdec hm
    · exact ha.pending c haccepts.known id hid

theorem Asks.receive (ha : Asks client db h) (hr : Receiver client root db out.transfers h)
    (hs : Serving db out) (hall : AllFull db (.Directory, root))
    (hmsg : FromSender root db out.transfers msg)
    (hact : h.receive fuel now rand client msg = .ok (h', sent)) : Asks client db h' := by
  have hkeyed : Keyed h'.blockdb := (Handler.receive_effect hact).keyed ha.keyed
  cases hlookup : h.clients.lookup client with
  | none =>
    rw [Handler.receive_unknown hlookup] at hact
    cases hmsg with
    | @rootUpdate update hu =>
      have hact := Result.ok.inj hact
      unfold Handler.unconnectedRootUpdate at hact
      split at hact
      · exact (Prod.mk.inj hact).1 ▸ ha
      · split at hact
        · exact (Prod.mk.inj hact).1 ▸ ha
        · obtain ⟨rfl, -⟩ := Prod.mk.inj hact
          refine .of_client hkeyed Handler.setClient_lookup fun id hid => ?_
          have hid : id = root.blockid := by
            simpa [Client.sendBlockRequest, Client.default, hu] using hid
          obtain ⟨f, hf⟩ := hall _ .refl
          exact ⟨f, hid ▸ hf⟩
    | blockRequestResponse | transferPayload => exact (Prod.mk.inj (Result.ok.inj hact)).1 ▸ ha
  | some c =>
    rw [Handler.receive_known hlookup] at hact
    cases hmsg with
    | rootUpdate hu => exact (Prod.mk.inj (Result.ok.inj hact)).1 ▸ ha
    | blockRequestResponse hres =>
      simp only [Result.bind_eq_ok, Result.pure_def, Result.ok.injEq, Prod.mk.injEq] at hact
      obtain ⟨h₁, hact, rfl, -⟩ := hact
      obtain ⟨c', tokens, hc', rfl⟩ := Handler.blockRequestResponse_ok hact
      refine .of_client hkeyed Handler.setClient_lookup fun id hid => ?_
      exact ha.pending c' hc' id (Finset.mem_of_mem_erase hid)
    | transferPayload hp =>
      obtain ⟨verified, h₁, hchunk, ⟨-, rfl, -⟩ | ⟨-, hupdate⟩⟩ := Handler.transferPayload_ok hact
      · exact ha.receiveChunk hr hs hall hp hkeyed hchunk
      · obtain ⟨new, fs, -, -, rfl, -⟩ := Handler.applyUpdate_ok hupdate
        exact .of_none hkeyed (AList.lookup_erase _ _)

theorem sent_rootUpdateResponse {transfers : List (Nat × Nat × BlockId)}
    (hmsg : FromSender root db transfers msg) (hact : h.receive fuel now rand client msg = .ok (h', sent)) :
    ∀ m ∈ sent, ∃ res, m.1 = .RootUpdateResponse res := by
  cases hlookup : h.clients.lookup client with
  | none =>
    rw [Handler.receive_unknown hlookup] at hact
    cases hmsg with
    | rootUpdate hu =>
      have hact := Result.ok.inj hact
      unfold Handler.unconnectedRootUpdate at hact
      split at hact
      · obtain ⟨-, rfl⟩ := Prod.mk.inj hact
        simp
      · split at hact <;> obtain ⟨-, rfl⟩ := Prod.mk.inj hact <;> simp
    | blockRequestResponse | transferPayload =>
      obtain ⟨-, rfl⟩ := Prod.mk.inj (Result.ok.inj hact)
      simp
  | some c =>
    rw [Handler.receive_known hlookup] at hact
    cases hmsg with
    | rootUpdate hu =>
      obtain ⟨-, rfl⟩ := Prod.mk.inj (Result.ok.inj hact)
      simp
    | blockRequestResponse hres =>
      simp only [Result.bind_eq_ok, Result.pure_def, Result.ok.injEq, Prod.mk.injEq] at hact
      obtain ⟨h₁, -, -, rfl⟩ := hact
      simp
    | transferPayload hp =>
      obtain ⟨verified, h₁, -, ⟨-, -, rfl⟩ | ⟨-, hupdate⟩⟩ := Handler.transferPayload_ok hact
      · simp
      · obtain ⟨new, fs, -, -, -, rfl⟩ := Handler.applyUpdate_ok hupdate
        simp

end Sealing

theorem outstanding_named (hr : Receiver client root db out.transfers h) {rs : Ranges}
    (ho : h.outstanding client = .ok rs) : Named db out.transfers rs := by
  unfold Handler.outstanding at ho
  cases hc : h.clients.lookup client with
  | none =>
    simp only [hc, Result.pure_def, Result.ok.injEq] at ho
    subst ho
    simp [Named]
  | some c =>
    simp only [hc] at ho
    have hparts := allPartial_of_missingRanges ho
    rw [missingRanges_eq hparts, Result.ok.injEq] at ho
    subst ho
    intro r hmem
    obtain ⟨t, ht, hmem⟩ := List.mem_flatMap.mp hmem
    obtain ⟨p, hp⟩ := hparts t ht
    obtain ⟨f, hf, harrived⟩ := hr.parts _ p hp
    have hbetween := Handler.mem_missingGroups hmem
    rw [List.flatten_splitBy, availableOf, hp] at hbetween
    have hchunks := harrived.chunks
    simp only at hbetween
    refine ⟨missing_ascending.nonempty r hmem, fun x hlo hhi => ?_⟩
    exact ⟨_, (hr.busy c hc).listed t ht, f, hf, by simp only; omega, by simp only; omega⟩

end Server

/-! ## The client -/

/-- All bytes of all blocks. -/
def BlockDb.totalLen (db : BlockDb) : Nat :=
  db.blocks.keys.sum fun id => ((db.lookup id).map Block.len).getD 0

/-- How far the client is. `first` is the first chunk id. -/
structure Prepared (db : BlockDb) (first : Nat) (out : TransferOut) : Prop where
  todo : Named db out.transfers out.todo
  cursor : ∀ x, out.cursor = some x → InChunks db out.transfers x
  ids : out.transferCursor = first + (out.transfers.map fun t => t.2.1 - t.1).sum

/-- What the client needs to go on. -/
structure Ready (server : SocketAddr) (db : BlockDb) (first : Nat) (h : Handler) : Prop where
  loops : ∀ l ∈ h.transferLoops, l.1 = server
  known : ∀ c, h.clients.lookup server = some c → Prepared db first c.transferOut

section Client

variable {root : BlockRef} {db : BlockDb} {server : SocketAddr} {h h' : Handler} {c : Client}
  {sent : Sent} {out : TransferOut} {first : Nat}

theorem Ready.of_client {loops : List (SocketAddr × Nat)} (hloops : ∀ l ∈ loops, l.1 = server)
    (hp : Prepared db first c.transferOut) :
    Ready server db first { h.setClient server c with transferLoops := loops } := by
  refine ⟨hloops, fun c' hc' => ?_⟩
  obtain rfl := Option.some.inj (hc'.symm.trans Handler.setClient_lookup)
  exact hp

theorem BlockDb.sum_len_le (db : BlockDb) {ids : List BlockId} (hnodup : ids.Nodup)
    (hids : ∀ id ∈ ids, ∃ block, db.lookup id = some block) :
    (ids.map fun id => ((db.lookup id).map Block.len).getD 0).sum ≤ db.totalLen := by
  rw [← List.sum_toFinset _ hnodup]
  apply Finset.sum_le_sum_of_subset
  intro id hid
  rw [Finmap.mem_keys, ← Finmap.lookup_isSome]
  exact Option.isSome_iff_exists.mpr (hids id (List.mem_toFinset.mp hid))

theorem Prepared.ids_eq (hp : Prepared db first out) (hs : Serving db out) :
    out.transferCursor = first + ((out.transfers.map fun t => t.2.2).map
      fun id => ((db.lookup id).map Block.len).getD 0).sum := by
  rw [hp.ids, List.map_map]
  congr 2
  apply List.map_congr_left
  intro t ht
  obtain ⟨f, hf, hstop⟩ := hs.blocks t ht
  simp [hf, Block.len, hstop]

theorem Prepared.cursor_le (hp : Prepared db first out) (hs : Serving db out)
    (honce : out.transfers.Pairwise fun a b => a.2.2 ≠ b.2.2) :
    out.transferCursor ≤ first + db.totalLen := by
  rw [hp.ids_eq hs]
  apply Nat.add_le_add_left
  apply BlockDb.sum_len_le db (List.pairwise_map.mpr honce)
  intro id hid
  obtain ⟨t, ht, rfl⟩ := List.mem_map.mp hid
  obtain ⟨f, hf, -⟩ := hs.blocks t ht
  exact ⟨_, hf⟩

theorem Prepared.fits (hp : Prepared db first out) (hs : Serving db out)
    (honce : out.transfers.Pairwise fun a b => a.2.2 ≠ b.2.2) {id : BlockId} {block : Block}
    (hblock : db.lookup id = some block) (hnew : ∀ t ∈ out.transfers, t.2.2 ≠ id) :
    out.transferCursor + block.len ≤ first + db.totalLen := by
  have hnodup : (id :: out.transfers.map fun t => t.2.2).Nodup := by
    rw [List.nodup_cons]
    refine ⟨?_, List.pairwise_map.mpr honce⟩
    rw [List.mem_map]
    rintro ⟨t, ht, rfl⟩
    exact hnew t ht rfl
  have hle := BlockDb.sum_len_le db hnodup fun i hi => by
    rcases List.mem_cons.mp hi with rfl | hi
    · exact ⟨_, hblock⟩
    · obtain ⟨t, ht, rfl⟩ := List.mem_map.mp hi
      obtain ⟨f, hf, -⟩ := hs.blocks t ht
      exact ⟨_, hf⟩
  rw [List.map_cons, List.sum_cons, hblock, Option.map_some, Option.getD_some] at hle
  rw [hp.ids_eq hs]
  omega

theorem Prepared.allocate (hp : Prepared db first out) {id : BlockId} {t : Nat × Nat × BlockId}
    {out' : TransferOut} (ha : Handler.allocate out db id = .ok (t, out')) : Prepared db first out' := by
  obtain ⟨-, -, rfl⟩ | ⟨block, -, -, -, rfl, rfl⟩ := Handler.allocate_ok ha
  · exact hp
  · have hsub := List.subset_append_left out.transfers
      [(out.transferCursor, out.transferCursor + block.len, id)]
    refine ⟨hp.todo.mono hsub, fun x hx => (hp.cursor x hx).mono hsub, ?_⟩
    have hids := hp.ids
    simp only [List.map_append, List.map_cons, List.map_nil, List.sum_append, List.sum_cons, List.sum_nil]
    omega

end Client

end DasProtokoll.Scsync
