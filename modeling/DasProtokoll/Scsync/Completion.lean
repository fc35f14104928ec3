import DasProtokoll.Lib.Frontier
import DasProtokoll.Scsync.Fetch
import DasProtokoll.Scsync.FolderRoundTrip

/-!
# A session can be completed

Block by block the server gets the folder of the client, whichever of the blocks
that it waits for is next. With the last one, the folder is on its disk.
-/

namespace DasProtokoll.Scsync

open DasProtokoll Relation

section Sealing

variable [Sealing] {db sdb : BlockDb} {root : BlockRef} {has : BlockId → Full → Prop}

/-! ## References -/

theorem dirChild_toBlock {dir : Dir} {key : Key} {iv : Iv}
    (hheld : Holds db (toBlock dir key iv).id (toBlock dir key iv)) {m : Ref}
    (hm : DirChild db (.Directory, { blockid := (toBlock dir key iv).id, key, hints := [] }) m) :
    ∃ child ∈ dir.children, m = (child.type, child.blockref) :=
  (dirChild_iff (r := { blockid := (toBlock dir key iv).id, key, hints := [] }) hheld
    (fromFull_toBlock dir key iv)).mp hm

theorem sealForest_refs {rand : Nat → Key × Iv} {n : Nat} {F : Forest}
    (hheld : ∀ f ∈ (sealForest rand n F).2, Holds db f.id f) :
    ∃ refs : List Ref, (refs.map fun r => r.2.blockid) = (sealForest rand n F).2.map Full.id ∧
      (∀ c ∈ (sealForest rand n F).1, (c.type, c.blockref) ∈ refs) ∧
      ∀ r ∈ refs, ∀ m, DirChild db r m → m ∈ refs := by
  induction F generalizing n with
  | nil => exact ⟨[], rfl, by simp [sealForest], by simp⟩
  | file name content rest ih =>
    simp only [sealForest, List.forall_mem_cons] at hheld ⊢
    obtain ⟨refs, hids, hchildren, hclosed⟩ := ih hheld.2
    refine ⟨(.Leaf, _) :: refs, ?_,
      ⟨List.mem_cons_self, fun c hc => List.mem_cons_of_mem _ (hchildren c hc)⟩, ?_⟩
    · rw [List.map_cons, List.map_cons, hids]
    · rw [List.forall_mem_cons]
      exact ⟨fun m hm => absurd hm.1 (by simp), fun r hr m hm => List.mem_cons_of_mem _ (hclosed r hr m hm)⟩
  | dir name entries rest ihe ih =>
    simp only [sealForest, List.forall_mem_append, List.forall_mem_cons] at hheld ⊢
    obtain ⟨hbelow, hself, hafter⟩ := hheld
    obtain ⟨refs, hids, hchildren, hclosed⟩ := ihe hbelow
    obtain ⟨refs', hids', hchildren', hclosed'⟩ := ih hafter
    refine ⟨refs ++ (.Directory, _) :: refs', ?_, ⟨List.mem_append_right _ List.mem_cons_self,
      fun c hc => List.mem_append_right _ (List.mem_cons_of_mem _ (hchildren' c hc))⟩, ?_⟩
    · rw [List.map_append, List.map_cons, List.map_append, List.map_cons, hids, hids']
    · intro r hr m hm
      rcases List.mem_append.mp hr with hr | hr
      · exact List.mem_append_left _ (hclosed r hr m hm)
      · rcases List.mem_cons.mp hr with rfl | hr
        · obtain ⟨child, hchild, rfl⟩ := dirChild_toBlock hself hm
          exact List.mem_append_left _ (hchildren child hchild)
        · exact List.mem_append_right _ (List.mem_cons_of_mem _ (hclosed' r hr m hm))

theorem folderBlocks_unique {rand : Nat → Key × Iv} {folder : PathBuf} {F : Forest} (hF : F.WellFormed)
    {blocks : List Full} (h : folderBlocks rand folder F = .ok (root, blocks))
    (hids : (blocks.map Full.id).Nodup) (hheld : ∀ f ∈ blocks, Holds db f.id f) {n m : Ref}
    (hn : DirReaches db (.Directory, root) n) (hm : DirReaches db (.Directory, root) m)
    (hid : n.2.blockid = m.2.blockid) : n = m := by
  obtain ⟨hroot, rfl⟩ := folderBlocks_ok hF h
  rw [List.forall_mem_append, List.forall_mem_singleton] at hheld
  obtain ⟨hbelow, hself⟩ := hheld
  obtain ⟨refs, hrefs, hchildren, hclosed⟩ := sealForest_refs hbelow
  have hall {r : Ref} (hr : DirReaches db (.Directory, root) r) : r ∈ refs ++ [(.Directory, root)] := by
    induction hr with
    | refl => simp
    | tail _ hstep ih =>
      apply List.mem_append_left
      rcases List.mem_append.mp ih with hr | hr
      · exact hclosed _ hr _ hstep
      · rw [List.mem_singleton.mp hr, hroot] at hstep
        obtain ⟨child, hchild, rfl⟩ := dirChild_toBlock hself hstep
        exact hchildren child hchild
  refine List.inj_on_of_nodup_map (f := fun r : Ref => r.2.blockid) ?_ (hall hn) (hall hm) hid
  rw [List.map_append, hrefs, List.map_singleton, hroot]
  rwa [List.map_append, List.map_singleton] at hids

/-! ## Blocks that are there in part -/

theorem Represents.decodes {children : List Child} {F : Forest} (hr : Represents has children F)
    (hagree : Agrees sdb has) : ∀ c ∈ children, Decodes sdb c.type c.blockref := by
  induction hr using Represents.induction with
  | nil => simp
  | file c children name content rest f hname htype hf hleaf _ ih =>
    rw [List.forall_mem_cons]
    refine ⟨?_, ih⟩
    by_cases hfull : IsFull sdb (c.type, c.blockref)
    · obtain ⟨g, hg⟩ := hfull
      have hleaf' : Leaf.fromFull g c.blockref.key = some { data := content } := by
        rwa [Leaf.fromFull, fromFull_congr (hagree _ f g hf hg), ← Leaf.fromFull]
      rw [htype]
      exact .leaf hg hleaf'
    · exact .absent hfull
  | dir c children name entries rest f d hname htype hf hdir _ _ ihe ih =>
    rw [List.forall_mem_cons]
    refine ⟨?_, ih⟩
    by_cases hfull : IsFull sdb (c.type, c.blockref)
    · obtain ⟨g, hg⟩ := hfull
      rw [htype]
      refine .directory hg ?_ ihe
      rwa [Dir.fromFull, fromFull_congr (hagree _ f g hf hg), ← Dir.fromFull]
    · exact .absent hfull

theorem RootRepresents.decodes {F : Forest} (hr : RootRepresents has root F) (hagree : Agrees sdb has) :
    Decodes sdb .Directory root := by
  obtain ⟨f, dir, hf, hdir, hreps⟩ := hr
  by_cases hfull : IsFull sdb (.Directory, root)
  · obtain ⟨g, hg⟩ := hfull
    refine .directory hg ?_ (hreps.decodes hagree)
    rwa [Dir.fromFull, fromFull_congr (hagree _ f g hf hg), ← Dir.fromFull]
  · exact .absent hfull

theorem Represents.noMeta {children : List Child} {F : Forest} (hr : Represents (Holds db) children F) :
    ∀ c ∈ children, ∀ n, DirReaches db (c.type, c.blockref) n → n.1 ≠ .FileMeta := by
  induction hr using Represents.induction with
  | nil => simp
  | file c children name content rest f hname htype hf hleaf _ ih =>
    rw [List.forall_mem_cons]
    refine ⟨fun n hn => ?_, ih⟩
    rcases hn.cases_head with rfl | ⟨m, hm, -⟩
    · simp [htype]
    · exact absurd (htype.symm.trans hm.1) (by simp)
  | dir c children name entries rest f d hname htype hf hdir _ _ ihe ih =>
    rw [List.forall_mem_cons]
    refine ⟨fun n hn => ?_, ih⟩
    rw [htype] at hn
    rcases hn.cases_head with rfl | ⟨m, hm, hn⟩
    · simp
    · obtain ⟨child, hchild, rfl⟩ := (dirChild_iff hf hdir).mp hm
      exact ihe child hchild n hn

theorem RootRepresents.noMeta {F : Forest} (hr : RootRepresents (Holds db) root F) {n : Ref}
    (hn : DirReaches db (.Directory, root) n) : n.1 ≠ .FileMeta := by
  obtain ⟨f, dir, hf, hdir, hreps⟩ := hr
  rcases hn.cases_head with rfl | ⟨m, hm, hn⟩
  · simp
  · obtain ⟨child, hchild, rfl⟩ := (dirChild_iff hf hdir).mp hm
    exact hreps.noMeta child hchild n hn

theorem DirReaches.root_full {n : Ref} (hn : DirReaches sdb (.Directory, root) n) (hfull : IsFull sdb n) :
    IsFull sdb (.Directory, root) := by
  rcases hn.cases_head with rfl | ⟨m, ⟨-, f, -, hf, -⟩, -⟩
  · exact hfull
  · exact ⟨f, hf⟩

theorem resolve_total (hp : sdb.pendingRoot = some root) (hkeyed : Keyed sdb)
    (hdecodes : Decodes sdb .Directory root) {n : Ref} (hn : DirReaches sdb (.Directory, root) n)
    (hfull : IsFull sdb n) :
    ∃ fuel₀, ∀ fuel ≥ fuel₀, ∃ dec, resolve sdb fuel n.2.blockid true = .ok dec := by
  have hroot := hn.root_full hfull
  by_cases hid : n.2.blockid = root.blockid
  · obtain ⟨f, hf⟩ := hroot
    obtain ⟨dec, hdec⟩ := hdecodes.decodeAs hf
    obtain ⟨dir, hdir, rfl⟩ := Option.map_eq_some_iff.mp hdec
    have hfid : f.id = n.2.blockid := (hkeyed _ _ hf).trans hid.symm
    refine ⟨0, fun fuel _ => ⟨.Dir dir, ?_⟩⟩
    simp only [resolve, BlockDb.rootRef, if_true, hp, Result.unwrap_some, Result.bind_ok,
      traverse_of_full hf hdir]
    rw [show Call.Dir rootPath f dir = .ofDecoded rootPath f (.Dir dir) from rfl, resolveBlockVisitor_call,
      if_pos hfid, proceed_some rfl]
    rfl
  · obtain ⟨fuel₀, h₀⟩ := resolve_eq hp hkeyed hdecodes hroot hid
    refine ⟨fuel₀, fun fuel hfuel => ?_⟩
    obtain ⟨t, ht, hout⟩ := h₀ fuel hfuel
    cases t with
    | none => exact absurd rfl (hout n hn hfull)
    | some dec => exact ⟨dec, ht⟩

/-! ## One block more -/

theorem DirReaches.set {id : BlockId} {block : Block} {r n : Ref} (hnone : sdb.lookup id = none)
    (hn : DirReaches sdb r n) : DirReaches (sdb.set id block) r n := by
  refine ReflTransGen.mono ?_ _ _ hn
  rintro a b ⟨htype, f, dir, hf, hrest⟩
  refine ⟨htype, f, dir, ?_, hrest⟩
  rw [BlockDb.lookup_set_ne, hf]
  rintro heq
  rw [heq, hnone] at hf
  cases hf

/-- Those blocks of the client that the server has nothing of. -/
def remaining (db sdb : BlockDb) : Finset BlockId := db.blocks.keys.filter fun id => sdb.lookup id = none

omit [Sealing] in
theorem remaining_set {id : BlockId} {f : Full} {block : Block} (hf : Holds db id f)
    (hnone : sdb.lookup id = none) :
    (remaining db (sdb.set id block)).card < (remaining db sdb).card := by
  have hkey : id ∈ db.blocks.keys := by
    rw [Finmap.mem_keys, ← Finmap.lookup_isSome]
    exact Option.isSome_iff_exists.mpr ⟨_, hf⟩
  apply Finset.card_lt_card
  rw [Finset.ssubset_iff_of_subset]
  · refine ⟨id, Finset.mem_filter.mpr ⟨hkey, hnone⟩, fun hmem => ?_⟩
    have := (Finset.mem_filter.mp hmem).2
    rw [BlockDb.lookup_set_self] at this
    cases this
  · intro i hi
    obtain ⟨hi, hlookup⟩ := Finset.mem_filter.mp hi
    refine Finset.mem_filter.mpr ⟨hi, ?_⟩
    by_cases hid : i = id
    · exact hid ▸ hnone
    · rwa [BlockDb.lookup_set_ne hid] at hlookup

/-- The ids of full blocks. -/
def heldIds (db : BlockDb) : Set BlockId := { id | ∃ f, db.lookup id = some (.Full f) }

/-- What is left to do when the server has the blocks `sdb`, all of them in full. -/
structure Pending (root : BlockRef) (db sdb : BlockDb) (waiting : Finset BlockId) : Prop where
  pendingRoot : sdb.pendingRoot = some root
  keyed : Keyed sdb
  agrees : Agrees sdb (Holds db)
  full : ∀ id p, sdb.lookup id ≠ some (.Partial p)
  frontier : Frontier (DirChild db) (fun n => n.2.blockid) (.Directory, root) (heldIds sdb) waiting
  absent : ∀ id ∈ waiting, sdb.lookup id = none ∧
    ∃ n, DirReaches sdb (.Directory, root) n ∧ n.2.blockid = id

variable {first : Nat} {F : Forest} {waiting : Finset BlockId} {id : BlockId} {f g : Full} {dec : Decoded}

theorem Pending.fetched (hp : Pending root db sdb waiting) (hf : Holds db id f) (hgid : g.id = id)
    (hdata : g.data = f.data) :
    (sdb.set id (.Full g)).pendingRoot = some root ∧ Keyed (sdb.set id (.Full g)) ∧
      Agrees (sdb.set id (.Full g)) (Holds db) ∧
      ∀ i p, (sdb.set id (.Full g)).lookup i ≠ some (.Partial p) := by
  refine ⟨hp.pendingRoot, Handler.keyed_set hp.keyed hgid, ?_, ?_⟩
  · intro i f' g' hf' hg'
    by_cases hi : i = id
    · subst hi
      obtain rfl := BlockDb.full_unique hf hf'
      obtain rfl := BlockDb.full_unique BlockDb.lookup_set_self hg'
      exact hdata
    · rw [BlockDb.lookup_set_ne hi] at hg'
      exact hp.agrees i f' g' hf' hg'
  · intro i p hi
    by_cases hid : i = id
    · subst hid
      rw [BlockDb.lookup_set_self] at hi
      cases hi
    · rw [BlockDb.lookup_set_ne hid] at hi
      exact hp.full i p hi

omit [Sealing] in
theorem heldIds_set {block : Full} {i : BlockId} :
    i ∈ heldIds (sdb.set id (.Full block)) ↔ i = id ∨ i ∈ heldIds sdb := by
  by_cases hi : i = id
  · subst hi
    simp [heldIds]
  · simp [heldIds, hi, BlockDb.lookup_set_ne hi]

theorem dirChild_blockrefs (id : BlockId) {n : Ref} (hmeta : n.1 ≠ .FileMeta) {block : Full}
    (hblock : sdb.lookup n.2.blockid = some (.Full block)) (hdec : decodeAs n.1 block n.2.key = some dec) :
    (∃ m, DirChild sdb n m ∧ m.2.blockid = id) ↔ ∃ r ∈ Handler.blockrefs dec, r.blockid = id := by
  obtain ⟨type, r⟩ := n
  cases type with
  | Directory =>
    obtain ⟨dir, hdir, rfl⟩ := Option.map_eq_some_iff.mp hdec
    simp only [dirChild_iff hblock hdir, Handler.blockrefs, List.mem_map]
    constructor
    · rintro ⟨m, ⟨child, hchild, rfl⟩, rfl⟩
      exact ⟨_, ⟨child, hchild, rfl⟩, rfl⟩
    · rintro ⟨_, ⟨child, hchild, rfl⟩, rfl⟩
      exact ⟨_, ⟨child, hchild, rfl⟩, rfl⟩
  | FileMeta => exact absurd rfl hmeta
  | Leaf =>
    obtain ⟨leaf, -, rfl⟩ := Option.map_eq_some_iff.mp hdec
    constructor
    · rintro ⟨m, hm, -⟩
      exact absurd hm.1 (by simp)
    · rintro ⟨r, hr, -⟩
      cases hr

theorem DirChild.agree {n m : Ref} (hagree : Agrees sdb (Holds db)) (hfull : IsFull sdb n)
    (h : DirChild db n m) : DirChild sdb n m := by
  obtain ⟨htype, f, dir, hf, hdir, hchild⟩ := h
  obtain ⟨g, hg⟩ := hfull
  refine ⟨htype, g, dir, hg, ?_, hchild⟩
  rwa [Dir.fromFull, fromFull_congr (hagree _ f g hf hg), ← Dir.fromFull]

/-- What the new block leads to is there or waits, so that nothing is forgotten. -/
theorem Pending.fetch (hp : Pending root db sdb waiting) (src : Source root db first F) (hid : id ∈ waiting)
    (hf : Holds db id f) (hgid : g.id = id) (hdata : g.data = f.data) {fuel : Nat}
    (hdec : resolve (sdb.set id (.Full g)) fuel id true = .ok dec) :
    Pending root db (sdb.set id (.Full g))
      (Handler.missingRefs (sdb.set id (.Full g)) (Handler.blockrefs dec) ∪ waiting.erase id) := by
  obtain ⟨hroot, hkeyed, hagree, hfull⟩ := hp.fetched hf hgid hdata
  obtain ⟨n, hn, hnid, block, hblock, hdecode⟩ := resolve_sound hkeyed hroot hdec
  have hall := src.represents.allFull
  have hndb := hn.agree hall hagree
  have hblock' : (sdb.set id (.Full g)).lookup n.2.blockid = some (.Full block) := hnid ▸ hblock
  have hrefs (i : BlockId) := dirChild_blockrefs i (src.represents.noMeta hndb) hblock' hdecode
  refine ⟨hroot, hkeyed, hagree, hfull, ?_, ?_⟩
  · refine hp.frontier.fetch (x := n) ?_ ?_ ?_ ?_
    · exact fun m hm hmid => src.unique m n hm hndb hmid
    · intro i
      rw [hnid]
      exact heldIds_set
    · intro i hi hne
      rw [hnid] at hne
      simp [hne, Finset.mem_coe.mp hi]
    · intro m hm
      have hchild := (hrefs m.2.blockid).mp ⟨m, hm.agree hagree ⟨block, hblock'⟩, rfl⟩
      cases hlookup : (sdb.set id (.Full g)).lookup m.2.blockid with
      | none =>
        exact Or.inr (Finset.mem_coe.mpr (Finset.mem_union_left _
          (Handler.mem_missingRefs.mpr ⟨hlookup, hchild⟩)))
      | some b =>
        cases b with
        | Full f' => exact Or.inl ⟨f', hlookup⟩
        | Partial p => exact absurd hlookup (hfull _ p)
  · intro i hi
    rcases Finset.mem_union.mp hi with hi | hi
    · obtain ⟨hlookup, hchild⟩ := Handler.mem_missingRefs.mp hi
      obtain ⟨m, hm, hmid⟩ := (hrefs i).mpr hchild
      exact ⟨hlookup, m, hn.tail hm, hmid⟩
    · obtain ⟨hne, hi⟩ := Finset.mem_erase.mp hi
      obtain ⟨hlookup, m, hm, hmid⟩ := hp.absent i hi
      obtain ⟨hnone, -⟩ := hp.absent id hid
      exact ⟨(BlockDb.lookup_set_ne hne).trans hlookup, m, hm.set hnone, hmid⟩

theorem Pending.dirFull (hp : Pending root db sdb ∅) (src : Source root db first F) :
    DirFull sdb (.Directory, root) := by
  intro n hn
  have hfrontier : Frontier (DirChild db) (fun n => n.2.blockid) (.Directory, root) (heldIds sdb) ∅ := by
    have := hp.frontier
    rwa [Finset.coe_empty] at this
  exact hfrontier.complete (hn.agree src.represents.allFull hp.agrees)

theorem Pending.resolves (hp : Pending root db sdb waiting) (src : Source root db first F)
    (hid : id ∈ waiting) (hf : Holds db id f) (hgid : g.id = id) (hdata : g.data = f.data) :
    ∃ fuel dec verified, resolve (sdb.set id (.Full g)) fuel id true = .ok dec ∧
      verify (sdb.set id (.Full g)) fuel true = .ok verified ∧
      (verified = true ↔ DirFull (sdb.set id (.Full g)) (.Directory, root)) := by
  obtain ⟨hroot, hkeyed, hagree, -⟩ := hp.fetched hf hgid hdata
  obtain ⟨hnone, n, hn, rfl⟩ := hp.absent id hid
  have hreach : DirReaches (sdb.set n.2.blockid (.Full g)) _ n := hn.set hnone
  have hfull : IsFull (sdb.set n.2.blockid (.Full g)) n := ⟨g, BlockDb.lookup_set_self⟩
  have hdecodes := src.represents.decodes hagree
  obtain ⟨fuel₀, h₀⟩ := resolve_total hroot hkeyed hdecodes hreach hfull
  obtain ⟨fuel₁, h₁⟩ := verify_eq hroot hdecodes (hreach.root_full hfull)
  obtain ⟨dec, hdec⟩ := h₀ (max fuel₀ fuel₁) (le_max_left _ _)
  obtain ⟨verified, hverify, hiff⟩ := h₁ (max fuel₀ fuel₁) (le_max_right _ _)
  exact ⟨_, dec, verified, hdec, hverify, hiff⟩

/-! ## The session -/

section Serde

variable [Serde] {addrs : Addresses} {s s' : System} {o h : Handler} {c : Client}

/-- Between two blocks. The server waits for some, and nothing is on its way that counts. -/
structure Idle (addrs : Addresses) (root : BlockRef) (db : BlockDb) (first : Nat) (o : Handler)
    (waiting : Finset BlockId) (s : System) : Prop where
  client : ∃ c, Conversation addrs root db first s c ∧ c.transferOut.cursor = none
  loops : s.client.transferLoops = []
  server : ∃ k, s.server.clients.lookup addrs.client = some k ∧ k.transferIn.transfers = [] ∧
    k.pendingBlockRequests = waiting
  pending : Pending root db s.server.blockdb waiting
  folder : s.server.folder = o.folder
  fs : s.server.fs = o.fs

/-- The server has the root, its folder has the tree, and the client is no longer known. -/
structure Installed (addrs : Addresses) (root : BlockRef) (F : Forest) (o : Handler) (s : System) : Prop where
  root : s.server.blockdb.root = root
  pendingRoot : s.server.blockdb.pendingRoot = none
  client : s.server.clients.lookup addrs.client = none
  tree : ∀ path, s.server.fs.node (o.folder.resolve o.fs.cwd ++ path) = F.lookup path

omit [Sealing] in
theorem post_rootUpdateResponse (hcompact : Serde.Compact) (res : RootUpdateResponse) (addr : SocketAddr)
    (keys : List SocketAddr) :
    ∃ datagrams, post 0 addr (keys.map fun key => (.RootUpdateResponse res, key)) = .ok datagrams := by
  have hencode : MyCodec.encode 0 (.RootUpdateResponse res) = .ok _ :=
    MyCodec.putWriter_total (hcompact.rootUpdateResponse res)
  induction keys with
  | nil => exact ⟨[], rfl⟩
  | cons key keys ih =>
    obtain ⟨datagrams, hpost⟩ := ih
    simp only [List.map_cons, post, hencode, hpost, Result.bind_ok, Result.pure_def]
    exact ⟨_, rfl⟩

omit [Serde] in
theorem applyUpdate_total (src : Source root db first F) (hF : F.WellFormed) (hutf8 : F.Utf8) {fs₁ : FileSystem}
    (hclear : h.fs.execAll [.removeDirAll h.folder, .createDir h.folder] = some fs₁)
    (hp : h.blockdb.pendingRoot = some root) (hagree : Agrees h.blockdb (Holds db)) {fuel : Nat}
    (hverify : verify h.blockdb fuel true = .ok true) (addr : SocketAddr) :
    ∃ fs res, h.applyUpdate fuel addr = .ok ({ h with
        blockdb := { h.blockdb with root, pendingRoot := none }
        fs
        clients := h.clients.erase addr },
        h.clients.keys.map fun key => (.RootUpdateResponse res, key)) ∧
      ∀ path, fs.node (h.folder.resolve h.fs.cwd ++ path) = F.lookup path := by
  obtain ⟨hreps, hdepth⟩ := verify_represents hp src.represents hagree hverify
  have hreps' : RootRepresents (Holds { h.blockdb with root, pendingRoot := none }) root F := hreps
  obtain ⟨fs, hrun, htree⟩ := writeToDir_total hF hutf8 hreps' hdepth hclear
  refine ⟨fs, {
    fromBlockid := h.blockdb.root.blockid
    toBlockid := root.blockid
    toKey := root.key }, ?_, htree⟩
  simp only [Handler.applyUpdate, BlockDb.applyPending, hp, Result.unwrap_some, Result.bind_ok, Result.pure_def,
    hrun]

theorem Idle.next (hcompact : Serde.Compact) (src : Source root db first F) (hF : F.WellFormed)
    (hutf8 : F.Utf8) {fs₁ : FileSystem}
    (hclear : o.fs.execAll [.removeDirAll o.folder, .createDir o.folder] = some fs₁)
    (hidle : Idle addrs root db first o waiting s) (hid : id ∈ waiting) :
    ∃ s', Reachable (System.Step addrs) s s' ∧ (Installed addrs root F o s' ∨
      ∃ waiting', waiting'.Nonempty ∧ Idle addrs root db first o waiting' s' ∧
        (remaining db s'.server.blockdb).card < (remaining db s.server.blockdb).card) := by
  obtain ⟨⟨c, hv, hcursor⟩, hloops, ⟨k, hk, hfree, rfl⟩, hp, hfolder, hfs⟩ := hidle
  obtain ⟨f, hf⟩ := hv.asks.pending k hk id hid
  obtain ⟨hnone, -⟩ := hp.absent id hid
  obtain ⟨s₁, t, pre, d, hreach, rfl, hstop, hpos, hs, hinbox, hd, hloops₁, c₁, hc₁, hcursor₁⟩ :=
    System.fetch hcompact src hv hcursor hloops hk hfree hid hnone hf rfl
  have hsession {u : System} (hu : Reachable (System.Step addrs) s u) :=
    hv.reachable hcompact src.isRoot src.complete src.represents.allFull src.size.le hu
  obtain ⟨c₁', hv₁⟩ := hsession hreach
  obtain rfl := hv₁.known hc₁
  obtain ⟨k₁, p, g, haccepts, hwhole, hcompleted, hgid, hdata, hwaiting, htransfers⟩ :=
    hs.last (hv₁.arrived hf) rfl hstop hpos
  generalize chunkOf f t.start (numChunks f.data.length - 1) = chunk at *
  obtain ⟨fuel, dec, verified, hdec, hverify, hiff⟩ := hp.resolves src hid hf hgid hdata
  have hnext := hp.fetch src hid hf hgid hdata hdec
  obtain ⟨h, hrecv, hdb, ⟨k₂, hk₂, hfree₂, hwaiting₂⟩, hfolder₂, hfs₂⟩ : ∃ h : Handler,
      s₁.server.receiveChunk fuel addrs.client chunk = .ok (verified, h) ∧
      h.blockdb = s.server.blockdb.set t.blockid (.Full g) ∧
      (∃ k₂, h.clients.lookup addrs.client = some k₂ ∧ k₂.transferIn.transfers = [] ∧
        k₂.pendingBlockRequests = Handler.missingRefs (s.server.blockdb.set t.blockid (.Full g))
          (Handler.blockrefs dec) ∪ k.pendingBlockRequests.erase t.blockid) ∧
      h.folder = o.folder ∧ h.fs = o.fs := by
    refine ⟨s₁.server.withBlock addrs.client k₁ t p chunk dec, ?_, hcompleted,
      ⟨_, Handler.setClient_lookup, ?_, ?_⟩, hs.folder.trans hfolder, hs.fs.trans hfs⟩
    · rw [Handler.receiveChunk_whole haccepts hwhole, hcompleted, hdec, Result.bind_ok, hverify]
      rfl
    · simp [htransfers]
    · rw [hcompleted, hwaiting]
  have hdeliver {h' : Handler} {sent : Sent} {datagrams : List Bytes}
      (hact : s₁.server.transferPayload fuel addrs.client chunk = .ok (h', sent))
      (hpost : post 0 addrs.client sent = .ok datagrams) :
      Reachable (System.Step addrs) s { s₁ with server := h', toClient := s₁.toClient ++ datagrams } :=
    hreach.snoc (System.server_step le_rfl ((Handler.act_deliver .server s₁.now fuel hinbox hd).trans
      ((Handler.receive_known haccepts.known).trans hact)) hpost)
  cases verified with
  | false =>
    have hact : s₁.server.transferPayload fuel addrs.client chunk = .ok (h, []) := by
      rw [Handler.transferPayload, hrecv]
      rfl
    have hreach' := hdeliver hact rfl
    obtain ⟨c₂, hv₂⟩ := hsession hreach'
    obtain rfl := hv₂.known hc₁
    refine ⟨_, hreach', Or.inr ⟨_, ?_, ⟨⟨_, hv₂, hcursor₁⟩, hloops₁, ⟨k₂, hk₂, hfree₂, hwaiting₂⟩, ?_,
      hfolder₂, hfs₂⟩, ?_⟩⟩
    · rw [Finset.nonempty_iff_ne_empty]
      intro hempty
      rw [hempty] at hnext
      exact absurd (hiff.mpr (hnext.dirFull src)) (by simp)
    · exact hdb.symm ▸ hnext
    · exact hdb.symm ▸ remaining_set hf hnone
  | true =>
    have hverify' : verify h.blockdb fuel true = .ok true := hdb.symm ▸ hverify
    have hnext' : Pending root db h.blockdb _ := hdb.symm ▸ hnext
    rw [← hfolder₂, ← hfs₂] at hclear
    obtain ⟨fs, res, hupdate, htree⟩ := applyUpdate_total src hF hutf8 hclear hnext'.pendingRoot
      hnext'.agrees hverify' addrs.client
    obtain ⟨datagrams, hpost⟩ := post_rootUpdateResponse hcompact res addrs.client h.clients.keys
    have hact : s₁.server.transferPayload fuel addrs.client chunk = h.applyUpdate fuel addrs.client := by
      rw [Handler.transferPayload, hrecv]
      rfl
    refine ⟨_, hdeliver (hact.trans hupdate) hpost, Or.inl ⟨rfl, rfl, AList.lookup_erase _ _, ?_⟩⟩
    rw [← hfolder₂, ← hfs₂]
    exact htree

/-- The blocks that are missing get fewer until none is. -/
theorem Idle.completes (hcompact : Serde.Compact) (src : Source root db first F) (hF : F.WellFormed)
    (hutf8 : F.Utf8) {fs₁ : FileSystem}
    (hclear : o.fs.execAll [.removeDirAll o.folder, .createDir o.folder] = some fs₁)
    (hidle : Idle addrs root db first o waiting s) (hne : waiting.Nonempty) :
    ∃ s', Reachable (System.Step addrs) s s' ∧ Installed addrs root F o s' := by
  induction hm : (remaining db s.server.blockdb).card using Nat.strongRecOn generalizing s waiting with
  | ind m ih =>
    obtain ⟨id, hid⟩ := hne
    obtain ⟨s₁, hreach₁, hdone | ⟨waiting', hne', hidle', hless⟩⟩ :=
      hidle.next hcompact src hF hutf8 hclear hid
    · exact ⟨s₁, hreach₁, hdone⟩
    · obtain ⟨s', hreach', hdone⟩ := ih _ (hm ▸ hless) hidle' hne' rfl
      exact ⟨s', hreach₁.trans hreach', hdone⟩

variable {client server : Opt} {rand : UInt32} {nonce : Vector UInt8 12} {capacity : Nat} {s₀ : System}

theorem start_client (hstart : System.start addrs client server rand nonce capacity = .ok s₀) :
    ∃ root d update, folderBlocks client.rand client.files client.tree = .ok (root, client.blocks) ∧
      s₀.client.clients.lookup addrs.server = some (.default rand) ∧ s₀.client.transferLoops = [] ∧
      s₀.toServer = [d] ∧ MyCodec.decode d = .ok (some (.RootUpdate update)) ∧ update.toBlockref = root := by
  obtain ⟨root, root', datagrams, hblocks, hpost, rfl⟩ := start_ok hstart
  simp only [post, Result.bind_eq_ok, Result.pure_def, Result.ok.injEq, if_true] at hpost
  obtain ⟨d, hencode, _, rfl, rfl⟩ := hpost
  exact ⟨root, d, _, hblocks, Handler.setClient_lookup, rfl, rfl,
    MyCodec.decode_encode (by trivial) hencode, rfl⟩

theorem start_server (hstart : System.start addrs client server rand nonce capacity = .ok s₀) :
    ∃ root, folderBlocks server.rand server.files server.tree = .ok (root, server.blocks) ∧
      s₀.server = Handler.new server.files server.packetDelay
        (BlockDb.new root (insertAll server.blocks)) server.fs := by
  simp only [System.start, Result.bind_eq_ok, Result.pure_def, Result.ok.injEq] at hstart
  obtain ⟨_, -, h, hserver, _, -, rfl⟩ := hstart
  obtain ⟨root, hblocks, rfl⟩ := handler_ok hserver
  exact ⟨root, hblocks, rfl⟩

omit [Serde] in
theorem folderBlocks_root {rand : Nat → Key × Iv} {folder : PathBuf} (hF : F.WellFormed) {blocks : List Full}
    (h : folderBlocks rand folder F = .ok (root, blocks)) : root.blockid ∈ blocks.map Full.id := by
  obtain ⟨rfl, rfl⟩ := folderBlocks_ok hF h
  simp

omit [Serde] in
theorem Source.start (htree : client.tree.WellFormed)
    (hblocks : folderBlocks client.rand client.files client.tree = .ok (root, client.blocks))
    (hids : (client.blocks.map Full.id).Nodup) (hdata : ∀ f ∈ client.blocks, f.data ≠ [])
    (hsize : first + (BlockDb.new root (insertAll client.blocks)).totalLen < 2 ^ 63) :
    Source root (BlockDb.new root (insertAll client.blocks)) first client.tree where
  isRoot := rfl
  complete := insertAll_complete root client.blocks
  represents := folderBlocks_represents htree hblocks (noCollision_of_nodup hids)
  size := hsize
  nonempty id f hf := by
    obtain ⟨f', hmem, -, heq⟩ := insertAll_lookup hf
    obtain rfl := Block.Full.inj heq
    exact hdata f hmem
  unique n m hn hm hid := by
    have hheld : ∀ f ∈ client.blocks, Holds (BlockDb.new root (insertAll client.blocks)) f.id f :=
      fun f hf => lookup_insertAll (noCollision_of_nodup hids) hf
    exact folderBlocks_unique htree hblocks hids hheld hn hm hid

omit [Serde] [Sealing] in
theorem unconnectedRootUpdate_new {addr : SocketAddr} {update : RootUpdate}
    (hroot : update.toBlockref.blockid ≠ h.blockdb.root.blockid) (hp : h.blockdb.pendingRoot = none) :
    h.unconnectedRootUpdate addr update 0 =
      ({ h with blockdb := h.blockdb.setPendingRoot update.toBlockref }.setClient addr
        ((Client.default 0).sendBlockRequest { blockid := update.toBlockref.blockid }), []) := by
  simp [Handler.unconnectedRootUpdate, hroot, hp]

omit [Serde] in
theorem Pending.start {server : BlockDb} (hkeyed : Keyed server) (hagree : Agrees server (Holds db))
    (hcomplete : Complete server) (hall : AllFull db (.Directory, root))
    (hdisjoint : ∀ id f g, Holds db id f → server.lookup id ≠ some (.Full g)) :
    Pending root db (server.setPendingRoot root) {root.blockid} where
  pendingRoot := rfl
  keyed := hkeyed
  agrees := hagree
  full id p hp := by
    obtain ⟨f, hf⟩ := hcomplete id _ hp
    cases hf
  frontier := by
    rw [Finset.coe_singleton]
    refine Frontier.start fun n hn hheld => ?_
    obtain ⟨f, hf⟩ := hall n (ReflTransGen.mono (fun _ _ => Or.inl) _ _ hn)
    obtain ⟨g, hg⟩ := hheld
    exact hdisjoint _ f g hf hg
  absent id hid := by
    obtain rfl := Finset.mem_singleton.mp hid
    refine ⟨?_, _, .refl, rfl⟩
    obtain ⟨f, hf⟩ := hall _ .refl
    cases hlookup : server.lookup root.blockid with
    | none => exact hlookup
    | some b =>
      obtain ⟨g, rfl⟩ := hcomplete _ _ hlookup
      exact absurd hlookup (hdisjoint _ f g hf)

theorem Idle.start (hcompact : Serde.Compact) (htree : client.tree.WellFormed)
    (hserver : server.tree.WellFormed) (hids : ((client.blocks ++ server.blocks).map Full.id).Nodup)
    (hdata : ∀ f ∈ client.blocks, f.data ≠ [])
    (hstart : System.start addrs client server rand nonce capacity = .ok s₀)
    (hsize : rand.toNat + s₀.client.blockdb.totalLen < 2 ^ 63) :
    ∃ s, Reachable (System.Step addrs) s₀ s ∧
      Source s₀.client.blockdb.root s₀.client.blockdb rand.toNat client.tree ∧
      Idle addrs s₀.client.blockdb.root s₀.client.blockdb rand.toNat s₀.server
        {s₀.client.blockdb.root.blockid} s := by
  obtain ⟨root, c, hblocks, hdb, hreps, hv⟩ := Conversation.start htree (noCollision_of_nodup hids) hstart
  obtain ⟨root₁, d, update, hblocks₁, hc, hloops, htoServer, hd, hupdate⟩ := start_client hstart
  obtain ⟨rfl, -⟩ := Prod.mk.inj (Result.ok.inj (hblocks.symm.trans hblocks₁))
  obtain ⟨root', hblocks', hnode⟩ := start_server hstart
  rw [List.map_append, List.nodup_append] at hids
  obtain ⟨hids, -, hdisjoint⟩ := hids
  rw [hdb] at hsize ⊢
  have src := Source.start htree hblocks hids hdata hsize
  have hnew : update.toBlockref.blockid ≠ s₀.server.blockdb.root.blockid := by
    rw [hupdate, hnode]
    exact hdisjoint _ (folderBlocks_root htree hblocks) _ (folderBlocks_root hserver hblocks')
  have hnone : s₀.server.clients.lookup addrs.client = none := by
    rw [hnode]
    rfl
  have hpending : s₀.server.blockdb.pendingRoot = none := by
    rw [hnode]
    rfl
  have hact : s₀.server.receive 0 s₀.now 0 addrs.client (.RootUpdate update) = .ok (_, []) :=
    (Handler.receive_unknown hnone).trans (congrArg _ (unconnectedRootUpdate_new hnew hpending))
  have hstep := System.server_quiet le_rfl
    ((Handler.act_deliver .server s₀.now 0 (htoServer.trans (List.nil_append _).symm) hd).trans hact)
  obtain ⟨c', hv'⟩ := hv.step hcompact src.isRoot src.complete hreps.allFull hsize.le hstep
  obtain rfl := hv'.known hc
  refine ⟨_, Reachable.refl.snoc hstep, src, ⟨_, hv', rfl⟩, hloops, ⟨_, Handler.setClient_lookup, rfl, ?_⟩,
    ?_, rfl, rfl⟩
  · simp [Client.sendBlockRequest, Client.default, hupdate, BlockDb.new]
  · rw [hupdate]
    refine Pending.start hv.asks.keyed hv.session.receiver.full ?_ hreps.allFull ?_
    · rw [hnode]
      exact insertAll_complete root' server.blocks
    · intro id f g hf hg
      rw [hnode] at hg
      obtain ⟨f', hf', rfl, -⟩ := insertAll_lookup hf
      obtain ⟨g', hg', hid, -⟩ := insertAll_lookup hg
      exact hdisjoint _ (List.mem_map_of_mem hf') _ (List.mem_map_of_mem hg') hid.symm

/-- Each folder with new blocks can be transferred into a folder that can be cleared: there is a run in which
the server installs the root of the client and has the client's tree on its disk. -/
theorem session_completes (hcompact : Serde.Compact) (htree : client.tree.WellFormed)
    (hutf8 : client.tree.Utf8) (hserver : server.tree.WellFormed)
    (hids : ((client.blocks ++ server.blocks).map Full.id).Nodup) (hdata : ∀ f ∈ client.blocks, f.data ≠ [])
    (hstart : System.start addrs client server rand nonce capacity = .ok s₀)
    (hsize : rand.toNat + s₀.client.blockdb.totalLen < 2 ^ 63) (hrooted : server.fs.Rooted)
    (hopens : server.fs.Opens server.files)
    (hdir : server.fs.node (server.files.resolve server.fs.cwd) = some .dir)
    (hclear : server.files.Clearable server.fs.cwd) :
    ∃ s, Reachable (System.Step addrs) s₀ s ∧ s.server.blockdb.root = s₀.client.blockdb.root ∧
      s.server.blockdb.pendingRoot = none ∧ s.server.clients.lookup addrs.client = none ∧
      ∀ path, s.server.fs.node (server.files.resolve server.fs.cwd ++ path) = client.tree.lookup path := by
  obtain ⟨root', -, hnode⟩ := start_server hstart
  have hfolder : s₀.server.folder = server.files := by
    rw [hnode]
    rfl
  have hfs : s₀.server.fs = server.fs := by
    rw [hnode]
    rfl
  obtain ⟨fs₁, hexec⟩ := (Forest.clear_iff hrooted hopens hdir).mpr hclear
  obtain ⟨s₁, hreach₁, src, hidle⟩ := Idle.start hcompact htree hserver hids hdata hstart hsize
  rw [← hfolder, ← hfs] at hexec ⊢
  obtain ⟨s, hreach, hdone⟩ :=
    hidle.completes hcompact src htree hutf8 hexec (Finset.singleton_nonempty _)
  exact ⟨s, hreach₁.trans hreach, hdone.root, hdone.pendingRoot, hdone.client, hdone.tree⟩

end Serde

end Sealing

/-! ## A folder with one file -/

theorem serverOpt_rooted : serverOpt.fs.Rooted := by
  intro q hq
  simp only [serverOpt, optOf, Option.ite_none_right_eq_some] at hq ⊢
  rcases hq.1 with rfl | rfl <;> simp

theorem serverOpt_opens : serverOpt.fs.Opens serverOpt.files := by
  constructor <;> decide

theorem session_completes_file :
    letI := serde
    letI := sealing
    ∃ s₀ s, startOf plainName = .ok s₀ ∧ Reachable (System.Step ends) s₀ s ∧
      s.server.fs.node [[0x73], plainName] = some (.file [7]) := by
  let _ := serde
  let _ := sealing
  have hrequested : requested plainName = .ok 1 := by decide +kernel
  simp only [requested, Result.bind_eq_ok, Result.assert_eq_ok] at hrequested
  obtain ⟨s₀, hstart, _, hsize, -⟩ := hrequested
  have hserver : serverOpt.tree.WellFormed := trivial
  obtain ⟨s, hreach, -, -, -, htree⟩ := session_completes serde_compact
    (clientOpt_wellFormed ⟨by decide, by decide, by decide, by decide, by decide⟩)
    ⟨⟨"a", by decide⟩, trivial⟩ hserver (by decide +kernel) (by decide +kernel) hstart hsize
    serverOpt_rooted serverOpt_opens (by decide)
    ⟨by decide, by decide⟩
  exact ⟨s₀, s, hstart, hreach, htree [plainName]⟩

end DasProtokoll.Scsync
