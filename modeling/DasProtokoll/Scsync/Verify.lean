import DasProtokoll.Scsync.Serde
import DasProtokoll.Scsync.Traversal

/-!
# What verification covers

`verify` follows the children of directories, and the writer also reads the
leaves that file metadata lists.
-/

namespace DasProtokoll.Scsync

open DasProtokoll Relation

section Sealing

variable [Sealing]

/-- `r` is a directory with the child `c`. -/
def DirChild (db : BlockDb) (r c : Ref) : Prop :=
  r.1 = .Directory ∧ ∃ f dir, db.lookup r.2.blockid = some (.Full f) ∧
    Dir.fromFull f r.2.key = some dir ∧ ∃ child ∈ dir.children, c = (child.type, child.blockref)

/-- `r` is file metadata that lists the leaf `c`. -/
def MetaLeaf (db : BlockDb) (r c : Ref) : Prop :=
  r.1 = .FileMeta ∧ ∃ f meta_, db.lookup r.2.blockid = some (.Full f) ∧
    Meta.fromFull f r.2.key = some meta_ ∧ c.2 ∈ meta_.blocks ∧ c.1 = .Leaf

def DirReaches (db : BlockDb) : Ref → Ref → Prop := ReflTransGen (DirChild db)

def Reaches (db : BlockDb) : Ref → Ref → Prop :=
  ReflTransGen fun r c => DirChild db r c ∨ MetaLeaf db r c

/-- A finite tree whose full blocks decode under the keys of their references. -/
inductive Decodes (db : BlockDb) : BlockType → BlockRef → Prop
  | absent {type : BlockType} {r : BlockRef} (h : ¬ IsFull db (type, r)) : Decodes db type r
  | directory {r : BlockRef} {f : Full} {dir : Dir} (hf : db.lookup r.blockid = some (.Full f))
    (hdir : Dir.fromFull f r.key = some dir)
    (hc : ∀ c ∈ dir.children, Decodes db c.type c.blockref) : Decodes db .Directory r
  | fileMeta {r : BlockRef} {f : Full} {meta_ : Meta} (hf : db.lookup r.blockid = some (.Full f))
    (hmeta : Meta.fromFull f r.key = some meta_)
    (hl : ∀ l ∈ meta_.blocks, Decodes db .Leaf l) : Decodes db .FileMeta r
  | leaf {r : BlockRef} {f : Full} {leaf : Leaf} (hf : db.lookup r.blockid = some (.Full f))
    (hleaf : Leaf.fromFull f r.key = some leaf) : Decodes db .Leaf r

/-- All blocks below `r` that directories lead to are full. -/
def DirFull (db : BlockDb) (r : Ref) : Prop := ∀ n, DirReaches db r n → IsFull db n

variable {db : BlockDb} {type : BlockType} {r : BlockRef}

/-! ## Reachable blocks -/

theorem dirChild_iff {f : Full} {dir : Dir} (hf : db.lookup r.blockid = some (.Full f))
    (hdir : Dir.fromFull f r.key = some dir) {c : Ref} :
    DirChild db (.Directory, r) c ↔ ∃ child ∈ dir.children, c = (child.type, child.blockref) := by
  constructor
  · rintro ⟨-, f', dir', hf', hdir', hc⟩
    obtain rfl := BlockDb.full_unique hf hf'
    obtain rfl := Option.some.inj (hdir.symm.trans hdir')
    exact hc
  · intro hc
    exact ⟨rfl, f, dir, hf, hdir, hc⟩

theorem dirFull_directory {f : Full} {dir : Dir} (hf : db.lookup r.blockid = some (.Full f))
    (hdir : Dir.fromFull f r.key = some dir) :
    DirFull db (.Directory, r) ↔ ∀ c ∈ dir.children, DirFull db (c.type, c.blockref) := by
  constructor
  · intro h c hc n hn
    exact h n (hn.head ((dirChild_iff hf hdir).mpr ⟨c, hc, rfl⟩))
  · intro h n hn
    rcases hn.cases_head with rfl | ⟨m, hm, hn⟩
    · exact ⟨f, hf⟩
    · obtain ⟨c, hc, rfl⟩ := (dirChild_iff hf hdir).mp hm
      exact h c hc n hn

theorem dirFull_of_ne (h : type ≠ .Directory) : DirFull db (type, r) ↔ IsFull db (type, r) := by
  constructor
  · exact fun hall => hall _ .refl
  · intro hfull n hn
    rcases hn.cases_head with rfl | ⟨m, hm, -⟩
    · exact hfull
    · exact absurd hm.1 h

theorem dirFull_absent (h : ¬ IsFull db (type, r)) : ¬ DirFull db (type, r) :=
  fun hall => h (hall _ .refl)

theorem Decodes.traversable (h : Decodes db type r) : Traversable db type r := by
  induction h with
  | absent h => exact .absent h
  | directory hf hdir _ ih => exact .directory hf hdir ih
  | fileMeta hf hmeta => exact .file (by simp) hf (decodeAs_fileMeta hmeta)
  | leaf hf hleaf => exact .file (by simp) hf (decodeAs_leaf hleaf)

theorem Decodes.decodeAs {f : Full} (h : Decodes db type r)
    (hf : db.lookup r.blockid = some (.Full f)) : ∃ dec, decodeAs type f r.key = some dec :=
  h.traversable.decodeAs hf

theorem Decodes.withRoot (h : Decodes db type r) (root : BlockRef) :
    Decodes { db with root } type r := by
  induction h with
  | absent h => exact .absent h
  | directory hf hdir _ ih => exact .directory hf hdir ih
  | fileMeta hf hmeta _ ih => exact .fileMeta hf hmeta ih
  | leaf hf hleaf => exact .leaf hf hleaf

/-! ## The traversal -/

/-- With enough fuel, the verifying traversal below `r` ends without a value exactly when all blocks
that directories lead to are full. -/
def Verified (db : BlockDb) (type : BlockType) (r : BlockRef) : Prop :=
  ∃ fuel₀, ∀ fuel ≥ fuel₀, ∀ path f dec, db.lookup r.blockid = some (.Full f) →
    decodeAs type f r.key = some dec → ∃ t,
      traverseRec db verifyVisitor fuel path r dec () = .ok ((), t) ∧
        (t = none ↔ DirFull db (type, r))

theorem traverseChildren_absent {c : Child} {children : List Child} {path : PathBuf}
    {bref : BlockRef} {rec_ : PathBuf → BlockRef → Decoded → Unit → Result (Unit × Option Unit)}
    (h : ¬ IsFull db (c.type, c.blockref)) :
    traverseChildren db verifyVisitor rec_ path bref (c :: children) () = .ok ((), some ()) := by
  have hcall : verifyVisitor.call db () (absentCall db path bref c) = ((), some ()) := by
    unfold absentCall
    split <;> rfl
  rw [traverseChildren_of_absent h, hcall, proceed_some rfl]

theorem eventually_of_decodeAs {P : Nat → PathBuf → Decoded → Prop} {f : Full} {dec : Decoded}
    (hf : db.lookup r.blockid = some (.Full f)) (hdec : decodeAs type f r.key = some dec)
    (fuel₀ : Nat) (h : ∀ fuel ≥ fuel₀, ∀ path, P (fuel + 1) path dec) :
    ∃ fuel₀, ∀ fuel ≥ fuel₀, ∀ path f' dec', db.lookup r.blockid = some (.Full f') →
      decodeAs type f' r.key = some dec' → P fuel path dec' := by
  refine ⟨fuel₀ + 1, ?_⟩
  intro fuel hfuel path f' dec' hf' hdec'
  obtain ⟨fuel, rfl⟩ := Nat.exists_eq_succ_of_ne_zero (by omega : fuel ≠ 0)
  obtain rfl := BlockDb.full_unique hf hf'
  obtain rfl := Option.some.inj (hdec.symm.trans hdec')
  exact h fuel (by omega) path

theorem traverseChildren_verify {children : List Child}
    (hdec : ∀ c ∈ children, Decodes db c.type c.blockref)
    (hver : ∀ c ∈ children, Verified db c.type c.blockref) :
    ∃ fuel₀, ∀ fuel ≥ fuel₀, ∀ path bref, ∃ t,
      traverseChildren db verifyVisitor (traverseRec db verifyVisitor fuel) path bref children () =
        .ok ((), t) ∧
      (t = none ↔ ∀ c ∈ children, DirFull db (c.type, c.blockref)) := by
  induction children with
  | nil => exact ⟨0, fun _ _ _ _ => ⟨none, rfl, by simp⟩⟩
  | cons c children ih =>
    rw [List.forall_mem_cons] at hdec hver
    obtain ⟨fuel₁, h₁⟩ := ih hdec.2 hver.2
    obtain ⟨fuel₂, h₂⟩ := hver.1
    refine ⟨max fuel₁ fuel₂, fun fuel hfuel path bref => ?_⟩
    rw [List.forall_mem_cons]
    by_cases hfull : IsFull db (c.type, c.blockref)
    · obtain ⟨f, hf⟩ := hfull
      obtain ⟨dec, hdecode⟩ := hdec.1.decodeAs hf
      obtain ⟨t, ht, hiff⟩ := h₂ fuel (by omega) (path.join (.ofString c.name)) f dec hf hdecode
      rw [traverseChildren_of_full hf, hdecode, Result.unwrap_some, Result.bind_ok, ht, Result.bind_ok]
      cases t with
      | some u => exact ⟨some u, rfl, by rw [← hiff]; simp⟩
      | none =>
        obtain ⟨t', ht', hiff'⟩ := h₁ fuel (by omega) path bref
        exact ⟨t', ht', by rw [hiff', ← hiff]; simp⟩
    · exact ⟨some (), traverseChildren_absent hfull, by simp [dirFull_absent hfull]⟩

theorem verified_of_decodes (h : Decodes db type r) : Verified db type r := by
  induction h with
  | absent h => exact ⟨0, fun _ _ _ f _ hf => absurd ⟨f, hf⟩ h⟩
  | @directory r f dir hf hdir hc ih =>
    have hdec := decodeAs_directory hdir
    obtain ⟨fuel₁, h₁⟩ := traverseChildren_verify hc ih
    apply eventually_of_decodeAs hf hdec fuel₁
    intro fuel hfuel path
    obtain ⟨t, ht, hiff⟩ := h₁ fuel hfuel path r
    refine ⟨t, ?_, hiff.trans (dirFull_directory hf hdir).symm⟩
    rw [traverseRec_directory hf, proceed_none rfl]
    exact ht
  | @fileMeta r f meta_ hf hmeta hl ih =>
    have hdec := decodeAs_fileMeta hmeta
    apply eventually_of_decodeAs hf hdec 0
    intro fuel _ path
    refine ⟨none, ?_, by simp [dirFull_of_ne, show IsFull db (.FileMeta, r) from ⟨f, hf⟩]⟩
    rw [traverseRec_file (by simp) hf hdec]
    rfl
  | @leaf r f leaf hf hleaf =>
    have hdec := decodeAs_leaf hleaf
    apply eventually_of_decodeAs hf hdec 0
    intro fuel _ path
    refine ⟨none, ?_, by simp [dirFull_of_ne, show IsFull db (.Leaf, r) from ⟨f, hf⟩]⟩
    rw [traverseRec_file (by simp) hf hdec]
    rfl

/-- `verify` is true exactly when all blocks that directories lead to are full. -/
theorem verify_eq {root : BlockRef} (hp : db.pendingRoot = some root)
    (h : Decodes db .Directory root) (hroot : IsFull db (.Directory, root)) :
    ∃ fuel₀, ∀ fuel ≥ fuel₀, ∃ b, verify db fuel true = .ok b ∧
      (b = true ↔ DirFull db (.Directory, root)) := by
  obtain ⟨fuel₀, h₀⟩ := verified_of_decodes h
  obtain ⟨f, hf⟩ := hroot
  obtain ⟨dec, hdec⟩ := h.decodeAs hf
  refine ⟨fuel₀, fun fuel hfuel => ?_⟩
  rw [decodeAs, Option.map_eq_some_iff] at hdec
  obtain ⟨dir, hdir, rfl⟩ := hdec
  obtain ⟨t, ht, hiff⟩ := h₀ fuel hfuel rootPath f (.Dir dir) hf (decodeAs_directory hdir)
  refine ⟨t.isNone, ?_, by rw [Option.isNone_iff_eq_none, hiff]⟩
  simp only [verify, BlockDb.rootRef, if_true, hp, Result.unwrap_some, Result.bind_ok]
  rw [traverse_of_full hf hdir, proceed_none rfl]
  simp only [Visitor.call, ht, Result.bind_ok, Result.pure_def]

/-! ## The writer -/

/-- All blocks below `r` that the writer reads are full. -/
def AllFull (db : BlockDb) (r : Ref) : Prop := ∀ n, Reaches db r n → IsFull db n

theorem AllFull.child {f : Full} {dir : Dir} (h : AllFull db (.Directory, r))
    (hf : db.lookup r.blockid = some (.Full f)) (hdir : Dir.fromFull f r.key = some dir) {c : Child}
    (hc : c ∈ dir.children) : AllFull db (c.type, c.blockref) :=
  fun n hn => h n (hn.head (Or.inl ((dirChild_iff hf hdir).mpr ⟨c, hc, rfl⟩)))

theorem AllFull.dirFull {n : Ref} (h : AllFull db n) : DirFull db n :=
  fun m hm => h m (ReflTransGen.mono (fun _ _ => Or.inl) _ _ hm)

theorem getLeaf_ok (h : Decodes db .Leaf r) (hfull : IsFull db (.Leaf, r)) :
    ∃ leaf, db.getLeaf r = .ok leaf := by
  obtain ⟨f, hf⟩ := hfull
  obtain ⟨dec, hdec⟩ := h.decodeAs hf
  rw [decodeAs, Option.map_eq_some_iff] at hdec
  obtain ⟨leaf, hleaf, -⟩ := hdec
  refine ⟨leaf, ?_⟩
  simp only at hf
  simp [BlockDb.getLeaf, BlockDb.getFull, BlockDb.get, hf, Block.full, hleaf]

theorem getDir_ok {f : Full} {dir : Dir} (hf : db.lookup r.blockid = some (.Full f))
    (hdir : Dir.fromFull f r.key = some dir) : db.getDir r = .ok dir := by
  simp [BlockDb.getDir, BlockDb.getFull, BlockDb.get, hf, Block.full, hdir]

theorem getMeta_ok {f : Full} {meta_ : Meta} (hf : db.lookup r.blockid = some (.Full f))
    (hmeta : Meta.fromFull f r.key = some meta_) : db.getMeta r = .ok meta_ := by
  simp [BlockDb.getMeta, BlockDb.getFull, BlockDb.get, hf, Block.full, hmeta]

theorem writeBlocks_ok {blocks : List BlockRef} (path : PathBuf)
    (h : ∀ l ∈ blocks, ∃ leaf, db.getLeaf l = .ok leaf) :
    (db.writeBlocks path blocks).result = .ok () := by
  induction blocks with
  | nil => rfl
  | cons l blocks ih =>
    rw [List.forall_mem_cons] at h
    obtain ⟨leaf, hleaf⟩ := h.1
    rw [BlockDb.writeBlocks, hleaf, Plan.lift_ok_bind, Plan.emit_bind]
    exact ih h.2

/-- With enough fuel the writer comes to the end of this child. -/
def Writable (db : BlockDb) (type : BlockType) (r : BlockRef) : Prop :=
  ∃ fuel₀, ∀ fuel ≥ fuel₀, ∀ folder name,
    (db.writeChild (db.writeToDirRec fuel) folder ⟨name, type, r⟩).result = .ok ()

theorem writeChildren_ok {children : List Child}
    (h : ∀ c ∈ children, Writable db c.type c.blockref) :
    ∃ fuel₀, ∀ fuel ≥ fuel₀, ∀ folder,
      (db.writeChildren (db.writeToDirRec fuel) folder children).result = .ok () := by
  induction children with
  | nil => exact ⟨0, fun _ _ _ => rfl⟩
  | cons c children ih =>
    rw [List.forall_mem_cons] at h
    obtain ⟨fuel₁, h₁⟩ := ih h.2
    obtain ⟨fuel₂, h₂⟩ := h.1
    refine ⟨max fuel₁ fuel₂, fun fuel hfuel folder => ?_⟩
    rw [BlockDb.writeChildren, Plan.bind_result_eq_ok]
    exact ⟨(), h₂ fuel (by omega) folder c.name, h₁ fuel (by omega) folder⟩

/-- The writer finds all that it reads for a child. -/
inductive Readable (db : BlockDb) : BlockType → BlockRef → Prop
  | directory {r : BlockRef} {dir : Dir} (hdir : db.getDir r = .ok dir)
    (hc : ∀ c ∈ dir.children, Readable db c.type c.blockref) : Readable db .Directory r
  | fileMeta {r : BlockRef} {meta_ : Meta} (hmeta : db.getMeta r = .ok meta_)
    (hl : ∀ l ∈ meta_.blocks, ∃ leaf, db.getLeaf l = .ok leaf) : Readable db .FileMeta r
  | leaf {r : BlockRef} {leaf : Leaf} (hleaf : db.getLeaf r = .ok leaf) : Readable db .Leaf r

theorem Decodes.readable (h : Decodes db type r) (hall : AllFull db (type, r)) : Readable db type r := by
  induction h with
  | absent h => exact absurd (hall _ .refl) h
  | directory hf hdir _ ih =>
    exact .directory (getDir_ok hf hdir) fun c hc => ih c hc (hall.child hf hdir hc)
  | fileMeta hf hmeta hl _ =>
    refine .fileMeta (getMeta_ok hf hmeta) fun l hl' => ?_
    exact getLeaf_ok (hl l hl') (hall _ (.single (Or.inr ⟨rfl, _, _, hf, hmeta, hl', rfl⟩)))
  | leaf hf hleaf =>
    obtain ⟨leaf, hleaf⟩ := getLeaf_ok (.leaf hf hleaf) ⟨_, hf⟩
    exact .leaf hleaf

theorem Readable.writable (h : Readable db type r) : Writable db type r := by
  induction h with
  | @directory r dir hdir _ ih =>
    obtain ⟨fuel₁, h₁⟩ := writeChildren_ok ih
    refine ⟨fuel₁ + 1, fun fuel hfuel folder name => ?_⟩
    obtain ⟨fuel, rfl⟩ := Nat.exists_eq_succ_of_ne_zero (by omega : fuel ≠ 0)
    simp only [BlockDb.writeChild, Plan.emit_bind, hdir, Plan.lift_ok_bind]
    exact h₁ fuel (by omega) _
  | fileMeta hmeta hl =>
    refine ⟨0, fun fuel _ folder name => ?_⟩
    simp only [BlockDb.writeChild, Plan.emit_bind, hmeta, Plan.lift_ok_bind]
    exact writeBlocks_ok _ hl
  | leaf hleaf =>
    refine ⟨0, fun fuel _ folder name => ?_⟩
    simp only [BlockDb.writeChild, Plan.emit_bind, hleaf, Plan.lift_ok_bind]
    rfl

theorem writeToDir_ok {root : BlockRef} (h : Decodes db .Directory root)
    (hall : AllFull db (.Directory, root)) :
    ∃ fuel₀, ∀ fuel ≥ fuel₀, ∀ folder,
      (BlockDb.writeToDir { db with root } fuel folder).result = .ok () := by
  cases h with
  | absent h => exact absurd (hall _ .refl) h
  | @directory _ f dir hf hdir hc =>
    obtain ⟨fuel₁, h₁⟩ := @writeChildren_ok _ { db with root } _
      fun c hc' => (((hc c hc').withRoot root).readable (hall.child hf hdir hc')).writable
    refine ⟨fuel₁ + 1, fun fuel hfuel folder => ?_⟩
    obtain ⟨fuel, rfl⟩ := Nat.exists_eq_succ_of_ne_zero (by omega : fuel ≠ 0)
    simp only [BlockDb.writeToDir, Plan.emit_bind,
      @getDir_ok _ { db with root } _ _ _ hf hdir, Plan.lift_ok_bind]
    exact h₁ fuel (by omega) folder

/-! ## Verification and the writer -/

/-- What a verified root promises: all reachable blocks are full, and the writer finds them. -/
def VerifyExact (db : BlockDb) (root : BlockRef) (fuel : Nat) (verified : Bool) : Prop :=
  (verified = true ↔ AllFull db (.Directory, root)) ∧
    (verified = true → ∀ folder,
      (BlockDb.writeToDir { db with root } fuel folder).result = .ok ())

/-- The leaves of all file metadata that directories lead to are full. -/
def MetaFull (db : BlockDb) (r : Ref) : Prop :=
  ∀ n m, DirReaches db r n → MetaLeaf db n m → IsFull db m

theorem allFull_iff {n : Ref} : AllFull db n ↔ DirFull db n ∧ MetaFull db n := by
  constructor
  · intro h
    refine ⟨h.dirFull, fun k m hk hm => ?_⟩
    exact h m ((ReflTransGen.mono (fun _ _ => Or.inl) _ _ hk).tail (Or.inr hm))
  · rintro ⟨hdir, hmeta⟩ m hm
    -- A leaf has nothing below it, so file metadata comes last on each way.
    have hway : DirReaches db n m ∨ ∃ k, DirReaches db n k ∧ MetaLeaf db k m := by
      induction hm with
      | refl => exact Or.inl .refl
      | tail _ hstep ih =>
        rcases ih with hd | ⟨k, hk, hl⟩
        · exact hstep.imp hd.tail fun hl => ⟨_, hd, hl⟩
        · have hleaf := hl.2.choose_spec.choose_spec.2.2.2
          rcases hstep with hs | hs
          · exact absurd (hleaf.symm.trans hs.1) (by simp)
          · exact absurd (hleaf.symm.trans hs.1) (by simp)
    rcases hway with hd | ⟨k, hk, hl⟩
    · exact hdir m hd
    · exact hmeta k m hk hl

/-- `verify` keeps its promise exactly when some block that directories lead to is not full, or all
leaves that file metadata lists are. -/
theorem verify_exact_iff {db : BlockDb} {root : BlockRef} (hp : db.pendingRoot = some root)
    (h : Decodes db .Directory root) (hroot : IsFull db (.Directory, root)) :
    ∃ fuel₀, ∀ fuel ≥ fuel₀, ∃ verified, verify db fuel true = .ok verified ∧
      (VerifyExact db root fuel verified ↔
        ¬ DirFull db (.Directory, root) ∨ MetaFull db (.Directory, root)) := by
  obtain ⟨fuel₁, h₁⟩ := verify_eq hp h hroot
  by_cases hall : AllFull db (.Directory, root)
  · obtain ⟨fuel₂, h₂⟩ := writeToDir_ok h hall
    refine ⟨max fuel₁ fuel₂, fun fuel hfuel => ?_⟩
    obtain ⟨verified, hv, hiff⟩ := h₁ fuel (by omega)
    refine ⟨verified, hv, fun _ => Or.inr (allFull_iff.mp hall).2, fun _ => ⟨?_, ?_⟩⟩
    · exact ⟨fun _ => hall, fun _ => hiff.mpr hall.dirFull⟩
    · exact fun _ folder => h₂ fuel (by omega) folder
  · refine ⟨fuel₁, fun fuel hfuel => ?_⟩
    obtain ⟨verified, hv, hiff⟩ := h₁ fuel hfuel
    refine ⟨verified, hv, ?_, ?_⟩
    · rintro ⟨hexact, -⟩
      left
      intro hdir
      exact hall (hexact.mp (hiff.mpr hdir))
    · intro hcond
      have hnot : ¬ DirFull db (.Directory, root) := by
        rcases hcond with hnot | hmeta
        · exact hnot
        · exact fun hdir => hall (allFull_iff.mpr ⟨hdir, hmeta⟩)
      have hfalse : verified ≠ true := fun ht => hnot (hiff.mp ht)
      exact ⟨⟨fun ht => absurd ht hfalse, fun ha => absurd ha hall⟩, fun ht => absurd ht hfalse⟩

/-! ## A file of one leaf -/

def idOf (n : UInt8) : BlockId := Vector.replicate 32 n

def noKey : Key := Vector.replicate 16 0

def listing : Meta := { blocks := [{ blockid := idOf 2, key := noKey, hints := [] }] }

def folderOf : Dir :=
  { children := [{
      name := "a"
      type := .FileMeta
      blockref := { blockid := idOf 1, key := noKey, hints := [] } }] }

def listingBlock : Full := { id := idOf 1, data := (toBlock listing noKey noKey).data }

def folderBlock : Full := { id := idOf 0, data := (toBlock folderOf noKey noKey).data }

def leafBlock : Full := { id := idOf 2, data := (toBlock ([7] : Bytes) noKey noKey).data }

def rootOf : BlockRef := { blockid := idOf 0, key := noKey, hints := [] }

def leafOf : BlockRef := { blockid := idOf 2, key := noKey, hints := [] }

/-- A folder with one file, whose metadata lists one leaf. -/
def listingDb (leaves : Finmap fun _ : BlockId => Block) : BlockDb where
  root := rootOf
  pendingRoot := some rootOf
  blocks := (leaves.insert (idOf 1) (.Full listingBlock)).insert (idOf 0) (.Full folderBlock)

section Listing

variable (leaves : Finmap fun _ : BlockId => Block)

theorem listingDb_folder : (listingDb leaves).lookup (idOf 0) = some (.Full folderBlock) :=
  Finmap.lookup_insert _

theorem listingDb_listing : (listingDb leaves).lookup (idOf 1) = some (.Full listingBlock) := by
  rw [BlockDb.lookup, listingDb, Finmap.lookup_insert_of_ne _ (by decide), Finmap.lookup_insert]

theorem listingDb_leaf : (listingDb leaves).lookup (idOf 2) = leaves.lookup (idOf 2) := by
  rw [BlockDb.lookup, listingDb, Finmap.lookup_insert_of_ne _ (by decide),
    Finmap.lookup_insert_of_ne _ (by decide)]

theorem listingDb_absent : ¬ IsFull (listingDb ∅) (.Leaf, leafOf) :=
  not_isFull_iff.mpr (Or.inl (listingDb_leaf ∅))

theorem folderBlock_decodes : Dir.fromFull folderBlock noKey = some folderOf :=
  (fromFull_congr rfl noKey).trans (fromFull_toBlock folderOf noKey noKey)

theorem listingBlock_decodes : Meta.fromFull listingBlock noKey = some listing :=
  (fromFull_congr rfl noKey).trans (fromFull_toBlock listing noKey noKey)

theorem leafBlock_decodes : Leaf.fromFull leafBlock noKey = some { data := [7] } := by
  have h : fromFull leafBlock noKey = some ([7] : Bytes) :=
    (fromFull_congr rfl noKey).trans (fromFull_toBlock [7] noKey noKey)
  rw [Leaf.fromFull, h]
  rfl

theorem listingDb_decodes (hleaf : Decodes (listingDb leaves) .Leaf leafOf) :
    Decodes (listingDb leaves) .Directory rootOf := by
  refine .directory (listingDb_folder leaves) folderBlock_decodes fun c hc => ?_
  obtain rfl := List.mem_singleton.mp hc
  refine .fileMeta (listingDb_listing leaves) listingBlock_decodes fun l hl => ?_
  obtain rfl := List.mem_singleton.mp hl
  exact hleaf

theorem listingDb_dirFull : DirFull (listingDb leaves) (.Directory, rootOf) := by
  refine (dirFull_directory (listingDb_folder leaves) folderBlock_decodes).mpr fun c hc => ?_
  obtain rfl := List.mem_singleton.mp hc
  exact (dirFull_of_ne (by simp)).mpr ⟨_, listingDb_listing leaves⟩

theorem listingDb_metaLeaf {n m : Ref} (hn : DirReaches (listingDb leaves) (.Directory, rootOf) n)
    (hm : MetaLeaf (listingDb leaves) n m) : m.2 = leafOf := by
  obtain ⟨htype, f, meta_, hf, hmeta, hl, -⟩ := hm
  rcases hn.cases_head with rfl | ⟨c, hc, hn⟩
  · cases htype
  · obtain ⟨child, hchild, rfl⟩ :=
      (dirChild_iff (listingDb_folder leaves) folderBlock_decodes).mp hc
    obtain rfl := List.mem_singleton.mp hchild
    rcases hn.cases_head with rfl | ⟨_, hchild, -⟩
    · obtain rfl := BlockDb.full_unique (listingDb_listing leaves) hf
      rw [listingBlock_decodes, Option.some.injEq] at hmeta
      subst hmeta
      exact List.mem_singleton.mp hl
    · cases hchild.1

theorem listingDb_reaches : Reaches (listingDb leaves) (.Directory, rootOf) (.Leaf, leafOf) := by
  have hfile : DirChild (listingDb leaves) (.Directory, rootOf)
      (.FileMeta, { blockid := idOf 1, key := noKey, hints := [] }) :=
    ⟨rfl, _, _, listingDb_folder leaves, folderBlock_decodes, _, List.mem_singleton_self _, rfl⟩
  have hleaf : MetaLeaf (listingDb leaves) (.FileMeta, { blockid := idOf 1, key := noKey, hints := [] })
      (.Leaf, leafOf) :=
    ⟨rfl, _, _, listingDb_listing leaves, listingBlock_decodes, List.mem_singleton_self _, rfl⟩
  refine ReflTransGen.head (b := (.FileMeta, { blockid := idOf 1, key := noKey, hints := [] })) (Or.inl hfile) ?_
  exact ReflTransGen.single (Or.inr hleaf)

end Listing

end Sealing

/-- With its leaf, the file is verified, and the writer finds all of it. -/
theorem verify_exact_iff_listed :
    letI := sealing
    ∃ fuel, ∃ verified,
      verify (listingDb (Finmap.singleton (idOf 2) (.Full leafBlock))) fuel true = .ok verified ∧
        VerifyExact (listingDb (Finmap.singleton (idOf 2) (.Full leafBlock))) rootOf fuel verified := by
  let _ := sealing
  have hleaf : (listingDb (Finmap.singleton (idOf 2) (.Full leafBlock))).lookup (idOf 2) =
      some (.Full leafBlock) := by
    rw [listingDb_leaf]
    exact Finmap.lookup_singleton_eq
  have hdecodes := listingDb_decodes _ (.leaf (r := leafOf) hleaf leafBlock_decodes)
  obtain ⟨fuel, hfuel⟩ := verify_exact_iff rfl hdecodes ⟨_, listingDb_folder _⟩
  obtain ⟨verified, hv, hiff⟩ := hfuel fuel le_rfl
  refine ⟨fuel, verified, hv, hiff.mpr (Or.inr fun n m hn hm => ⟨leafBlock, ?_⟩)⟩
  rw [listingDb_metaLeaf _ hn hm]
  exact hleaf

/-- Without its leaf, the file is verified, too. -/
theorem missing_leaf_verified :
    letI := sealing
    Decodes (listingDb ∅) .Directory rootOf ∧ IsFull (listingDb ∅) (.Directory, rootOf) ∧
      ∃ fuel₀, ∀ fuel ≥ fuel₀, verify (listingDb ∅) fuel true = .ok true ∧
        ¬ VerifyExact (listingDb ∅) rootOf fuel true := by
  let _ := sealing
  have hleaf := listingDb_absent
  have hdecodes := listingDb_decodes ∅ (.absent hleaf)
  have hroot : IsFull (listingDb ∅) (.Directory, rootOf) := ⟨_, listingDb_folder ∅⟩
  obtain ⟨fuel₀, hfuel⟩ := verify_eq rfl hdecodes hroot
  refine ⟨hdecodes, hroot, fuel₀, fun fuel hge => ?_⟩
  obtain ⟨b, hb, hiff⟩ := hfuel fuel hge
  obtain rfl := hiff.mpr (listingDb_dirFull ∅)
  exact ⟨hb, fun hexact => hleaf (hexact.1.mp rfl _ (listingDb_reaches ∅))⟩

end DasProtokoll.Scsync
