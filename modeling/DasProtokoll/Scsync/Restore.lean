import DasProtokoll.Scsync.Folder
import DasProtokoll.Scsync.Verify

/-!
# From verified blocks to files

When the verification of a root passes and each full block holds what was made of
the folder, all reachable blocks are full and the writer writes the folder.
-/

namespace DasProtokoll

/-- How deep directories lie in each other. A file counts, too. -/
def Forest.depth : Forest → Nat
  | nil => 0
  | file _ _ rest => max 1 rest.depth
  | dir _ entries rest => max (entries.depth + 1) rest.depth

namespace Scsync

open DasProtokoll Relation

/-- No two blocks with one id hold different data. -/
def NoCollision (blocks : List Full) : Prop :=
  ∀ f ∈ blocks, ∀ g ∈ blocks, f.id = g.id → f.data = g.data

instance (blocks : List Full) : Decidable (NoCollision blocks) :=
  inferInstanceAs (Decidable (∀ f ∈ blocks, ∀ g ∈ blocks, f.id = g.id → f.data = g.data))

theorem noCollision_of_nodup {blocks : List Full} (h : (blocks.map Full.id).Nodup) :
    NoCollision blocks := by
  intro f hf g hg hid
  rw [List.inj_on_of_nodup_map h hf hg hid]

/-! ## The map of all blocks -/

theorem insertAll_append (blocks : List Full) (f : Full) :
    insertAll (blocks ++ [f]) = (insertAll blocks).insert f.id (.Full f) := by
  simp [insertAll]

theorem insertAll_lookup {blocks : List Full} {id : BlockId} {b : Block}
    (h : (insertAll blocks).lookup id = some b) : ∃ f ∈ blocks, f.id = id ∧ b = .Full f := by
  induction blocks using List.reverseRecOn with
  | nil => cases h
  | append_singleton blocks g ih =>
    rw [insertAll_append] at h
    by_cases hid : id = g.id
    · subst hid
      rw [Finmap.lookup_insert, Option.some.injEq] at h
      exact ⟨g, by simp, rfl, h.symm⟩
    · rw [Finmap.lookup_insert_of_ne _ hid] at h
      obtain ⟨f, hf, hfid, hb⟩ := ih h
      exact ⟨f, by simp [hf], hfid, hb⟩

theorem lookup_insertAll {blocks : List Full} (hno : NoCollision blocks) {f : Full} (hf : f ∈ blocks) :
    (insertAll blocks).lookup f.id = some (.Full f) := by
  induction blocks using List.reverseRecOn with
  | nil => simp at hf
  | append_singleton blocks g ih =>
    rw [insertAll_append]
    by_cases hid : f.id = g.id
    · have hdata := hno f hf g (by simp) hid
      rw [hid, Finmap.lookup_insert]
      cases f
      cases g
      simp_all
    · rw [Finmap.lookup_insert_of_ne _ hid]
      refine ih (fun f hf g hg => hno f (by simp [hf]) g (by simp [hg])) ?_
      rcases List.mem_append.mp hf with hf | hf
      · exact hf
      · exact absurd (by rw [List.mem_singleton.mp hf]) hid

section Sealing

variable [Sealing]

def Holds (db : BlockDb) (id : BlockId) (f : Full) : Prop := db.lookup id = some (.Full f)

theorem folderBlocks_represents {rand : Nat → Key × Iv} {folder : PathBuf} {F : Forest}
    (hF : F.WellFormed) {root : BlockRef} {blocks : List Full}
    (h : folderBlocks rand folder F = .ok (root, blocks)) (hno : NoCollision blocks) :
    RootRepresents (Holds (BlockDb.new root (insertAll blocks))) root F := by
  obtain ⟨rfl, rfl⟩ := folderBlocks_ok hF h
  refine ⟨_, { children := (sealForest rand 0 F).1 }, lookup_insertAll hno (by simp),
    fromFull_toBlock _ _ _, ?_⟩
  refine (sealForest_represents rand 0 F).mono ?_
  rintro id f ⟨hf, rfl⟩
  exact lookup_insertAll hno (by simp [hf])

/-! ## What verification tells -/

variable {db : BlockDb} {has : BlockId → Full → Prop}

/-- The full blocks hold the data of the blocks that `has` tells of. -/
def Agrees (db : BlockDb) (has : BlockId → Full → Prop) : Prop :=
  ∀ id f g, has id f → db.lookup id = some (.Full g) → g.data = f.data

theorem traverseChildren_cons {rec_ : PathBuf → BlockRef → Decoded → Unit → Result (Unit × Option Unit)}
    {path : PathBuf} {bref : BlockRef} {c : Child} {children : List Child}
    (h : traverseChildren db verifyVisitor rec_ path bref (c :: children) () = .ok ((), none)) :
    (∃ g dec, db.lookup c.blockref.blockid = some (.Full g) ∧
      decodeAs c.type g c.blockref.key = some dec ∧
      rec_ (path.join (.ofString c.name)) c.blockref dec () = .ok ((), none)) ∧
    traverseChildren db verifyVisitor rec_ path bref children () = .ok ((), none) := by
  by_cases hfull : IsFull db (c.type, c.blockref)
  · obtain ⟨g, hg⟩ := hfull
    obtain ⟨dec, _, hdec, hrec, h⟩ := of_traverseChildren_none hg h
    exact ⟨⟨g, dec, hg, hdec, hrec⟩, h⟩
  · rw [traverseChildren_absent hfull] at h
    simp at h

theorem traverseRec_dir {fuel : Nat} {path : PathBuf} {bref : BlockRef} {dir : Dir}
    (h : traverseRec db verifyVisitor fuel path bref (.Dir dir) () = .ok ((), none)) :
    ∃ k, fuel = k + 1 ∧
      traverseChildren db verifyVisitor (traverseRec db verifyVisitor k) path bref dir.children () =
        .ok ((), none) := by
  cases fuel with
  | zero => simp [traverseRec] at h
  | succ k =>
    refine ⟨k, rfl, ?_⟩
    rw [traverseRec] at h
    split at h
    · simp [verifyVisitor] at h
    · simp [verifyVisitor] at h
    · exact h

theorem traverse_represents {fuel : Nat} {path : PathBuf} {bref : BlockRef} {children : List Child}
    {F : Forest} (hr : Represents has children F) (hagree : Agrees db has)
    (h : traverseChildren db verifyVisitor (traverseRec db verifyVisitor fuel) path bref children () =
      .ok ((), none)) :
    Represents (Holds db) children F ∧ F.depth ≤ fuel := by
  induction hr using Represents.induction generalizing fuel path bref with
  | nil => exact ⟨trivial, Nat.zero_le _⟩
  | file c children name content rest f hname htype hf hleaf _ ih =>
    obtain ⟨⟨g, dec, hg, -, hbelow⟩, htail⟩ := traverseChildren_cons h
    obtain ⟨hreps, hdepth⟩ := ih htail
    have hfuel : fuel ≠ 0 := by
      rintro rfl
      simp [traverseRec] at hbelow
    refine ⟨⟨hname, htype, ⟨g, hg, ?_⟩, hreps⟩, ?_⟩
    · rwa [Leaf.fromFull, fromFull_congr (hagree _ f g hf hg), ← Leaf.fromFull]
    · rw [Forest.depth]
      omega
  | dir c children name entries rest f d hname htype hf hdir _ _ ihe ih =>
    obtain ⟨⟨g, dec, hg, hdec, hbelow⟩, htail⟩ := traverseChildren_cons h
    obtain ⟨hreps, hdepth⟩ := ih htail
    have hdirg : Dir.fromFull g c.blockref.key = some d := by
      rwa [Dir.fromFull, fromFull_congr (hagree _ f g hf hg), ← Dir.fromFull]
    rw [htype, decodeAs, hdirg, Option.map_some, Option.some.injEq] at hdec
    subst hdec
    obtain ⟨k, rfl, hchildren⟩ := traverseRec_dir hbelow
    obtain ⟨hrepe, hdepthe⟩ := ihe hchildren
    refine ⟨⟨hname, htype, ⟨g, d, hg, hdirg, hrepe⟩, hreps⟩, ?_⟩
    rw [Forest.depth]
    omega

theorem verify_represents {fuel : Nat} {root : BlockRef} {F : Forest} (hp : db.pendingRoot = some root)
    (hr : RootRepresents has root F) (hagree : Agrees db has) (h : verify db fuel true = .ok true) :
    RootRepresents (Holds db) root F ∧ F.depth < fuel := by
  obtain ⟨f, dir, hf, hdir, hreps⟩ := hr
  simp only [verify, BlockDb.rootRef, if_true, hp, Result.unwrap_some, Result.bind_ok,
    Result.bind_eq_ok, Result.pure_def, Result.ok.injEq, traverse, BlockDb.getFull,
    BlockDb.get_eq_ok, Result.unwrap_eq_ok] at h
  obtain ⟨⟨⟨⟩, t⟩, ⟨g, ⟨block, hblock, hg⟩, dir', hdir', htrav⟩, ht⟩ := h
  have hfull : db.lookup root.blockid = some (.Full g) := by
    cases block with
    | Full g' => exact Result.ok.inj hg ▸ hblock
    | Partial p => cases hg
  have hsame : Dir.fromFull g root.key = some dir := by
    rwa [Dir.fromFull, fromFull_congr (hagree _ f g hf hfull), ← Dir.fromFull]
  rw [hsame, Option.some.injEq] at hdir'
  subst hdir'
  rw [Option.isNone_iff_eq_none] at ht
  subst ht
  obtain ⟨k, rfl, hchildren⟩ := traverseRec_dir htrav
  obtain ⟨hdb, hdepth⟩ := traverse_represents hreps hagree hchildren
  exact ⟨⟨g, dir, hfull, hsame, hdb⟩, by omega⟩

theorem Represents.allFull {children : List Child} {F : Forest} (hr : Represents (Holds db) children F) :
    ∀ c ∈ children, AllFull db (c.type, c.blockref) := by
  induction hr using Represents.induction with
  | nil => simp
  | file c children name content rest f _ htype hf _ _ ih =>
    rw [List.forall_mem_cons]
    refine ⟨fun n hn => ?_, ih⟩
    rcases hn.cases_head with rfl | ⟨m, hm | hm, -⟩
    · exact ⟨f, hf⟩
    · exact absurd (htype.symm.trans hm.1) (by simp)
    · exact absurd (htype.symm.trans hm.1) (by simp)
  | dir c children name entries rest f d _ htype hf hdir _ _ ihe ih =>
    rw [List.forall_mem_cons]
    refine ⟨fun n hn => ?_, ih⟩
    rcases hn.cases_head with rfl | ⟨m, hm | hm, hn⟩
    · exact ⟨f, hf⟩
    · rw [htype] at hm
      obtain ⟨child, hchild, rfl⟩ := (dirChild_iff hf hdir).mp hm
      exact ihe child hchild n hn
    · exact absurd (htype.symm.trans hm.1) (by simp)

theorem RootRepresents.allFull {root : BlockRef} {F : Forest} (hr : RootRepresents (Holds db) root F) :
    AllFull db (.Directory, root) := by
  obtain ⟨f, dir, hf, hdir, hreps⟩ := hr
  intro n hn
  rcases hn.cases_head with rfl | ⟨m, hm | hm, hn⟩
  · exact ⟨f, hf⟩
  · obtain ⟨child, hchild, rfl⟩ := (dirChild_iff hf hdir).mp hm
    exact hreps.allFull child hchild n hn
  · cases hm.1

/-! ## What the writer writes -/

theorem getLeaf_of_holds {r : BlockRef} {f : Full} {leaf : Leaf} (hf : Holds db r.blockid f)
    (hleaf : Leaf.fromFull f r.key = some leaf) : db.getLeaf r = .ok leaf := by
  rw [Holds] at hf
  simp [BlockDb.getLeaf, BlockDb.getFull, BlockDb.get, hf, Block.full, hleaf]

theorem writeChildren_represents {fuel : Nat} {children : List Child} {F : Forest}
    (hr : Represents (Holds db) children F) (hfuel : F.depth ≤ fuel) (folder : PathBuf) :
    db.writeChildren (db.writeToDirRec fuel) folder children =
      { ops := (F.mapNames OsString.lossy).ops folder, result := .ok () } := by
  induction hr using Represents.induction generalizing fuel folder with
  | nil => rfl
  | file c children name content rest f hname htype hf hleaf _ ih =>
    rw [Forest.depth] at hfuel
    rw [BlockDb.writeChildren, ih (by omega), BlockDb.writeChild]
    simp only [htype, Plan.emit_bind, getLeaf_of_holds hf hleaf, Plan.lift_ok_bind]
    rw [Plan.bind_of_ok (a := ()) rfl]
    simp [Plan.emit, Forest.mapNames, Forest.ops, OsString.lossy, hname]
  | dir c children name entries rest f d hname htype hf hdir _ _ ihe ih =>
    rw [Forest.depth] at hfuel
    obtain ⟨k, rfl⟩ := Nat.exists_eq_succ_of_ne_zero (by omega : fuel ≠ 0)
    rw [BlockDb.writeChildren, ih (by omega), BlockDb.writeChild]
    simp only [htype, Plan.emit_bind, getDir_ok hf hdir, Plan.lift_ok_bind, BlockDb.writeToDirRec,
      ihe (show entries.depth ≤ k by omega)]
    rw [Plan.bind_of_ok (a := ()) rfl]
    simp [Forest.mapNames, Forest.ops, OsString.lossy, hname]

theorem writeToDir_represents {fuel : Nat} {F : Forest} (hr : RootRepresents (Holds db) db.root F)
    (hfuel : F.depth < fuel) (folder : PathBuf) :
    db.writeToDir fuel folder = {
      ops := .removeDirAll folder :: .createDir folder :: (F.mapNames OsString.lossy).ops folder
      result := .ok () } := by
  obtain ⟨f, dir, hf, hdir, hreps⟩ := hr
  obtain ⟨k, rfl⟩ := Nat.exists_eq_succ_of_ne_zero (by omega : fuel ≠ 0)
  rw [BlockDb.writeToDir]
  simp only [Plan.emit_bind, getDir_ok hf hdir, Plan.lift_ok_bind, BlockDb.writeToDirRec,
    writeChildren_represents hreps (show F.depth ≤ k by omega)]

theorem run_writeToDir {fuel : Nat} {F : Forest} (hF : F.WellFormed) (hutf8 : F.Utf8)
    (hr : RootRepresents (Holds db) db.root F) (hfuel : F.depth < fuel) {folder : PathBuf}
    {fs fs' : FileSystem} {u : Unit} (h : (db.writeToDir fuel folder).run fs = .ok (u, fs'))
    (path : List OsString) : fs'.node (folder.resolve fs.cwd ++ path) = F.lookup path := by
  rw [writeToDir_represents hr hfuel, Forest.mapNames_lossy hutf8] at h
  simp only [Plan.run, Result.bind_eq_ok, Result.unwrap_eq_ok, Result.pure_def, Result.ok.injEq,
    Prod.mk.injEq] at h
  obtain ⟨_, hexec, _, _, _, rfl⟩ := h
  exact Forest.execAll_replace hF hexec path

end Sealing

end Scsync

end DasProtokoll
