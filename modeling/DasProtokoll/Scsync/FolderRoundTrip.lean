import DasProtokoll.Scsync.Restore
import DasProtokoll.Scsync.Serde

/-!
# A folder comes back from its blocks

The builder makes an entry for the parent of each directory that it finishes. The
root gets one, too, so the folder needs a parent.
-/

namespace DasProtokoll.Scsync

open DasProtokoll Relation

section Sealing

variable [Sealing] {rand : Nat → Key × Iv} {folder : PathBuf} {F : Forest}

theorem folderBlocks_total_iff (hF : F.WellFormed) :
    (∃ made, folderBlocks rand folder F = .ok made) ↔ ∃ parent, folder.parent = some parent := by
  have hwalk := @visitEntries_walk _ rand folder folder
    { map := ∅, created := [], root := none } F hF rfl (fun _ _ => Finmap.lookup_empty _) le_rfl
    [{ path := folder, fileName := folder.normal.components.getLast?.getD [], fileType := .dir }]
  rw [folderBlocks, walkDir, hwalk]
  have hroot : FolderState.root (FolderState.extend { map := ∅, created := [], root := none } folder
      (sealForest rand 0 F).1 (sealForest rand 0 F).2) = none := rfl
  simp only [visitEntries, visitEntry, List.length_nil, Result.assert_of hroot, Result.bind_ok, if_true]
  cases folder.parent with
  | none => simp
  | some parent => simp

theorem blockdbFromFolder_ok {db : BlockDb} (h : blockdbFromFolder rand folder F = .ok db) :
    ∃ root blocks, folderBlocks rand folder F = .ok (root, blocks) ∧
      db = BlockDb.new root (insertAll blocks) := by
  simp only [blockdbFromFolder, Result.bind_eq_ok, Result.pure_def, Result.ok.injEq] at h
  obtain ⟨⟨root, blocks⟩, hmade, rfl⟩ := h
  exact ⟨root, blocks, hmade, rfl⟩

theorem writeToDir_total {db : BlockDb} {fuel : Nat} (hF : F.WellFormed) (hutf8 : F.Utf8)
    (hr : RootRepresents (Holds db) db.root F) (hfuel : F.depth < fuel) {target : PathBuf}
    {fs fs₁ : FileSystem} (hclear : fs.execAll [.removeDirAll target, .createDir target] = some fs₁) :
    ∃ fs', (db.writeToDir fuel target).run fs = .ok ((), fs') ∧
      ∀ path, fs'.node (target.resolve fs.cwd ++ path) = F.lookup path := by
  obtain ⟨fs', hexec⟩ := Forest.execAll_replace_total hF hclear
  have hrun : (db.writeToDir fuel target).run fs = .ok ((), fs') := by
    rw [writeToDir_represents hr hfuel, Forest.mapNames_lossy hutf8, Plan.run, hexec]
    rfl
  exact ⟨fs', hrun, run_writeToDir hF hutf8 hr hfuel hrun⟩

/-- All blocks from the root on are there and full, and writing them gives the tree. -/
def RoundTrips (rand : Nat → Key × Iv) (folder : PathBuf) (F : Forest) (fuel : Nat) (target : PathBuf)
    (fs : FileSystem) : Prop :=
  ∃ db, blockdbFromFolder rand folder F = .ok db ∧ AllFull db (.Directory, db.root) ∧
    ∃ fs', (db.writeToDir fuel target).run fs = .ok ((), fs') ∧
      ∀ path, fs'.node (target.resolve fs.cwd ++ path) = F.lookup path

theorem clear_of_run {db : BlockDb} {fuel : Nat} {target : PathBuf} {fs fs' : FileSystem}
    (h : (db.writeToDir fuel target).run fs = .ok ((), fs')) :
    ∃ fs₁, fs.execAll [.removeDirAll target, .createDir target] = some fs₁ := by
  simp only [Plan.run, Result.bind_eq_ok, Result.unwrap_eq_ok] at h
  obtain ⟨fs₂, hexec, -⟩ := h
  have hops : (db.writeToDir fuel target).ops = [.removeDirAll target, .createDir target] ++
      (Plan.lift (db.getDir db.root) >>= fun dir => db.writeToDirRec fuel target dir).ops := by
    simp only [BlockDb.writeToDir, Plan.emit_bind, List.cons_append, List.nil_append]
  rw [hops, FileSystem.execAll_append, Option.bind_eq_some_iff] at hexec
  obtain ⟨fs₁, hclear, -⟩ := hexec
  exact ⟨fs₁, hclear⟩

/-- A tree comes back from its blocks if and only if the folder that it is in has a parent, and the path of
the target ends in a name and does not lead through the target. -/
theorem folder_round_trip_iff (rand : Nat → Key × Iv) (folder : PathBuf) {F : Forest}
    (hF : F.WellFormed) (hutf8 : F.Utf8)
    (hids : ∀ root blocks, folderBlocks rand folder F = .ok (root, blocks) → NoCollision blocks)
    {fuel : Nat} (hfuel : F.depth < fuel) {target : PathBuf} {fs : FileSystem} (hrooted : fs.Rooted)
    (hopens : fs.Opens target) (hdir : fs.node (target.resolve fs.cwd) = some .dir) :
    RoundTrips rand folder F fuel target fs ↔
      (∃ parent, folder.parent = some parent) ∧ target.Clearable fs.cwd := by
  have htotal : (∃ made, folderBlocks rand folder F = .ok made) ↔ ∃ parent, folder.parent = some parent :=
    folderBlocks_total_iff hF
  rw [← htotal, ← Forest.clear_iff hrooted hopens hdir]
  constructor
  · rintro ⟨db, hdb, -, fs', hrun, -⟩
    obtain ⟨root, blocks, hmade, -⟩ := blockdbFromFolder_ok hdb
    exact ⟨⟨_, hmade⟩, clear_of_run hrun⟩
  · rintro ⟨⟨⟨root, blocks⟩, hmade⟩, fs₁, hclear⟩
    have hr := folderBlocks_represents hF hmade (hids root blocks hmade)
    refine ⟨BlockDb.new root (insertAll blocks), ?_, hr.allFull,
      writeToDir_total hF hutf8 hr hfuel hclear⟩
    rw [blockdbFromFolder, hmade]
    rfl

end Sealing

def small : Forest := .file [0x61] [1, 2] (.dir [0x65] .nil .nil)

def keys (i : Nat) : Key × Iv := (Vector.replicate 16 (UInt8.ofNat i), Vector.replicate 16 0)

def smallSource : PathBuf := PathBuf.ofOsString (.ofString "/s")

def smallTarget : PathBuf := PathBuf.ofOsString (.ofString "/t")

/-- Two directories in the root of the disk. -/
def twoFolders : FileSystem where
  cwd := []
  node place := if place = [] ∨ place = [[0x73]] ∨ place = [[0x74]] then some .dir else none

theorem twoFolders_rooted : twoFolders.Rooted := by
  intro q hq
  simp only [twoFolders, Option.ite_none_right_eq_some] at hq ⊢
  rcases hq.1 with rfl | rfl | rfl <;> simp

theorem twoFolders_opens : twoFolders.Opens smallTarget := by
  constructor <;> decide

theorem small_wellFormed : small.WellFormed := by
  have ha : IsName [0x61] := ⟨by decide, by decide, by decide, by decide, by decide⟩
  have he : IsName [0x65] := ⟨by decide, by decide, by decide, by decide, by decide⟩
  exact ⟨ha, by decide, he, by decide, trivial, trivial⟩

theorem small_utf8 : small.Utf8 := ⟨⟨"a", by decide⟩, ⟨"e", by decide⟩, trivial, trivial⟩

theorem folder_round_trip_iff_small :
    letI := sealing
    RoundTrips keys smallSource small 3 smallTarget twoFolders ↔
      (∃ parent, smallSource.parent = some parent) ∧ smallTarget.Clearable twoFolders.cwd := by
  let _ := sealing
  have hmade : (do
      let made ← folderBlocks keys smallSource small
      return decide (made.2.map Full.id).Nodup) = .ok true := by decide +kernel
  have hfuel : small.depth < 3 := by decide
  refine folder_round_trip_iff keys smallSource small_wellFormed small_utf8 ?_ hfuel twoFolders_rooted
    twoFolders_opens (by decide)
  intro root blocks h
  rw [h] at hmade
  apply noCollision_of_nodup
  simpa using hmade

/-- The root of the file system has no parent, and the working directory cannot be removed by the name `.`. -/
theorem folder_round_trip_root :
    letI := sealing
    let rootDir := PathBuf.ofOsString (.ofString "/")
    let workingDir := PathBuf.ofOsString (.ofString ".")
    blockdbFromFolder keys rootDir small = .panic ∧
      (∀ fuel target fs, ¬ RoundTrips keys rootDir small fuel target fs) ∧
      ∀ fuel fs, ¬ RoundTrips keys smallSource small fuel workingDir fs := by
  let _ := sealing
  have hmade : folderBlocks keys (PathBuf.ofOsString (.ofString "/")) small = .panic := by
    decide +kernel
  have hpanic : blockdbFromFolder keys (PathBuf.ofOsString (.ofString "/")) small = .panic := by
    rw [blockdbFromFolder, hmade]
    rfl
  refine ⟨hpanic, ?_, ?_⟩
  · rintro fuel target fs ⟨db, hdb, -⟩
    rw [hpanic] at hdb
    cases hdb
  · rintro fuel fs ⟨db, -, -, fs', hrun, -⟩
    obtain ⟨fs₁, hclear⟩ := clear_of_run hrun
    simp only [FileSystem.execAll, Option.bind_eq_bind, Option.bind_eq_some_iff] at hclear
    obtain ⟨fs₀, h₀, -⟩ := hclear
    exact absurd (FileSystem.exec_removeDirAll_ok h₀).1.named (by decide)

end DasProtokoll.Scsync
