import DasProtokoll.Csync.Login
import DasProtokoll.Lib.Directories

/-!
# Where an upload is stored

The token of the client names a folder, and the request a path below it. There the
server keeps the stored file next to its bitmap.
-/

namespace DasProtokoll.Csync

open DasProtokoll BitteEinBit

def hexDigit (n : Nat) : UInt8 := if n < 10 then UInt8.ofNat (0x30 + n) else UInt8.ofNat (0x57 + n)

def writeHex (bs : Bytes) : OsString :=
  bs.flatMap fun b => [hexDigit (b.toNat / 16), hexDigit (b.toNat % 16)]

def fileName : OsString := OsString.ofString "file"

def bitmapName : OsString := OsString.ofString "bitmap"

/-- What an upload request does: the directories that it makes and the files that it writes. -/
structure Upload where
  receiver : Receiver
  fs : FileSystem
  made : List Place
  written : List Place

/-- The path of a request as one below the client's folder. -/
def requestPath (path : String) : PathBuf :=
  let reqPath := PathBuf.ofOsString (OsString.ofString path)
  if reqPath.absolute then { reqPath with absolute := false } else reqPath

/-- The upload request with all that it does to the file system. -/
def storeUpload (fs : FileSystem) (folder : PathBuf) (req : UploadRequest) : Result Upload := do
  let chunkInfo ← indexFieldSize req.length
  let path := folder.joinPath (requestPath req.path)
  -- The system refuses a path with a NUL byte.
  Result.assert (0 ∉ OsString.ofString req.path)
  let (fs, made) ← Result.unwrap (fs.createDirAll path)
  let filePath := (path.join fileName).resolve fs.cwd
  let bitmapPath := (path.join bitmapName).resolve fs.cwd
  let continueUpload := (fs.node bitmapPath).isSome
  let fs ← Result.unwrap (fs.openCreate bitmapPath)
  let bitmapFileLen := (chunkInfo.numChunks + 7) / 8
  let fs := if continueUpload then fs else fs.setLen bitmapPath bitmapFileLen
  let mmap := (fs.content bitmapPath).getD []
  Result.assert (mmap ≠ [])
  let bitmap ← BitMap.withLength mmap chunkInfo.numChunks
  let fs ← Result.unwrap (fs.openCreate filePath)
  let fs := fs.setLen filePath req.length
  return {
    receiver := {
      state := .WaitForChunk { file := { append := continueUpload, pos := 0 }, chunkInfo }
      bitmap
      bitmapExists := true
      file := (fs.content filePath).getD []
      tx := [.UploadStart]
      congestionDone := false }
    fs
    made
    written := [bitmapPath, filePath] }

/-! ## One folder of the file system -/

/-- What the directory of an upload holds. -/
def diskAt (fs : FileSystem) (place : Place) : Disk :=
  { bitmap := fs.content (place ++ [bitmapName]), file := fs.content (place ++ [fileName]) }

theorem isName_file : IsName fileName := ⟨by decide, by decide, by decide, by decide, by decide⟩

theorem isName_bitmap : IsName bitmapName := ⟨by decide, by decide, by decide, by decide, by decide⟩

theorem requestPath_relative (path : String) : (requestPath path).absolute = false := by
  unfold requestPath
  simp only
  split
  · rfl
  · rename_i h
    exact Bool.eq_false_iff.mpr h

variable {fs : FileSystem} {folder : PathBuf} {req : UploadRequest} {u : Upload}

/-- Where the upload is kept. -/
def uploadPlace (fs : FileSystem) (folder : PathBuf) (req : UploadRequest) : Place :=
  (folder.joinPath (requestPath req.path)).resolve fs.cwd

theorem isSome_node {place : Place} (h : fs.node place ≠ some .dir) :
    (fs.node place).isSome = (fs.content place).isSome := by
  unfold FileSystem.content
  cases hnode : fs.node place with
  | none => rfl
  | some n =>
    cases n with
    | dir => exact absurd hnode h
    | file c => rfl

theorem bitmapEffects_some (disk : Disk) (continueUpload : Bool) (info : ChunkInfo) :
    ∃ buf, (runEffects (bitmapEffects continueUpload info) disk).bitmap = some buf := by
  cases continueUpload <;> exact ⟨_, rfl⟩

theorem fileEffects_file (disk : Disk) (continueUpload : Bool) (info : ChunkInfo) (length : Nat) :
    (runEffects (fileEffects length) (runEffects (bitmapEffects continueUpload info) disk)).file =
      some (resize 0 (disk.file.getD []) length) := by
  cases continueUpload <;> rfl

theorem content_bitmap {fs fs' : FileSystem} {place : Place} (h : fs.openCreate place = some fs')
    (info : ChunkInfo) (disk : Disk) (hdisk : disk.bitmap = fs.content place) :
    ∃ fs'', (if (fs.content place).isSome then fs' else
        fs'.setLen place ((info.numChunks + 7) / 8)) = fs'' ∧
      fs''.content place = (runEffects (bitmapEffects disk.bitmap.isSome info) disk).bitmap ∧
      ∀ q, q ≠ place → fs''.node q = fs.node q := by
  obtain ⟨-, rfl⟩ := FileSystem.openCreate_ok h
  refine ⟨_, rfl, ?_, ?_⟩
  · rw [hdisk]
    cases hc : fs.content place with
    | none => simp [runEffects, bitmapEffects, hdisk, hc, FileSystem.setLen, FileSystem.content_set]
    | some c => simp [runEffects, bitmapEffects, hdisk, hc, FileSystem.content_set]
  · intro q hq
    split <;> simp [FileSystem.setLen, FileSystem.set_node, hq]

theorem storeUpload_ok (h : storeUpload fs folder req = .ok u) :
    (∀ place, place ∈ u.made ↔
      place ∈ (folder.joinPath (requestPath req.path)).way fs.cwd ∧ fs.node place ≠ some .dir) ∧
    u.written = [uploadPlace fs folder req ++ [bitmapName], uploadPlace fs folder req ++ [fileName]] ∧
    Receiver.uploadRequest (diskAt fs (uploadPlace fs folder req)) req.length = .ok u.receiver ∧
    diskAt u.fs (uploadPlace fs folder req) = u.receiver.disk := by
  unfold storeUpload at h
  simp only [Result.bind_eq_ok, Result.unwrap_eq_ok, Result.pure_def, Result.ok.injEq] at h
  obtain ⟨info, hinfo, -, -, ⟨fs₁, made⟩, hmade, fs₂, hopen, _, hmmap, bitmap, hbits, fs₃, hfile,
    rfl⟩ := h
  obtain ⟨hplaces, hcwd, -⟩ := FileSystem.createDirAll_ok hmade
  simp only [PathBuf.resolve_join isName_bitmap, PathBuf.resolve_join isName_file, hcwd]
    at hopen hmmap hbits hfile ⊢
  rw [show (folder.joinPath (requestPath req.path)).resolve fs.cwd = uploadPlace fs folder req from rfl]
    at hopen hmmap hbits hfile ⊢
  generalize uploadPlace fs folder req = place at hopen hmmap hbits hfile ⊢
  have hne : place ++ [fileName] ≠ place ++ [bitmapName] := by
    simp [fileName, bitmapName, OsString.ofString_injective.eq_iff]
  obtain ⟨hnodir, -⟩ := FileSystem.openCreate_ok hopen
  obtain ⟨-, hsame⟩ := FileSystem.createDirAll_content hmade hnodir
  rw [isSome_node hnodir] at hmmap hbits hfile ⊢
  obtain ⟨fs', hfs', hbitmap, hother⟩ := content_bitmap hopen info (diskAt fs place) hsame.symm
  rw [hfs'] at hmmap hbits hfile
  rw [hsame, show fs.content (place ++ [bitmapName]) = (diskAt fs place).bitmap from rfl]
  rw [hbitmap] at hmmap hbits
  -- The stored file, which the bitmap file leaves alone.
  obtain ⟨hnodir', rfl⟩ := FileSystem.openCreate_ok hfile
  rw [hother _ hne] at hnodir'
  have hcontent : fs'.content (place ++ [fileName]) = (diskAt fs place).file := by
    rw [FileSystem.content, hother _ hne, ← FileSystem.content,
      (FileSystem.createDirAll_content hmade hnodir').2]
    rfl
  refine ⟨hplaces, rfl, ?_, ?_⟩
  · unfold Receiver.uploadRequest
    simp only [hinfo, Result.bind_ok, hmmap, hbits, fileEffects_file, Result.pure_def,
      FileSystem.setLen, FileSystem.content_set, if_true, hcontent, Option.getD_some]
  · obtain ⟨hbuf, -⟩ := BitMap.withLength_ok hbits
    obtain ⟨buf, hsome⟩ := bitmapEffects_some (diskAt fs place) (diskAt fs place).bitmap.isSome info
    rw [hsome, Option.getD_some] at hbuf
    rw [hsome] at hbitmap
    unfold diskAt
    simp only [Receiver.disk, FileSystem.setLen, FileSystem.content_set, if_neg hne.symm, if_true,
      Option.getD_some, hbuf, hbitmap]

end DasProtokoll.Csync
