import DasProtokoll.Csync.Storage
import DasProtokoll.Lib.Files

/-!
# What several uploads leave behind

Each upload has a directory of its own, with the stored file and its bitmap. As
long as no upload is stored on the way to another one, they do not meet.
-/

namespace DasProtokoll.Csync

open DasProtokoll BitteEinBit

/-! ## One upload -/

theorem bitmapName_ne_fileName : bitmapName ≠ fileName := by decide

/-- What an upload has at a place. -/
def entry (x : Place × Disk) (q : Place) : Option Node :=
  if q = x.1 ++ [fileName] then x.2.file.map .file
  else if q = x.1 ++ [bitmapName] then x.2.bitmap.map .file
  else if q <+: x.1 then some .dir
  else none

/-- What the uploads have at a place. -/
def layout (uploads : List (Place × Disk)) (q : Place) : Option Node := uploads.findSome? (entry · q)

/-- The disk of an upload as part of the file system. -/
def storeDisk (fs : FileSystem) (place : Place) (disk : Disk) : FileSystem where
  cwd := fs.cwd
  node q :=
    if q = place ++ [fileName] then disk.file.map .file
    else if q = place ++ [bitmapName] then disk.bitmap.map .file
    else fs.node q

@[simp] theorem storeDisk_cwd (fs : FileSystem) (place : Place) (disk : Disk) :
    (storeDisk fs place disk).cwd = fs.cwd := rfl

theorem storeDisk_node (fs : FileSystem) (place : Place) (disk : Disk) (q : Place) :
    (storeDisk fs place disk).node q = if q = place ++ [fileName] then disk.file.map .file
      else if q = place ++ [bitmapName] then disk.bitmap.map .file else fs.node q := rfl

theorem storeDisk_storeDisk (fs : FileSystem) (place : Place) (disk disk' : Disk) :
    storeDisk (storeDisk fs place disk) place disk' = storeDisk fs place disk' := by
  unfold storeDisk
  congr 1
  funext q
  by_cases hfile : q = place ++ [fileName]
  · simp [hfile]
  · by_cases hbitmap : q = place ++ [bitmapName] <;> simp [hfile, hbitmap]

theorem storeDisk_self {fs : FileSystem} {place : Place} {disk : Disk}
    (hfile : fs.node (place ++ [fileName]) = disk.file.map .file)
    (hbitmap : fs.node (place ++ [bitmapName]) = disk.bitmap.map .file) : storeDisk fs place disk = fs := by
  unfold storeDisk
  congr 1
  funext q
  split
  · rename_i hq
    rw [hq, hfile]
  · split
    · rename_i hq
      rw [hq, hbitmap]
    · rfl

variable {p q : Place} {d d' : Disk} {x : Place × Disk} {l l₁ l₂ : List (Place × Disk)}

theorem entry_below (home : Place) : entry (home ++ p, d) (home ++ q) = entry (p, d) q := by
  simp [entry, List.append_assoc, List.prefix_append_right_inj]

theorem entry_apart (h : Apart x.1 p) (name : OsString) : entry x (p ++ [name]) = none := by
  have hne (n : OsString) : p ++ [name] ≠ x.1 ++ [n] := fun heq => h.ne (List.append_inj_left' heq rfl).symm
  have hpre : ¬ p ++ [name] <+: x.1 := fun hp => h.2 ((List.prefix_append p [name]).trans hp)
  simp [entry, hne, hpre]

theorem entry_on_way (h : Apart x.1 p) (hq : q <+: p) : entry x q = none ∨ entry x q = some .dir := by
  have hne (n : OsString) : q ≠ x.1 ++ [n] := by
    rintro rfl
    exact h.1 ((List.prefix_append _ _).trans hq)
  unfold entry
  rw [if_neg (hne _), if_neg (hne _)]
  split
  · exact Or.inr rfl
  · exact Or.inl rfl

/-! ## All of them -/

theorem layout_append : layout (l₁ ++ l₂) q = (layout l₁ q).or (layout l₂ q) := by
  rw [layout, List.findSome?_append]
  rfl

theorem layout_cons : layout (x :: l) q = (entry x q).or (layout l q) := by
  rw [layout, List.findSome?_cons]
  unfold layout
  cases entry x q <;> rfl

theorem layout_singleton : layout [x] q = entry x q := by
  rw [layout_cons]
  simp [layout]

theorem layout_apart (h : ∀ x ∈ l, Apart x.1 p) (name : OsString) : layout l (p ++ [name]) = none := by
  unfold layout
  rw [List.findSome?_eq_none_iff]
  exact fun x hx => entry_apart (h x hx) name

theorem layout_on_way (h : ∀ x ∈ l, Apart x.1 p) (hq : q <+: p) :
    layout l q = none ∨ layout l q = some .dir := by
  induction l with
  | nil => exact Or.inl rfl
  | cons x l ih =>
    rw [List.forall_mem_cons] at h
    rw [layout_cons]
    rcases entry_on_way h.1 hq with hx | hx
    · simpa [hx] using ih h.2
    · simp [hx]

theorem layout_set (h₁ : ∀ x ∈ l₁, Apart x.1 p) (h₂ : ∀ x ∈ l₂, Apart x.1 p) :
    layout (l₁ ++ (p, d') :: l₂) q = if q = p ++ [fileName] then d'.file.map .file
      else if q = p ++ [bitmapName] then d'.bitmap.map .file else layout (l₁ ++ (p, d) :: l₂) q := by
  have hin (name : OsString) (e : Disk) :
      layout (l₁ ++ (p, e) :: l₂) (p ++ [name]) = entry (p, e) (p ++ [name]) := by
    rw [layout_append, layout_cons, layout_apart h₁, layout_apart h₂]
    simp
  split
  · rename_i hq
    subst hq
    simp [hin, entry]
  · split
    · rename_i hq
      subst hq
      simp [hin, entry, bitmapName_ne_fileName]
    · rename_i hfile hbitmap
      rw [layout_append, layout_append, layout_cons, layout_cons]
      simp [entry, hfile, hbitmap]

theorem layout_snoc (h : ∀ x ∈ l, Apart x.1 p) :
    layout (l ++ [(p, d)]) q = if q = p ++ [fileName] then d.file.map .file
      else if q = p ++ [bitmapName] then d.bitmap.map .file
      else if q <+: p then some .dir else layout l q := by
  rw [layout_append, layout_singleton]
  unfold entry
  split
  · rename_i hq
    rw [hq, layout_apart h, Option.none_or]
  · split
    · rename_i hq
      rw [hq, layout_apart h, Option.none_or]
    · split
      · rename_i hq
        rcases layout_on_way h hq with hl | hl <;> simp [hl]
      · rw [Option.or_none]

/-! ## One request -/

section Request

variable {fs fs' : FileSystem} {folder : PathBuf} {req : UploadRequest} {u : Upload}

theorem storeUpload_frame (h : storeUpload fs folder req = .ok u) :
    u.fs.cwd = fs.cwd ∧ u.receiver.bitmapExists = true ∧
      ∀ q, q ∉ u.written → u.fs.node q = if q ∈ u.made then some .dir else fs.node q := by
  unfold storeUpload at h
  simp only [Result.bind_eq_ok, Result.unwrap_eq_ok, Result.pure_def, Result.ok.injEq] at h
  obtain ⟨info, -, -, -, ⟨fs₁, made⟩, hmade, fs₂, hopen, _, -, bitmap, -, fs₃, hfile, rfl⟩ := h
  obtain ⟨-, hcwd, hnode⟩ := FileSystem.createDirAll_ok hmade
  obtain ⟨-, rfl⟩ := FileSystem.openCreate_ok hopen
  obtain ⟨-, rfl⟩ := FileSystem.openCreate_ok hfile
  refine ⟨?_, rfl, fun q hq => ?_⟩
  · simp only [FileSystem.setLen, FileSystem.set_cwd]
    split <;> simp [hcwd]
  · simp only [List.mem_cons, List.not_mem_nil, or_false, not_or] at hq
    simp only [FileSystem.setLen, FileSystem.set_node, if_neg hq.2]
    split <;> simp [FileSystem.set_node, hq.1, hnode]

theorem storeUpload_written (h : storeUpload fs folder req = .ok u) :
    u.fs.node (uploadPlace fs folder req ++ [fileName]) = u.receiver.disk.file.map .file ∧
      u.fs.node (uploadPlace fs folder req ++ [bitmapName]) = u.receiver.disk.bitmap.map .file := by
  obtain ⟨-, hexists, -⟩ := storeUpload_frame h
  obtain ⟨-, -, -, hdisk⟩ := storeUpload_ok h
  have hfile := congrArg Disk.file hdisk
  have hbitmap := congrArg Disk.bitmap hdisk
  simp only [diskAt, Receiver.disk, hexists, if_true] at hfile hbitmap ⊢
  exact ⟨FileSystem.node_of_content hfile, FileSystem.node_of_content hbitmap⟩

theorem storeUpload_total (h64 : req.length < u64Size) (hpos : 0 < req.length)
    (hnul : 0 ∉ OsString.ofString req.path) {made : List Place}
    (hmade : fs.createDirAll (folder.joinPath (requestPath req.path)) = some (fs', made))
    (hdir : fs'.node (uploadPlace fs folder req) = some .dir)
    (hnew : ∀ name, fs'.node (uploadPlace fs folder req ++ [name]) = none) :
    ∃ u, storeUpload fs folder req = .ok u := by
  obtain ⟨info, hinfo, g⟩ := indexFieldSize_spec h64
  obtain ⟨-, hcwd, -⟩ := FileSystem.createDirAll_ok hmade
  have hchunks : 0 < info.numChunks := by
    have := g.length_le
    exact Nat.pos_of_ne_zero fun hz => by rw [hz, Nat.zero_mul] at this; omega
  have hplace : (folder.joinPath (requestPath req.path)).resolve fs.cwd = uploadPlace fs folder req := rfl
  have hopen : fs'.openCreate (uploadPlace fs folder req ++ [bitmapName]) = some _ :=
    FileSystem.openCreate_new (hnew _) (by rwa [List.dropLast_concat])
  have hne : uploadPlace fs folder req ++ [fileName] ≠ uploadPlace fs folder req ++ [bitmapName] := by
    simp [bitmapName_ne_fileName.symm]
  have hself : uploadPlace fs folder req ≠ uploadPlace fs folder req ++ [bitmapName] := by simp
  have hlarge : info.numChunks ≤ (List.replicate ((info.numChunks + 7) / 8) (0 : UInt8)).length * 8 := by
    rw [List.length_replicate]
    omega
  have hmap : List.replicate ((info.numChunks + 7) / 8) (0 : UInt8) ≠ [] := by
    rw [ne_eq, List.replicate_eq_nil_iff]
    omega
  obtain ⟨bitmap, hbitmap, -⟩ := BitMap.withLength_eq hlarge
  have hempty : resize (0 : UInt8) [] ((info.numChunks + 7) / 8) =
      List.replicate ((info.numChunks + 7) / 8) 0 := by
    simp [resize]
  have hfile (c : Bytes) :
      (fs'.set (uploadPlace fs folder req ++ [bitmapName]) (.file c)).openCreate
        (uploadPlace fs folder req ++ [fileName]) = some _ :=
    FileSystem.openCreate_new (by rw [FileSystem.set_node, if_neg hne, hnew])
      (by rwa [List.dropLast_concat, FileSystem.set_node, if_neg hself])
  unfold storeUpload
  simp only [hinfo, Result.bind_ok, Result.assert_of hnul, hmade, Result.unwrap_some,
    PathBuf.resolve_join isName_bitmap, PathBuf.resolve_join isName_file, hcwd, hplace, hnew, hopen,
    Option.isSome_none, Bool.false_eq_true, if_false, FileSystem.setLen, FileSystem.content_set, if_true,
    FileSystem.set_set, Option.getD_some, hempty, Result.assert_of hmap, hbitmap, hfile, Result.pure_def]
  exact ⟨_, rfl⟩

end Request

end DasProtokoll.Csync
