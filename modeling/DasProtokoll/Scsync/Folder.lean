import DasProtokoll.Scsync.Frontend

/-!
# From a folder to blocks and back

A folder is walked with the contents of each directory in front of it, and each
file and directory becomes a block with a key of its own. What the writer makes
of these blocks is the folder, except for names that are no UTF-8.
-/

namespace DasProtokoll

namespace Forest

/-- The same tree with other names. -/
def mapNames (g : OsString → OsString) : Forest → Forest
  | nil => nil
  | file name content rest => file (g name) content (rest.mapNames g)
  | dir name entries rest => dir (g name) (entries.mapNames g) (rest.mapNames g)

def Utf8 : Forest → Prop
  | nil => True
  | file name _ rest => (∃ s, OsString.ofString s = name) ∧ rest.Utf8
  | dir name entries rest => (∃ s, OsString.ofString s = name) ∧ entries.Utf8 ∧ rest.Utf8

end Forest

/-- What is left of a name that goes through a string. -/
def OsString.lossy (name : OsString) : OsString := ofString name.toStringLossy

theorem OsString.lossy_of_string {name : OsString} (h : ∃ s, ofString s = name) : name.lossy = name := by
  obtain ⟨s, rfl⟩ := h
  rw [lossy, toStringLossy_ofString]

theorem Forest.mapNames_lossy {F : Forest} (h : F.Utf8) : F.mapNames OsString.lossy = F := by
  induction F with
  | nil => rfl
  | file name content rest ih =>
    rw [mapNames, OsString.lossy_of_string h.1, ih h.2]
  | dir name entries rest ihe ih =>
    rw [mapNames, OsString.lossy_of_string h.1, ihe h.2.1, ih h.2.2]

namespace Scsync

open DasProtokoll

/-! ## Walking a folder -/

inductive FileType where
  | file (content : Bytes)
  | dir
  /-- Symlinks, and what is neither. -/
  | other
  deriving Repr, DecidableEq

structure Entry where
  path : PathBuf
  fileName : OsString
  fileType : FileType
  deriving Repr, DecidableEq

/-- The entries below a directory, the contents of each subdirectory first. -/
def walk (path : PathBuf) : Forest → List Entry
  | .nil => []
  | .file name content rest =>
    { path := path.join name, fileName := name, fileType := .file content } :: walk path rest
  | .dir name entries rest =>
    walk (path.join name) entries ++
      { path := path.join name, fileName := name, fileType := .dir } :: walk path rest

def walkDir (folder : PathBuf) (F : Forest) : List Entry :=
  walk folder F ++
    [{ path := folder, fileName := folder.normal.components.getLast?.getD [], fileType := .dir }]

/-- `map` holds the children that wait for their directory, under its normal form, `created` the blocks
in the order in which they are made. -/
structure FolderState where
  map : Finmap fun _ : PathBuf => List Child
  created : List Full
  root : Option BlockRef

/-- What waits for the directory. -/
def FolderState.waiting (s : FolderState) (path : PathBuf) : List Child :=
  (s.map.lookup path.normal).getD []

def FolderState.push (s : FolderState) (parent : PathBuf) (child : Child) : FolderState :=
  { s with map := s.map.insert parent.normal (s.waiting parent ++ [child]) }

/-- More children that wait for the directory, and more blocks. -/
def FolderState.extend (s : FolderState) (path : PathBuf) (children : List Child) (blocks : List Full) :
    FolderState where
  map := if children = [] then s.map else s.map.insert path.normal (s.waiting path ++ children)
  created := s.created ++ blocks
  root := s.root

/-- Nothing waits for a directory below the path. -/
def FolderState.Clear (s : FolderState) (path : PathBuf) : Prop :=
  ∀ n q, s.map.lookup { path.normal with components := path.normal.components ++ n :: q } = none

section Extend

variable {s : FolderState} {path : PathBuf} {children children' : List Child}
  {blocks blocks' : List Full}

theorem FolderState.extend_nil : s.extend path [] [] = s := by
  simp [extend]

theorem FolderState.lookup_extend_ne {q : PathBuf} (h : q ≠ path.normal) :
    (s.extend path children blocks).map.lookup q = s.map.lookup q := by
  simp only [extend]
  split
  · rfl
  · exact Finmap.lookup_insert_of_ne _ h

theorem FolderState.waiting_extend :
    (s.extend path children blocks).waiting path = s.waiting path ++ children := by
  by_cases hc : children = [] <;> simp [extend, waiting, hc]

theorem FolderState.extend_extend :
    (s.extend path children blocks).extend path children' blocks' =
      s.extend path (children ++ children') (blocks ++ blocks') := by
  by_cases hc' : children' = []
  · simp [extend, hc']
  · by_cases hc : children = []
    · simp [extend, waiting, hc, hc']
    · simp [extend, waiting, hc, hc', Finmap.insert_insert]

theorem FolderState.waiting_normal (s : FolderState) (path : PathBuf) :
    s.waiting path.normal = s.waiting path := by
  rw [waiting, waiting, PathBuf.normal_normal]

theorem FolderState.extend_normal : s.extend path.normal children blocks = s.extend path children blocks := by
  rw [extend, extend, waiting_normal, PathBuf.normal_normal]

theorem FolderState.push_normal (child : Child) : s.push path.normal child = s.push path child := by
  rw [push, push, waiting_normal, PathBuf.normal_normal]

theorem FolderState.push_eq_extend (child : Child) (block : Full) :
    { s.push path child with created := s.created ++ [block] } = s.extend path [child] [block] := by
  simp [push, extend]

theorem FolderState.Clear.extend (h : s.Clear path) :
    (s.extend path children blocks).Clear path := by
  intro n q
  rw [lookup_extend_ne, h]
  intro heq
  simpa using congrArg PathBuf.components heq

theorem FolderState.Clear.join (h : s.Clear path) {name : OsString} (hname : IsName name) :
    s.Clear (path.join name) := by
  intro n q
  have := h name (n :: q)
  rwa [PathBuf.normal_join hname, List.append_assoc, List.singleton_append]

theorem FolderState.erase_extend (h : s.map.lookup path.normal = none) :
    (s.extend path children blocks).map.erase path.normal = s.map := by
  apply Finmap.ext_lookup
  intro q
  by_cases hq : q = path.normal
  · subst hq
    rw [Finmap.lookup_erase, h]
  · rw [Finmap.lookup_erase_ne hq, lookup_extend_ne hq]

end Extend

section Sealing

variable [Sealing]

/-- The body of the loop. `rand` is the key and the vector for each block in turn. -/
def visitEntry (rand : Nat → Key × Iv) (folder : PathBuf) (s : FolderState) (file : Entry) :
    Result FolderState := do
  Result.assert (s.root = none)
  let (key, iv) := rand s.created.length
  let name := file.fileName.toStringLossy
  match file.fileType with
  | .other => return s
  | .file content =>
    let block := toBlock content key iv
    let parent ← Result.unwrap file.path.parent
    let child := { name, type := .Leaf, blockref := { blockid := block.id, key, hints := [] } }
    return { s.push parent child with created := s.created ++ [block] }
  | .dir =>
    let dir : Dir := { children := s.waiting file.path }
    let block := toBlock dir key iv
    let s := { s with map := s.map.erase file.path.normal }
    let parent ← Result.unwrap file.path.parent
    let child := { name, type := .Directory, blockref := { blockid := block.id, key, hints := [] } }
    return { s.push parent child with
      created := s.created ++ [block]
      root :=
        if file.path.normal = folder.normal then some { blockid := block.id, key, hints := [] } else s.root }

def visitEntries (rand : Nat → Key × Iv) (folder : PathBuf) (s : FolderState) :
    List Entry → Result FolderState
  | [] => return s
  | file :: files => do
    let s ← visitEntry rand folder s file
    visitEntries rand folder s files

/-- The root and all blocks in the order in which they are inserted. -/
def folderBlocks (rand : Nat → Key × Iv) (folder : PathBuf) (F : Forest) :
    Result (BlockRef × List Full) := do
  let s ← visitEntries rand folder { map := ∅, created := [], root := none } (walkDir folder F)
  let root ← Result.unwrap s.root
  return (root, s.created)

def insertAll (blocks : List Full) : Finmap fun _ : BlockId => Block :=
  blocks.foldl (fun map block => map.insert block.id (.Full block)) ∅

def blockdbFromFolder (rand : Nat → Key × Iv) (folder : PathBuf) (F : Forest) : Result BlockDb := do
  let (root, blocks) ← folderBlocks rand folder F
  return BlockDb.new root (insertAll blocks)

/-! ## What the blocks stand for -/

/-- The children are the entries of a directory, one by one, with their blocks at hand. -/
def Represents (has : BlockId → Full → Prop) : List Child → Forest → Prop
  | [], .nil => True
  | c :: children, .file name content rest =>
    c.name = name.toStringLossy ∧ c.type = .Leaf ∧
      (∃ f, has c.blockref.blockid f ∧ Leaf.fromFull f c.blockref.key = some { data := content }) ∧
      Represents has children rest
  | c :: children, .dir name entries rest =>
    c.name = name.toStringLossy ∧ c.type = .Directory ∧
      (∃ f dir, has c.blockref.blockid f ∧ Dir.fromFull f c.blockref.key = some dir ∧
        Represents has dir.children entries) ∧
      Represents has children rest
  | _, _ => False

/-- The root directory with all below it. -/
def RootRepresents (has : BlockId → Full → Prop) (root : BlockRef) (F : Forest) : Prop :=
  ∃ f dir, has root.blockid f ∧ Dir.fromFull f root.key = some dir ∧ Represents has dir.children F

/-- The induction over the children and their entries at once. -/
@[elab_as_elim]
theorem Represents.induction {has : BlockId → Full → Prop}
    {motive : (children : List Child) → (F : Forest) → Represents has children F → Prop}
    (nil : motive [] .nil trivial)
    (file : ∀ c children name content rest f (hname : c.name = name.toStringLossy)
      (htype : c.type = .Leaf) (hf : has c.blockref.blockid f)
      (hleaf : Leaf.fromFull f c.blockref.key = some { data := content })
      (hrest : Represents has children rest), motive children rest hrest →
        motive (c :: children) (.file name content rest) ⟨hname, htype, ⟨f, hf, hleaf⟩, hrest⟩)
    (dir : ∀ c children name entries rest f d (hname : c.name = name.toStringLossy)
      (htype : c.type = .Directory) (hf : has c.blockref.blockid f)
      (hdir : Dir.fromFull f c.blockref.key = some d)
      (hentries : Represents has d.children entries) (hrest : Represents has children rest),
      motive d.children entries hentries → motive children rest hrest →
        motive (c :: children) (.dir name entries rest)
          ⟨hname, htype, ⟨f, d, hf, hdir, hentries⟩, hrest⟩)
    {children : List Child} {F : Forest} (hr : Represents has children F) : motive children F hr := by
  induction F generalizing children with
  | nil =>
    cases children with
    | nil => exact nil
    | cons c children => exact hr.elim
  | file name content rest ih =>
    cases children with
    | nil => exact hr.elim
    | cons c children =>
      obtain ⟨hname, htype, ⟨f, hf, hleaf⟩, hrest⟩ := hr
      exact file c children name content rest f hname htype hf hleaf hrest (ih hrest)
  | dir name entries rest ihe ih =>
    cases children with
    | nil => exact hr.elim
    | cons c children =>
      obtain ⟨hname, htype, ⟨f, d, hf, hdir, hentries⟩, hrest⟩ := hr
      exact dir c children name entries rest f d hname htype hf hdir hentries hrest (ihe hentries)
        (ih hrest)

theorem Represents.mono {has has' : BlockId → Full → Prop} (h : ∀ id f, has id f → has' id f)
    {children : List Child} {F : Forest} (hr : Represents has children F) :
    Represents has' children F := by
  induction hr using Represents.induction with
  | nil => trivial
  | file c children name content rest f hname htype hf hleaf _ ih =>
    exact ⟨hname, htype, ⟨f, h _ _ hf, hleaf⟩, ih⟩
  | dir c children name entries rest f d hname htype hf hdir _ _ ihe ih =>
    exact ⟨hname, htype, ⟨f, d, h _ _ hf, hdir, ihe⟩, ih⟩

/-! ## The blocks of a tree -/

/-- The children of a directory and all blocks below it, when `n` blocks were made before. -/
def sealForest (rand : Nat → Key × Iv) : Nat → Forest → List Child × List Full
  | _, .nil => ([], [])
  | n, .file name content rest =>
    let block := toBlock content (rand n).1 (rand n).2
    let child :=
      { name := name.toStringLossy
        type := .Leaf
        blockref := { blockid := block.id, key := (rand n).1, hints := [] } }
    let after := sealForest rand (n + 1) rest
    (child :: after.1, block :: after.2)
  | n, .dir name entries rest =>
    let below := sealForest rand n entries
    let m := n + below.2.length
    let block := toBlock ({ children := below.1 } : Dir) (rand m).1 (rand m).2
    let child :=
      { name := name.toStringLossy, type := .Directory
        blockref := { blockid := block.id, key := (rand m).1, hints := [] } }
    let after := sealForest rand (m + 1) rest
    (child :: after.1, below.2 ++ block :: after.2)

theorem sealForest_represents (rand : Nat → Key × Iv) (n : Nat) (F : Forest) :
    Represents (fun id f => f ∈ (sealForest rand n F).2 ∧ f.id = id) (sealForest rand n F).1 F := by
  induction F generalizing n with
  | nil => trivial
  | file name content rest ih =>
    refine ⟨rfl, rfl, ⟨_, ⟨List.mem_cons_self, rfl⟩, ?_⟩, (ih (n + 1)).mono ?_⟩
    · rw [Leaf.fromFull, fromFull_toBlock]
      rfl
    · exact fun id f hf => ⟨List.mem_cons_of_mem _ hf.1, hf.2⟩
  | dir name entries rest ihe ih =>
    refine ⟨rfl, rfl, ⟨_, { children := (sealForest rand n entries).1 }, ⟨?_, rfl⟩, ?_, ?_⟩, ?_⟩
    · exact List.mem_append_right _ List.mem_cons_self
    · exact fromFull_toBlock _ _ _
    · exact (ihe n).mono fun id f hf => ⟨List.mem_append_left _ hf.1, hf.2⟩
    · refine (ih _).mono fun id f hf => ⟨List.mem_append_right _ ?_, hf.2⟩
      exact List.mem_cons_of_mem _ hf.1

/-! ## The walk -/

theorem visitEntry_file {rand : Nat → Key × Iv} {folder path : PathBuf} {s : FolderState}
    (hroot : s.root = none) {name : OsString} (hname : IsName name) (content : Bytes) :
    let block := toBlock content (rand s.created.length).1 (rand s.created.length).2
    visitEntry rand folder s
        { path := path.join name, fileName := name, fileType := .file content } =
      .ok (s.extend path [{
        name := name.toStringLossy, type := .Leaf
        blockref := { blockid := block.id, key := (rand s.created.length).1, hints := [] } }] [block]) := by
  simp only [visitEntry, Result.assert_of hroot, Result.bind_ok, PathBuf.parent_join hname,
    Result.unwrap_some, Result.pure_def, FolderState.push_eq_extend, FolderState.extend_normal]

theorem visitEntry_dir {rand : Nat → Key × Iv} {folder path : PathBuf} {s : FolderState}
    (hroot : s.root = none) {name : OsString} (hname : IsName name)
    (hfolder : (path.join name).normal ≠ folder.normal)
    (hnone : s.map.lookup (path.join name).normal = none)
    (children : List Child) (blocks : List Full) :
    let m := s.created.length + blocks.length
    let block := toBlock ({ children } : Dir) (rand m).1 (rand m).2
    visitEntry rand folder (s.extend (path.join name) children blocks)
        { path := path.join name, fileName := name, fileType := .dir } =
      .ok (s.extend path [{
        name := name.toStringLossy, type := .Directory
        blockref := { blockid := block.id, key := (rand m).1, hints := [] } }] (blocks ++ [block])) := by
  have hwaiting : (s.extend (path.join name) children blocks).waiting (path.join name) = children := by
    rw [FolderState.waiting_extend, FolderState.waiting, hnone]
    rfl
  have hcreated : (s.extend (path.join name) children blocks).created = s.created ++ blocks := rfl
  have hextroot : (s.extend (path.join name) children blocks).root = none := hroot
  rw [visitEntry, Result.assert_of hextroot]
  simp only [Result.bind_ok, PathBuf.parent_join hname, Result.unwrap_some, Result.pure_def, hwaiting,
    FolderState.erase_extend hnone, hcreated, List.length_append, if_neg hfolder, hextroot,
    FolderState.push_normal]
  simp [FolderState.extend, FolderState.push, FolderState.waiting, hroot]

theorem visitEntries_walk {rand : Nat → Key × Iv} {folder path : PathBuf} {s : FolderState} {F : Forest}
    (hF : F.WellFormed) (hroot : s.root = none) (hclear : s.Clear path)
    (hbelow : folder.normal.components.length ≤ path.normal.components.length) (tail : List Entry) :
    let made := sealForest rand s.created.length F
    visitEntries rand folder s (walk path F ++ tail) =
      visitEntries rand folder (s.extend path made.1 made.2) tail := by
  induction F generalizing path s tail with
  | nil => simp [walk, sealForest, FolderState.extend_nil]
  | file name content rest ih =>
    obtain ⟨hname, -, hrest⟩ := hF
    have hafter children blocks :=
      ih (s := s.extend path children blocks) hrest hroot hclear.extend hbelow tail
    rw [walk, List.cons_append, visitEntries, visitEntry_file hroot hname, Result.bind_ok, hafter,
      FolderState.extend_extend]
    simp [sealForest, FolderState.extend]
  | dir name entries rest ihe ih =>
    obtain ⟨hname, -, hentries, hrest⟩ := hF
    have hlonger : (path.join name).normal.components.length = path.normal.components.length + 1 := by
      simp [PathBuf.normal_join hname]
    have hfolder : (path.join name).normal ≠ folder.normal := by
      intro heq
      rw [heq] at hlonger
      omega
    have hnone : s.map.lookup (path.join name).normal = none := by
      rw [PathBuf.normal_join hname]
      exact hclear name []
    have hafter children blocks :=
      ih (s := s.extend path children blocks) hrest hroot hclear.extend hbelow tail
    rw [walk, List.append_assoc, List.cons_append,
      ihe hentries hroot (hclear.join hname) (by omega), visitEntries,
      visitEntry_dir hroot hname hfolder hnone, Result.bind_ok, hafter, FolderState.extend_extend]
    simp [sealForest, FolderState.extend, Nat.add_assoc]

theorem folderBlocks_ok {rand : Nat → Key × Iv} {folder : PathBuf} {F : Forest} (hF : F.WellFormed)
    {root : BlockRef} {blocks : List Full} (h : folderBlocks rand folder F = .ok (root, blocks)) :
    let made := sealForest rand 0 F
    let block := toBlock ({ children := made.1 } : Dir) (rand made.2.length).1 (rand made.2.length).2
    root = { blockid := block.id, key := (rand made.2.length).1, hints := [] } ∧
      blocks = made.2 ++ [block] := by
  have hwalk := @visitEntries_walk _ rand folder folder
    { map := ∅, created := [], root := none } F hF rfl (fun _ _ => Finmap.lookup_empty _) le_rfl
    [{ path := folder, fileName := folder.normal.components.getLast?.getD [], fileType := .dir }]
  have hwaiting : FolderState.waiting (FolderState.extend { map := ∅, created := [], root := none }
      folder (sealForest rand 0 F).1 (sealForest rand 0 F).2) folder = (sealForest rand 0 F).1 := by
    rw [FolderState.waiting_extend]
    rfl
  rw [folderBlocks, walkDir, hwalk] at h
  simp only [visitEntries, visitEntry, List.length_nil, hwaiting, if_true, Result.bind_eq_ok,
    Result.assert_eq_ok, Result.unwrap_eq_ok, Result.pure_def, Result.ok.injEq, Prod.mk.injEq] at h
  obtain ⟨s, ⟨_, ⟨_, _, parent, -, rfl⟩, rfl⟩, root', hr, rfl, rfl⟩ := h
  simp only [FolderState.extend, List.nil_append, Option.some.injEq] at hr ⊢
  exact ⟨hr.symm, trivial⟩

end Sealing

end Scsync

end DasProtokoll
