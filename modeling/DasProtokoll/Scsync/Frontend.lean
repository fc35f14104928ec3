import DasProtokoll.Lib.Cbor
import DasProtokoll.Lib.FileSystem
import DasProtokoll.Scsync.BlockDb

/-!
# Directory blocks

Directories, file metadata and leaves are serialized and encrypted into blocks,
and written from the blocks into a folder.
-/

namespace DasProtokoll.Scsync

open DasProtokoll

abbrev Iv := Vector UInt8 16

/-- What the reader and the writer do with a key. The writer takes an initialization vector. -/
class Aes where
  encrypt : Key → Iv → Bytes → Bytes
  decrypt : Key → Bytes → Option Bytes
  decrypt_encrypt : ∀ key iv data, decrypt key (encrypt key iv data) = some data

class Keccak where
  keccak256 : Bytes → BlockId

/-! ## Blocks of the frontend -/

inductive BlockType where
  | Directory
  | FileMeta
  | Leaf
  deriving Repr, DecidableEq

structure Child where
  name : String
  type : BlockType
  blockref : BlockRef
  deriving Repr, DecidableEq

structure Dir where
  children : List Child
  deriving Repr, DecidableEq

structure Meta where
  blocks : List BlockRef
  deriving Repr, DecidableEq

structure Leaf where
  data : Bytes
  deriving Repr, DecidableEq

inductive Decoded where
  | Dir (dir : Dir)
  | Meta (meta_ : Meta)
  | Leaf (leaf : Leaf)
  deriving Repr, DecidableEq

/-- All that is needed to turn values into blocks and back. -/
class Sealing extends Aes, Keccak where
  cborDir : Cbor Dir
  cborMeta : Cbor Meta
  cborLeaf : Cbor Bytes

attribute [reducible, instance] Sealing.cborDir Sealing.cborMeta Sealing.cborLeaf

section Sealing

variable [Sealing]

def fromFull {α : Type} [Cbor α] (full : Full) (key : Key) : Option α := do
  let data ← Aes.decrypt key full.data
  Cbor.fromReader data

/-- `key` and `iv` are what the random number generator gives. -/
def toBlock {α : Type} [Cbor α] (t : α) (key : Key) (iv : Iv) : Full :=
  let data := Aes.encrypt key iv (Cbor.toWriter t)
  { id := Keccak.keccak256 data, data }

theorem fromFull_toBlock {α : Type} [Cbor α] (t : α) (key : Key) (iv : Iv) :
    fromFull (toBlock t key iv) key = some t := by
  simp [fromFull, toBlock, Aes.decrypt_encrypt, Cbor.fromReader_toWriter]

theorem fromFull_congr {α : Type} [Cbor α] {f g : Full} (h : f.data = g.data) (key : Key) :
    fromFull (α := α) f key = fromFull g key := by
  rw [fromFull, fromFull, h]

def Dir.fromFull (full : Full) (key : Key) : Option Dir := Scsync.fromFull full key
def Meta.fromFull (full : Full) (key : Key) : Option Meta := Scsync.fromFull full key
def Leaf.fromFull (full : Full) (key : Key) : Option Leaf :=
  (Scsync.fromFull full key).map fun data => { data }

/-- The block of a child, decoded as its type says. -/
def decodeAs (type : BlockType) (full : Full) (key : Key) : Option Decoded :=
  match type with
  | .Directory => (Dir.fromFull full key).map .Dir
  | .FileMeta => (Meta.fromFull full key).map .Meta
  | .Leaf => (Leaf.fromFull full key).map .Leaf

theorem decodeAs_directory {full : Full} {key : Key} {dir : Dir}
    (h : Dir.fromFull full key = some dir) : decodeAs .Directory full key = some (.Dir dir) := by
  rw [decodeAs, h, Option.map_some]

theorem decodeAs_fileMeta {full : Full} {key : Key} {meta_ : Meta}
    (h : Meta.fromFull full key = some meta_) : decodeAs .FileMeta full key = some (.Meta meta_) := by
  rw [decodeAs, h, Option.map_some]

theorem decodeAs_leaf {full : Full} {key : Key} {leaf : Leaf}
    (h : Leaf.fromFull full key = some leaf) : decodeAs .Leaf full key = some (.Leaf leaf) := by
  rw [decodeAs, h, Option.map_some]

end Sealing

/-! ## Plans -/

/-- File operations in order, up to the result or up to where the program gives up. -/
structure Plan (α : Type) where
  ops : List FsOp
  result : Result α

namespace Plan

variable {α β : Type}

instance : Monad Plan where
  pure a := { ops := [], result := .ok a }
  bind p f :=
    match p.result with
    | .ok a => { ops := p.ops ++ (f a).ops, result := (f a).result }
    | .panic => { ops := p.ops, result := .panic }
    | .diverge => { ops := p.ops, result := .diverge }

def emit (op : FsOp) : Plan Unit := { ops := [op], result := .ok () }

def lift (r : Result α) : Plan α := { ops := [], result := r }

/-- Runs the operations. One that fails is a panic, too. -/
def run (p : Plan α) (fs : FileSystem) : Result (α × FileSystem) := do
  let fs ← Result.unwrap (fs.execAll p.ops)
  let a ← p.result
  return (a, fs)

@[simp] theorem pure_def (a : α) : (pure a : Plan α) = { ops := [], result := .ok a } := rfl

theorem bind_of_ok {p : Plan α} {f : α → Plan β} {a : α} (h : p.result = .ok a) :
    (p >>= f) = { ops := p.ops ++ (f a).ops, result := (f a).result } := by
  simp only [bind, h]

@[simp] theorem lift_ok_bind (a : α) (f : α → Plan β) : (lift (.ok a) >>= f) = f a := rfl

@[simp] theorem emit_bind (op : FsOp) (f : Unit → Plan β) :
    (emit op >>= f) = { ops := op :: (f ()).ops, result := (f ()).result } := rfl

theorem bind_result_eq_ok {p : Plan α} {f : α → Plan β} {b : β} :
    (p >>= f).result = .ok b ↔ ∃ a, p.result = .ok a ∧ (f a).result = .ok b := by
  simp only [bind]
  split <;> simp_all

end Plan

/-! ## Writing a tree -/

namespace BlockDb

variable [Sealing]

def getFull (db : BlockDb) (blockid : BlockId) : Result Full := do
  let block ← db.get blockid
  block.full

def getDir (db : BlockDb) (r : BlockRef) : Result Dir := do
  let full ← db.getFull r.blockid
  Result.unwrap (Dir.fromFull full r.key)

def getMeta (db : BlockDb) (r : BlockRef) : Result Meta := do
  let full ← db.getFull r.blockid
  Result.unwrap (Meta.fromFull full r.key)

def getLeaf (db : BlockDb) (r : BlockRef) : Result Leaf := do
  let full ← db.getFull r.blockid
  Result.unwrap (Leaf.fromFull full r.key)

def writeBlocks (db : BlockDb) (path : PathBuf) : List BlockRef → Plan Unit
  | [] => return ()
  | r :: blocks => do
    let leaf ← Plan.lift (db.getLeaf r)
    Plan.emit (.writeAll path leaf.data)
    db.writeBlocks path blocks

/-- The body of the loop over the children. `writeDir` writes a subdirectory. -/
def writeChild (db : BlockDb) (writeDir : PathBuf → Dir → Plan Unit) (folder : PathBuf) (c : Child) :
    Plan Unit := do
  let path := folder.join (.ofString c.name)
  match c.type with
  | .Leaf =>
    Plan.emit (.create path)
    let leaf ← Plan.lift (db.getLeaf c.blockref)
    Plan.emit (.writeAll path leaf.data)
  | .Directory =>
    Plan.emit (.createDir path)
    let dir ← Plan.lift (db.getDir c.blockref)
    writeDir path dir
  | .FileMeta =>
    Plan.emit (.create path)
    let meta_ ← Plan.lift (db.getMeta c.blockref)
    db.writeBlocks path meta_.blocks

def writeChildren (db : BlockDb) (writeDir : PathBuf → Dir → Plan Unit) (folder : PathBuf) :
    List Child → Plan Unit
  | [] => return ()
  | c :: children => do
    db.writeChild writeDir folder c
    db.writeChildren writeDir folder children

/-- `fuel` bounds the depth of the tree. -/
def writeToDirRec (db : BlockDb) : Nat → PathBuf → Dir → Plan Unit
  | 0, _, _ => Plan.lift .diverge
  | fuel + 1, folder, dir => db.writeChildren (db.writeToDirRec fuel) folder dir.children

def writeToDir (db : BlockDb) (fuel : Nat) (folder : PathBuf) : Plan Unit := do
  -- The folder is cleared first.
  Plan.emit (.removeDirAll folder)
  Plan.emit (.createDir folder)
  let dir ← Plan.lift (db.getDir db.root)
  db.writeToDirRec fuel folder dir

end BlockDb

end DasProtokoll.Scsync
