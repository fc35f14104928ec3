import DasProtokoll.Scsync.Frontend
import Mathlib.Logic.Relation

/-!
# Traversing a tree of blocks

A visitor is called for each block below the root and can end the traversal with
a value. It is not called for the leaves of file metadata.
-/

namespace DasProtokoll.Scsync

open DasProtokoll

/-- The state of the visitor goes through all calls. -/
structure Visitor (σ τ : Type) where
  visitDir : σ → PathBuf → Full → Dir → σ × Option τ
  visitMeta : σ → BlockDb → PathBuf → Full → Meta → σ × Option τ
  visitLeaf : σ → PathBuf → Full → Leaf → σ × Option τ
  visitPartial : σ → PathBuf → Partial → σ × Option τ
  visitMissing : σ → PathBuf → BlockId → σ × Option τ

variable {σ τ : Type} [Sealing]

/-- The loop over the children of the directory block `bref`. `rec_` goes on below a child. -/
def traverseChildren (db : BlockDb) (v : Visitor σ τ)
    (rec_ : PathBuf → BlockRef → Decoded → σ → Result (σ × Option τ)) (path : PathBuf)
    (bref : BlockRef) : List Child → σ → Result (σ × Option τ)
  | [], s => return (s, none)
  | c :: children, s => do
    let (s, t) ← match db.lookup c.blockref.blockid with
      | none => pure (v.visitMissing s path bref.blockid)
      | some (.Partial p) => pure (v.visitPartial s path p)
      | some (.Full full) => do
        let dec ← Result.unwrap (decodeAs c.type full c.blockref.key)
        rec_ (path.join (.ofString c.name)) c.blockref dec s
    match t with
    | some t => return (s, some t)
    | none => traverseChildren db v rec_ path bref children s

/-- `fuel` bounds the depth of the tree. -/
def traverseRec (db : BlockDb) (v : Visitor σ τ) :
    Nat → PathBuf → BlockRef → Decoded → σ → Result (σ × Option τ)
  | 0, _, _, _, _ => .diverge
  | fuel + 1, path, bref, dec, s =>
    match db.lookup bref.blockid with
    | none => return v.visitMissing s path bref.blockid
    | some (.Partial p) => return v.visitPartial s path p
    | some (.Full full) =>
      match dec with
      | .Dir dir =>
        match v.visitDir s path full dir with
        | (s, some t) => return (s, some t)
        | (s, none) =>
          traverseChildren db v (traverseRec db v fuel) path bref dir.children s
      | .Meta meta_ => return v.visitMeta s db path full meta_
      | .Leaf leaf => return v.visitLeaf s path full leaf

def traverse (db : BlockDb) (v : Visitor σ τ) (fuel : Nat) (root : BlockRef) (s : σ) :
    Result (σ × Option τ) := do
  let full ← db.getFull root.blockid
  let dir ← Result.unwrap (Dir.fromFull full root.key)
  let path : PathBuf := { absolute := false, components := [] }
  match v.visitDir s path full dir with
  | (s, some t) => return (s, some t)
  | (s, none) => traverseRec db v fuel path root (.Dir dir) s

/-- Looks for the block with the given id. -/
def resolveBlockVisitor (blockid : BlockId) : Visitor Unit Decoded where
  visitDir _ _ block dir := ((), if block.id = blockid then some (.Dir dir) else none)
  visitMeta _ _ _ block meta_ := ((), if block.id = blockid then some (.Meta meta_) else none)
  visitLeaf _ _ block leaf := ((), if block.id = blockid then some (.Leaf leaf) else none)
  visitPartial _ _ _ := ((), none)
  visitMissing _ _ _ := ((), none)

/-- Ends at the first block that is not full. -/
def verifyVisitor : Visitor Unit Unit where
  visitDir _ _ _ _ := ((), none)
  visitMeta _ _ _ _ _ := ((), none)
  visitLeaf _ _ _ _ := ((), none)
  visitPartial _ _ _ := ((), some ())
  visitMissing _ _ _ := ((), some ())

def BlockDb.rootRef (db : BlockDb) (pending : Bool) : Result BlockRef :=
  if pending then Result.unwrap db.pendingRoot else return db.root

def resolve (db : BlockDb) (fuel : Nat) (blockid : BlockId) (pending : Bool) : Result Decoded := do
  let root ← db.rootRef pending
  let (_, t) ← traverse db (resolveBlockVisitor blockid) fuel root ()
  Result.unwrap t

def verify (db : BlockDb) (fuel : Nat) (pending : Bool) : Result Bool := do
  let root ← db.rootRef pending
  let (_, t) ← traverse db verifyVisitor fuel root ()
  return t.isNone

end DasProtokoll.Scsync
