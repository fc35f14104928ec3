import DasProtokoll.Lib.Result
import DasProtokoll.Lib.Varint
import Mathlib.Data.Finmap

/-!
# The block database

Blocks by their ids. A block is partial until all of its chunks are there, and a
full block stays as it is.
-/

namespace DasProtokoll.Scsync

open DasProtokoll

abbrev BlockId := Vector UInt8 32
abbrev Key := Vector UInt8 16

mutual

structure BlockRef where
  blockid : BlockId
  key : Key
  hints : List Hint
  deriving Repr

structure Hint where
  blockref : BlockRef
  offset : UInt64
  length : UInt64
  deriving Repr

end

mutual

def BlockRef.decEq : (r r' : BlockRef) → Decidable (r = r')
  | ⟨blockid, key, hints⟩, ⟨blockid', key', hints'⟩ =>
    have := Hint.decEqList hints hints'
    decidable_of_iff (blockid = blockid' ∧ key = key' ∧ hints = hints') (by simp)

def Hint.decEq : (h h' : Hint) → Decidable (h = h')
  | ⟨r, offset, length⟩, ⟨r', offset', length'⟩ =>
    have := BlockRef.decEq r r'
    decidable_of_iff (r = r' ∧ offset = offset' ∧ length = length') (by simp)

def Hint.decEqList : (hs hs' : List Hint) → Decidable (hs = hs')
  | [], [] => isTrue rfl
  | [], _ :: _ => isFalse (by simp)
  | _ :: _, [] => isFalse (by simp)
  | h :: hs, h' :: hs' =>
    have := Hint.decEq h h'
    have := Hint.decEqList hs hs'
    decidable_of_iff (h = h' ∧ hs = hs') (by simp)

end

instance : DecidableEq BlockRef := BlockRef.decEq

structure Partial where
  id : BlockId
  data : Bytes
  available : List Bool
  deriving Repr, DecidableEq

structure Full where
  id : BlockId
  data : Bytes
  deriving Repr, DecidableEq

inductive Block where
  | Partial (block : Partial)
  | Full (block : Full)
  deriving Repr, DecidableEq

namespace Block

def id : Block → BlockId
  | .Partial p => p.id
  | .Full f => f.id

def full : Block → Result Scsync.Full
  | .Full f => .ok f
  | .Partial _ => .panic

/-- `partial` and `partial_mut`. -/
def partialRef : Block → Result Scsync.Partial
  | .Full _ => .panic
  | .Partial p => .ok p

def len : Block → Nat
  | .Full f => f.data.length
  | .Partial p => p.data.length

end Block

/-- `pendingRoot` is the root that is being downloaded. -/
structure BlockDb where
  root : BlockRef
  pendingRoot : Option BlockRef
  blocks : Finmap fun _ : BlockId => Block

namespace BlockDb

def new (root : BlockRef) (blocks : Finmap fun _ : BlockId => Block) : BlockDb :=
  { root, pendingRoot := none, blocks }

def lookup (db : BlockDb) (id : BlockId) : Option Block := db.blocks.lookup id

def setPendingRoot (db : BlockDb) (pendingRoot : BlockRef) : BlockDb :=
  { db with pendingRoot := some pendingRoot }

/-- Also returns the old root. -/
def applyPending (db : BlockDb) : Result (BlockRef × BlockDb) := do
  let pendingRoot ← Result.unwrap db.pendingRoot
  return (db.root, { db with root := pendingRoot, pendingRoot := none })

def contains (db : BlockDb) (id : BlockId) : Bool := (db.lookup id).isSome

def get (db : BlockDb) (id : BlockId) : Result Block := Result.unwrap (db.lookup id)

/-- Writes through the reference that `get_mut` returns. -/
def set (db : BlockDb) (id : BlockId) (block : Block) : BlockDb :=
  { db with blocks := db.blocks.insert id block }

/-- A block that is there already is kept. -/
def add (db : BlockDb) (block : Block) : BlockDb :=
  if db.contains block.id then db else db.set block.id block

def tryPromote (db : BlockDb) (id : BlockId) : Result (Bool × BlockDb) := do
  let block ← db.get id
  let p ← block.partialRef
  if !p.available.all fun b => b then return (false, db)
  return (true, db.set id (.Full { id := p.id, data := p.data }))

/-! ## Lookups -/

section Lookup

variable {db db' : BlockDb} {id id' : BlockId} {block : Block}

@[simp] theorem get_eq_ok : db.get id = .ok block ↔ db.lookup id = some block :=
  Result.unwrap_eq_ok

theorem full_unique {f g : Full} (hf : db.lookup id = some (.Full f))
    (hg : db.lookup id = some (.Full g)) : f = g :=
  Block.Full.inj (Option.some.inj (hf.symm.trans hg))

@[simp] theorem contains_eq_true : db.contains id = true ↔ ∃ b, db.lookup id = some b :=
  Option.isSome_iff_exists

theorem contains_eq_false : db.contains id = false ↔ db.lookup id = none := by
  simp [contains]

@[simp] theorem lookup_set_self : (db.set id block).lookup id = some block :=
  Finmap.lookup_insert _

theorem lookup_set_ne (h : id' ≠ id) : (db.set id block).lookup id' = db.lookup id' :=
  Finmap.lookup_insert_of_ne _ h

@[simp] theorem set_root : (db.set id block).root = db.root := rfl
@[simp] theorem set_pendingRoot : (db.set id block).pendingRoot = db.pendingRoot := rfl
@[simp] theorem setPendingRoot_lookup (r : BlockRef) (id : BlockId) :
    (db.setPendingRoot r).lookup id = db.lookup id := rfl

theorem set_lookup (h : db.lookup id = some block) : db.set id block = db := by
  have hblocks : db.blocks.insert id block = db.blocks := by
    apply Finmap.ext_lookup
    intro x
    by_cases hx : x = id
    · subst hx
      rw [Finmap.lookup_insert]
      exact h.symm
    · exact Finmap.lookup_insert_of_ne _ hx
  rw [set, hblocks]

theorem add_of_some (h : db.lookup block.id = some block') : db.add block = db := by
  rw [add, if_pos (contains_eq_true.mpr ⟨_, h⟩)]

theorem add_of_none (h : db.lookup block.id = none) : db.add block = db.set block.id block := by
  rw [add, if_neg (by rw [contains_eq_false.mpr h]; simp)]

theorem lookup_add_of_some {b : Block} (h : db.lookup id = some b) :
    (db.add block).lookup id = some b := by
  by_cases hb : ∃ b', db.lookup block.id = some b'
  · obtain ⟨b', hb'⟩ := hb
    rw [add_of_some hb', h]
  · have hnone : db.lookup block.id = none := by
      rw [Option.eq_none_iff_forall_ne_some]
      exact fun b' hb' => hb ⟨b', hb'⟩
    rw [add_of_none hnone, lookup_set_ne, h]
    rintro rfl
    rw [hnone] at h
    cases h

theorem lookup_add {b : Block} (h : (db.add block).lookup id = some b) :
    db.lookup id = some b ∨ id = block.id ∧ b = block ∧ db.lookup id = none := by
  cases hb : db.lookup block.id with
  | some b' =>
    rw [add_of_some hb] at h
    exact Or.inl h
  | none =>
    rw [add_of_none hb] at h
    by_cases hid : id = block.id
    · subst hid
      rw [lookup_set_self, Option.some.injEq] at h
      exact Or.inr ⟨rfl, h.symm, hb⟩
    · rw [lookup_set_ne hid] at h
      exact Or.inl h

@[simp] theorem add_root : (db.add block).root = db.root := by
  unfold add
  split <;> rfl

@[simp] theorem add_pendingRoot : (db.add block).pendingRoot = db.pendingRoot := by
  unfold add
  split <;> rfl

theorem tryPromote_ok {promoted : Bool} (h : db.tryPromote id = .ok (promoted, db')) :
    ∃ p, db.lookup id = some (.Partial p) ∧
      ((promoted = false ∧ db' = db ∧ ∃ b ∈ p.available, b = false) ∨
        (promoted = true ∧ (∀ b ∈ p.available, b = true) ∧
          db' = db.set id (.Full { id := p.id, data := p.data }))) := by
  simp only [tryPromote, Result.bind_eq_ok] at h
  obtain ⟨block, hget, p, hp, h⟩ := h
  rw [get_eq_ok] at hget
  cases block with
  | Full f => cases hp
  | Partial p' =>
    cases hp
    refine ⟨p, hget, ?_⟩
    split at h
    · rename_i hall
      simp only [Result.pure_def, Result.ok.injEq, Prod.mk.injEq] at h
      exact Or.inl ⟨h.1.symm, h.2.symm, by simpa using hall⟩
    · rename_i hall
      simp only [Result.pure_def, Result.ok.injEq, Prod.mk.injEq] at h
      exact Or.inr ⟨h.1.symm, by simpa using hall, h.2.symm⟩

end Lookup

end BlockDb

end DasProtokoll.Scsync
