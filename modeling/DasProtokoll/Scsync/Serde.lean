import DasProtokoll.Lib.Aes
import DasProtokoll.Lib.Keccak
import DasProtokoll.Scsync.Codec
import DasProtokoll.Scsync.Frontend

/-!
# Serializers

The codecs that the derived serializers amount to: a structure is a map from the
names of its fields, an array of bytes is an array of numbers. With the block
cipher and the hash this makes one instance of all that the model leaves open.
-/

namespace DasProtokoll.Scsync

open DasProtokoll

def blockIdCode : Code BlockId := Code.u8.vector 32
def keyCode : Code Key := Code.u8.vector 16

def null : Bytes := [0xf6]

/-! ## References -/

/-- A reference up to the number of its hints. -/
def blockRefHead : Code ((BlockId × Key) × Nat) :=
  (((blockIdCode.field "blockid").prod (keyCode.field "key")).prod (Code.count.field "hints")).map 3

def hintHead : Bytes := Code.writeHead 5 3 ++ Code.text.write (.ofString "blockref")

def hintTail : Code (UInt64 × UInt64) := (Code.u64.field "offset").prod (Code.u64.field "length")

mutual

def BlockRef.write : BlockRef → Bytes
  | ⟨blockid, key, hints⟩ => blockRefHead.write ((blockid, key), hints.length) ++ Hint.writeAll hints

def Hint.writeAll : List Hint → Bytes
  | [] => []
  | h :: hints => h.write ++ Hint.writeAll hints

def Hint.write : Hint → Bytes
  | ⟨blockref, offset, length⟩ => hintHead ++ (blockref.write ++ hintTail.write (offset, length))

end

/-- `readRef` reads the reference. -/
def Hint.read (readRef : Bytes → Option (BlockRef × Bytes)) (bs : Bytes) : Option (Hint × Bytes) := do
  if hintHead <+: bs then
    let (blockref, bs) ← readRef (bs.drop hintHead.length)
    let ((offset, length), bs) ← hintTail.read bs
    return ({ blockref, offset, length }, bs)
  else none

/-- `fuel` bounds how deep the hints are. -/
def BlockRef.read : Nat → Bytes → Option (BlockRef × Bytes)
  | 0, _ => none
  | fuel + 1, bs => do
    let (((blockid, key), n), bs) ← blockRefHead.read bs
    let (hints, bs) ← Code.readMany (Hint.read (BlockRef.read fuel)) n bs
    return ({ blockid, key, hints }, bs)

theorem Hint.writeAll_eq (hints : List Hint) : Hint.writeAll hints = hints.flatMap Hint.write := by
  induction hints with
  | nil => rfl
  | cons h hints ih => rw [Hint.writeAll, ih, List.flatMap_cons]

theorem Hint.read_write {readRef : Bytes → Option (BlockRef × Bytes)} (h : Hint)
    (href : ∀ rest, readRef (h.blockref.write ++ rest) = some (h.blockref, rest)) (rest : Bytes) :
    Hint.read readRef (h.write ++ rest) = some (h, rest) := by
  obtain ⟨r, offset, length⟩ := h
  simp [Hint.read, Hint.write, href, hintTail.read_write]

theorem BlockRef.write_lt {r : BlockRef} {h : Hint} (hh : h ∈ r.hints) :
    h.blockref.write.length < r.write.length := by
  obtain ⟨blockid, key, hints⟩ := r
  have hhead : 0 < (blockRefHead.write ((blockid, key), hints.length)).length := by
    simp [blockRefHead, Code.map, Code.after, Code.writeHead]
  obtain ⟨front, back, hsplit⟩ := List.append_of_mem (show h ∈ hints from hh)
  obtain ⟨r, offset, length⟩ := h
  have hall : r.write.length ≤ (Hint.writeAll hints).length := by
    simp only [hsplit, Hint.writeAll_eq, List.flatMap_append, List.flatMap_cons, Hint.write, List.length_append]
    omega
  rw [BlockRef.write, List.length_append]
  exact hall.trans_lt (by omega)

theorem BlockRef.read_write {fuel : Nat} (r : BlockRef) (hfuel : r.write.length < fuel) (rest : Bytes) :
    BlockRef.read fuel (r.write ++ rest) = some (r, rest) := by
  induction fuel generalizing r rest with
  | zero => omega
  | succ fuel ih =>
    have hread : ∀ h ∈ r.hints, ∀ rest, Hint.read (BlockRef.read fuel) (h.write ++ rest) = some (h, rest) := by
      intro h hh rest
      have hlt := BlockRef.write_lt hh
      exact Hint.read_write h (ih h.blockref (by omega)) rest
    have hhints := Code.readMany_write hread rest
    obtain ⟨blockid, key, hints⟩ := r
    rw [BlockRef.read, BlockRef.write, Hint.writeAll_eq, List.append_assoc, blockRefHead.read_write]
    simp [hhints]

def blockRefCode : Code BlockRef where
  write := BlockRef.write
  read bs := BlockRef.read (bs.length + 1) bs
  read_write r rest := BlockRef.read_write r (by rw [List.length_append]; omega) rest

def BlockType.name : BlockType → String
  | .Directory => "Directory"
  | .FileMeta => "FileMeta"
  | .Leaf => "Leaf"

def blockTypeCode : Code BlockType :=
  Code.string.via BlockType.name
    (fun s => [BlockType.Directory, .FileMeta, .Leaf].find? fun t => t.name == s)
    (by intro t; cases t <;> rfl)

def childCode : Code Child :=
  (((Code.string.field "name").before (Code.text.write (.ofString "metadata") ++ null)).prod
    ((blockTypeCode.field "type").prod (blockRefCode.field "blockref"))).via
    (fun c => (c.name, c.type, c.blockref)) (fun p => some ⟨p.1, p.2.1, p.2.2⟩) (fun _ => rfl)
    |>.map 4

def dirCode : Code Dir :=
  (childCode.seq.field "children").via (fun d => d.children) (fun cs => some ⟨cs⟩) (fun _ => rfl)
    |>.map 1

def metaCode : Code Meta :=
  (blockRefCode.seq.field "blocks").via (fun m => m.blocks) (fun bs => some ⟨bs⟩) (fun _ => rfl)
    |>.map 1

def rootUpdateCode : Code RootUpdate :=
  (((Code.u8.vector 12).field "nonce").prod
    ((blockIdCode.field "from_blockid").prod (blockRefCode.field "to_blockref"))).via
    (fun u => (u.nonce, u.fromBlockid, u.toBlockref)) (fun p => some ⟨p.1, p.2.1, p.2.2⟩)
    (fun _ => rfl) |>.map 3

def rootUpdateResponseCode : Code RootUpdateResponse :=
  ((blockIdCode.field "from_blockid").prod
    ((blockIdCode.field "to_blockid").prod (keyCode.field "to_key"))).via
    (fun r => (r.fromBlockid, r.toBlockid, r.toKey)) (fun p => some ⟨p.1, p.2.1, p.2.2⟩)
    (fun _ => rfl) |>.map 3

def blockRequestCode : Code BlockRequest :=
  (blockIdCode.field "blockid").via (fun r => r.blockid) (fun b => some ⟨b⟩) (fun _ => rfl)
    |>.map 1

def blockRequestResponseCode : Code BlockRequestResponse :=
  ((blockIdCode.field "blockid").prod ((Code.u64.field "start_id").prod
    ((Code.u64.field "end_id").prod (Code.u64.field "len")))).via
    (fun r => (r.blockid, r.startId, r.endId, r.len))
    (fun p => some ⟨p.1, p.2.1, p.2.2.1, p.2.2.2⟩) (fun _ => rfl) |>.map 4

@[reducible] def serde : Serde where
  toVarint := leb128
  cborRootUpdate := rootUpdateCode.toCbor
  cborRootUpdateResponse := rootUpdateResponseCode.toCbor
  cborBlockRequest := blockRequestCode.toCbor
  cborBlockRequestResponse := blockRequestResponseCode.toCbor

@[reducible] def sealing : Sealing where
  encrypt key iv data := Aes128.encrypt key.toList iv.toList data
  decrypt key data := Aes128.decrypt key.toList data
  decrypt_encrypt key iv data := Aes128.decrypt_encrypt (by simp) (by simp) data
  keccak256 data := ⟨(Keccak256.hash data).toArray, by simp [Keccak256.hash_length]⟩
  cborDir := dirCode.toCbor
  cborMeta := metaCode.toCbor
  cborLeaf := (Code.seq Code.u8).toCbor

end DasProtokoll.Scsync
