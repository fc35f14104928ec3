import DasProtokoll.Scsync.Visitor

/-!
# Steps of a traversal

The calls that a visitor gets, and what one step of the traversal does with a
visitor of any kind.
-/

namespace DasProtokoll.Scsync

open DasProtokoll

/-! ## References -/

/-- A block reference with the type that the reference gives to the block. -/
abbrev Ref := BlockType × BlockRef

def IsFull (db : BlockDb) (r : Ref) : Prop := ∃ f, db.lookup r.2.blockid = some (.Full f)

theorem not_isFull_iff {db : BlockDb} {r : Ref} : ¬ IsFull db r ↔
    db.lookup r.2.blockid = none ∨ ∃ p, db.lookup r.2.blockid = some (.Partial p) := by
  unfold IsFull
  cases db.lookup r.2.blockid with
  | none => simp
  | some b => cases b <;> simp

/-! ## Calls -/

inductive Call where
  | Dir (path : PathBuf) (block : Full) (dir : Dir)
  | Meta (path : PathBuf) (block : Full) (meta_ : Meta)
  | Leaf (path : PathBuf) (block : Full) (leaf : Leaf)
  | Partial (path : PathBuf) (block : Partial)
  | Missing (path : PathBuf) (blockid : BlockId)
  deriving DecidableEq

def Call.ofDecoded (path : PathBuf) (block : Full) : Decoded → Call
  | .Dir dir => .Dir path block dir
  | .Meta meta_ => .Meta path block meta_
  | .Leaf leaf => .Leaf path block leaf

variable {σ τ : Type}

def Visitor.call (v : Visitor σ τ) (db : BlockDb) (s : σ) : Call → σ × Option τ
  | .Dir path block dir => v.visitDir s path block dir
  | .Meta path block meta_ => v.visitMeta s db path block meta_
  | .Leaf path block leaf => v.visitLeaf s path block leaf
  | .Partial path block => v.visitPartial s path block
  | .Missing path blockid => v.visitMissing s path blockid

/-- A visitor that never ends the traversal. -/
def Visitor.Quiet (v : Visitor σ τ) : Prop := ∀ db s c, (v.call db s c).2 = none

/-- A visitor that only looks on. -/
def onlooker : Visitor Unit Unit where
  visitDir _ _ _ _ := ((), none)
  visitMeta _ _ _ _ _ := ((), none)
  visitLeaf _ _ _ _ := ((), none)
  visitPartial _ _ _ := ((), none)
  visitMissing _ _ _ := ((), none)

theorem onlooker_quiet : onlooker.Quiet := by
  intro db s c
  cases c <;> rfl

/-- Goes on unless the visitor gave a value. -/
def proceed (x : σ × Option τ) (next : σ → Result (σ × Option τ)) : Result (σ × Option τ) :=
  match x.2 with
  | some t => .ok (x.1, some t)
  | none => next x.1

theorem proceed_none {x : σ × Option τ} {next : σ → Result (σ × Option τ)} (h : x.2 = none) :
    proceed x next = next x.1 := by
  rw [proceed, h]

theorem proceed_some {x : σ × Option τ} {next : σ → Result (σ × Option τ)} {t : τ}
    (h : x.2 = some t) : proceed x next = .ok (x.1, some t) := by
  rw [proceed, h]

theorem proceed_eq_none {x : σ × Option τ} {next : σ → Result (σ × Option τ)} {s : σ} :
    proceed x next = .ok (s, none) ↔ x.2 = none ∧ next x.1 = .ok (s, none) := by
  cases h : x.2 with
  | none => simp [proceed_none h]
  | some t => simp [proceed_some h]

/-- The call for a child that is not full. The traversal names the block that refers to it. -/
def absentCall (db : BlockDb) (path : PathBuf) (bref : BlockRef) (c : Child) : Call :=
  match db.lookup c.blockref.blockid with
  | some (.Partial p) => .Partial path p
  | _ => .Missing path bref.blockid

/-! ## Steps -/

section Sealing

variable [Sealing]

/-- A finite tree of directories whose full blocks decode. -/
inductive Traversable (db : BlockDb) : BlockType → BlockRef → Prop
  | absent {type : BlockType} {r : BlockRef} (h : ¬ IsFull db (type, r)) : Traversable db type r
  | directory {r : BlockRef} {f : Full} {dir : Dir} (hf : db.lookup r.blockid = some (.Full f))
    (hdir : Dir.fromFull f r.key = some dir)
    (hc : ∀ c ∈ dir.children, Traversable db c.type c.blockref) : Traversable db .Directory r
  | file {type : BlockType} {r : BlockRef} {f : Full} {dec : Decoded} (htype : type ≠ .Directory)
    (hf : db.lookup r.blockid = some (.Full f)) (hdec : decodeAs type f r.key = some dec) :
    Traversable db type r

theorem Traversable.decodeAs {db : BlockDb} {type : BlockType} {r : BlockRef} {f : Full}
    (h : Traversable db type r) (hf : db.lookup r.blockid = some (.Full f)) :
    ∃ dec, decodeAs type f r.key = some dec := by
  cases h with
  | absent h => exact absurd ⟨f, hf⟩ h
  | directory hg hdir =>
    obtain rfl := BlockDb.full_unique hf hg
    exact ⟨_, decodeAs_directory hdir⟩
  | file _ hg hdec =>
    obtain rfl := BlockDb.full_unique hf hg
    exact ⟨_, hdec⟩

variable {db : BlockDb} {v : Visitor σ τ} {path : PathBuf} {bref : BlockRef} {c : Child}
  {children : List Child} {rec_ : PathBuf → BlockRef → Decoded → σ → Result (σ × Option τ)}
  {f : Full} {dir : Dir} {fuel : Nat} {s : σ}

theorem traverseChildren_of_absent (h : ¬ IsFull db (c.type, c.blockref)) :
    traverseChildren db v rec_ path bref (c :: children) s =
      proceed (v.call db s (absentCall db path bref c))
        (traverseChildren db v rec_ path bref children) := by
  rw [traverseChildren, absentCall]
  rcases not_isFull_iff.mp h with hb | ⟨p, hb⟩
  · rw [show db.lookup c.blockref.blockid = none from hb]
    rfl
  · rw [show db.lookup c.blockref.blockid = some (.Partial p) from hb]
    rfl

theorem traverseChildren_of_full (hf : db.lookup c.blockref.blockid = some (.Full f)) :
    traverseChildren db v rec_ path bref (c :: children) s =
      Result.unwrap (decodeAs c.type f c.blockref.key) >>= fun decoded =>
        rec_ (path.join (.ofString c.name)) c.blockref decoded s >>= fun x =>
          proceed x (traverseChildren db v rec_ path bref children) := by
  rw [traverseChildren]
  simp only [hf]
  cases decodeAs c.type f c.blockref.key with
  | none => rfl
  | some decoded =>
    rfl

theorem of_traverseChildren_none {s' : σ} (hf : db.lookup c.blockref.blockid = some (.Full f))
    (h : traverseChildren db v rec_ path bref (c :: children) s = .ok (s', none)) :
    ∃ dec s₁, decodeAs c.type f c.blockref.key = some dec ∧
      rec_ (path.join (.ofString c.name)) c.blockref dec s = .ok (s₁, none) ∧
      traverseChildren db v rec_ path bref children s₁ = .ok (s', none) := by
  rw [traverseChildren_of_full hf] at h
  obtain ⟨dec, hdec, h⟩ := Result.bind_eq_ok.mp h
  obtain ⟨⟨s₁, t⟩, hbelow, h⟩ := Result.bind_eq_ok.mp h
  obtain ⟨rfl, h⟩ := proceed_eq_none.mp h
  exact ⟨dec, s₁, Result.unwrap_eq_ok.mp hdec, hbelow, h⟩

theorem traverseRec_directory (hf : db.lookup bref.blockid = some (.Full f)) :
    traverseRec db v (fuel + 1) path bref (.Dir dir) s =
      proceed (v.call db s (.Dir path f dir))
        (traverseChildren db v (traverseRec db v fuel) path bref dir.children) := by
  rw [traverseRec]
  simp only [hf, Visitor.call]
  cases v.visitDir s path f dir with
  | mk s t => cases t <;> rfl

theorem traverseRec_file {type : BlockType} {dec : Decoded} (htype : type ≠ .Directory)
    (hf : db.lookup bref.blockid = some (.Full f)) (hdec : decodeAs type f bref.key = some dec) :
    traverseRec db v (fuel + 1) path bref dec s = .ok (v.call db s (.ofDecoded path f dec)) := by
  rw [traverseRec]
  simp only [hf]
  cases type with
  | Directory => exact absurd rfl htype
  | FileMeta =>
    obtain ⟨meta_, -, rfl⟩ := Option.map_eq_some_iff.mp hdec
    rfl
  | Leaf =>
    obtain ⟨leaf, -, rfl⟩ := Option.map_eq_some_iff.mp hdec
    rfl

/-! ## The root -/

/-- The path of the root. -/
def rootPath : PathBuf := { absolute := false, components := [] }

theorem traverse_of_full {root : BlockRef} (hf : db.lookup root.blockid = some (.Full f))
    (hdir : Dir.fromFull f root.key = some dir) :
    traverse db v fuel root s =
      proceed (v.call db s (.Dir rootPath f dir)) (traverseRec db v fuel rootPath root (.Dir dir)) := by
  have hfull : db.getFull root.blockid = .ok f := by
    simp [BlockDb.getFull, BlockDb.get, hf, Block.full]
  rw [traverse, hfull, Result.bind_ok, hdir, Result.unwrap_some, Result.bind_ok]
  simp only [Visitor.call, rootPath]
  cases v.visitDir s { absolute := false, components := [] } f dir with
  | mk s t => cases t <;> rfl

theorem traverse_of_unreadable {root : BlockRef} (h : ∀ f dir,
    db.lookup root.blockid = some (.Full f) → Dir.fromFull f root.key ≠ some dir) :
    traverse db v fuel root s = .panic := by
  rw [traverse, BlockDb.getFull, BlockDb.get]
  cases hb : db.lookup root.blockid with
  | none => rfl
  | some b =>
    cases b with
    | Partial p => rfl
    | Full f =>
      cases hdir : Dir.fromFull f root.key with
      | some dir => exact absurd hdir (h f dir hb)
      | none => simp [Block.full, hdir]

end Sealing

end DasProtokoll.Scsync
