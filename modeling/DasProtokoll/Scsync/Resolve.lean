import DasProtokoll.Scsync.Store
import DasProtokoll.Scsync.Verify

/-!
# What `resolve` finds

`resolve` looks for a block among the children of directories. The blocks that
file metadata lists are requested, too, but never looked at.
-/

namespace DasProtokoll.Scsync

open DasProtokoll Relation

section Sealing

variable [Sealing]

/-- A parent that is full has the reference `n`. -/
def Refers (db : BlockDb) (p n : Ref) : Prop := DirChild db p n ∨ MetaLeaf db p n

/-- Below the root, a full parent asks for the block. The root itself is there before. -/
def Requested (db : BlockDb) (root : BlockRef) (id : BlockId) : Prop :=
  id ≠ root.blockid ∧ ∃ p n, Reaches db (.Directory, root) p ∧ Refers db p n ∧ n.2.blockid = id

/-- The block `id` as one of its references decodes it. -/
def DecodedBy (db : BlockDb) (id : BlockId) (n : Ref) (dec : Decoded) : Prop :=
  n.2.blockid = id ∧ ∃ f, db.lookup id = some (.Full f) ∧ decodeAs n.1 f n.2.key = some dec

/-- What `resolve` is for. -/
def ResolvesTo (db : BlockDb) (root : BlockRef) (id : BlockId) (dec : Decoded) : Prop :=
  ∃ p n, Reaches db (.Directory, root) p ∧ Refers db p n ∧ DecodedBy db id n dec

/-- The child of a directory that other directories lead to. -/
def IsDirChild (db : BlockDb) (root : BlockRef) (id : BlockId) : Prop :=
  ∃ p n, DirReaches db (.Directory, root) p ∧ DirChild db p n ∧ n.2.blockid = id

/-- The outcome of a search below `r`. -/
def Outcome (db : BlockDb) (id : BlockId) (r : Ref) : Option Decoded → Prop
  | some dec => ∃ n, DirReaches db r n ∧ DecodedBy db id n dec
  | none => ∀ n, DirReaches db r n → IsFull db n → n.2.blockid ≠ id

/-- With enough fuel, the search below `r` has an outcome. -/
def Searches (db : BlockDb) (id : BlockId) (type : BlockType) (r : BlockRef) : Prop :=
  ∃ fuel₀, ∀ fuel ≥ fuel₀, ∀ path f dec, db.lookup r.blockid = some (.Full f) →
    decodeAs type f r.key = some dec → ∃ t,
      traverseRec db (resolveBlockVisitor id) fuel path r dec () = .ok ((), t) ∧
        Outcome db id (type, r) t

variable {db : BlockDb} {type : BlockType} {r : BlockRef} {id : BlockId}

/-! ## Outcomes -/

theorem outcome_absent (h : ¬ IsFull db (type, r)) : Outcome db id (type, r) none := by
  intro n hn hfull
  rcases hn.cases_head with rfl | ⟨m, hm, -⟩
  · exact absurd hfull h
  · obtain ⟨-, f, -, hf, -⟩ := hm
    exact absurd ⟨f, hf⟩ h

theorem outcome_of_ne (hne : type ≠ .Directory) {f : Full} {dec : Decoded}
    (hf : db.lookup r.blockid = some (.Full f)) (hdec : decodeAs type f r.key = some dec) :
    Outcome db id (type, r) (if r.blockid = id then some dec else none) := by
  split
  · rename_i hid
    exact ⟨_, .refl, hid, f, hid ▸ hf, hdec⟩
  · rename_i hid
    intro n hn hfull
    rcases hn.cases_head with rfl | ⟨m, hm, -⟩
    · exact hid
    · exact absurd hm.1 hne

theorem outcome_directory {f : Full} {dir : Dir} (hf : db.lookup r.blockid = some (.Full f))
    (hdir : Dir.fromFull f r.key = some dir) (hid : r.blockid ≠ id) {t : Option Decoded}
    (hsome : ∀ dec, t = some dec → ∃ c ∈ dir.children, Outcome db id (c.type, c.blockref) (some dec))
    (hnone : t = none → ∀ c ∈ dir.children, Outcome db id (c.type, c.blockref) none) :
    Outcome db id (.Directory, r) t := by
  cases t with
  | some dec =>
    obtain ⟨c, hc, n, hn, hdec⟩ := hsome dec rfl
    exact ⟨n, hn.head ((dirChild_iff hf hdir).mpr ⟨c, hc, rfl⟩), hdec⟩
  | none =>
    intro n hn hfull
    rcases hn.cases_head with rfl | ⟨m, hm, hn⟩
    · exact hid
    · obtain ⟨c, hc, rfl⟩ := (dirChild_iff hf hdir).mp hm
      exact hnone rfl c hc n hn hfull

/-! ## The search -/

theorem traverseChildren_skip {c : Child} {children : List Child} {path : PathBuf} {bref : BlockRef}
    {rec_ : PathBuf → BlockRef → Decoded → Unit → Result (Unit × Option Decoded)}
    (h : ¬ IsFull db (c.type, c.blockref)) :
    traverseChildren db (resolveBlockVisitor id) rec_ path bref (c :: children) () =
      traverseChildren db (resolveBlockVisitor id) rec_ path bref children () := by
  have hcall : (resolveBlockVisitor id).call db () (absentCall db path bref c) = ((), none) := by
    unfold absentCall
    split <;> rfl
  rw [traverseChildren_of_absent h, hcall, proceed_none rfl]

theorem traverseChildren_search {children : List Child}
    (hdec : ∀ c ∈ children, Decodes db c.type c.blockref)
    (hsearch : ∀ c ∈ children, Searches db id c.type c.blockref) :
    ∃ fuel₀, ∀ fuel ≥ fuel₀, ∀ path bref, ∃ t,
      traverseChildren db (resolveBlockVisitor id) (traverseRec db (resolveBlockVisitor id) fuel)
        path bref children () = .ok ((), t) ∧
      (∀ dec, t = some dec → ∃ c ∈ children, Outcome db id (c.type, c.blockref) (some dec)) ∧
      (t = none → ∀ c ∈ children, Outcome db id (c.type, c.blockref) none) := by
  induction children with
  | nil => exact ⟨0, fun _ _ _ _ => ⟨none, rfl, by simp, by simp⟩⟩
  | cons c children ih =>
    rw [List.forall_mem_cons] at hdec hsearch
    obtain ⟨fuel₁, h₁⟩ := ih hdec.2 hsearch.2
    obtain ⟨fuel₂, h₂⟩ := hsearch.1
    refine ⟨max fuel₁ fuel₂, ?_⟩
    intro fuel hfuel path bref
    obtain ⟨t', ht', hsome, hnone⟩ := h₁ fuel (by omega) path bref
    have hrest : ∀ dec, t' = some dec →
        ∃ c' ∈ c :: children, Outcome db id (c'.type, c'.blockref) (some dec) := by
      intro dec hd
      obtain ⟨c', hc', hout⟩ := hsome dec hd
      exact ⟨c', List.mem_cons_of_mem _ hc', hout⟩
    by_cases hfull : IsFull db (c.type, c.blockref)
    · obtain ⟨f, hf⟩ := hfull
      obtain ⟨dec, hdecode⟩ := hdec.1.decodeAs hf
      obtain ⟨t, ht, hout⟩ := h₂ fuel (by omega) (path.join (.ofString c.name)) f dec hf hdecode
      rw [traverseChildren_of_full hf, hdecode, Result.unwrap_some, Result.bind_ok, ht, Result.bind_ok]
      cases t with
      | some d =>
        refine ⟨some d, rfl, ?_, by simp⟩
        rintro _ ⟨⟩
        exact ⟨c, by simp, hout⟩
      | none =>
        refine ⟨t', ht', hrest, ?_⟩
        intro hd
        rw [List.forall_mem_cons]
        exact ⟨hout, hnone hd⟩
    · refine ⟨t', (traverseChildren_skip hfull).trans ht', hrest, ?_⟩
      intro hd
      rw [List.forall_mem_cons]
      exact ⟨outcome_absent hfull, hnone hd⟩

theorem searches_of_decodes (hkeyed : Keyed db) (h : Decodes db type r) : Searches db id type r := by
  induction h with
  | absent h => exact ⟨0, fun _ _ _ f _ hf => absurd ⟨f, hf⟩ h⟩
  | @directory r f dir hf hdir hc ih =>
    have hdec := decodeAs_directory hdir
    have hfid : f.id = r.blockid := hkeyed _ _ hf
    obtain ⟨fuel₁, h₁⟩ := traverseChildren_search hc ih
    apply eventually_of_decodeAs hf hdec fuel₁
    intro fuel hfuel path
    by_cases hid : r.blockid = id
    · subst hid
      refine ⟨some (.Dir dir), ?_, (.Directory, r), .refl, rfl, f, hf, hdec⟩
      simp [traverseRec, hf, resolveBlockVisitor, hfid]
    · obtain ⟨t, ht, hsome, hnone⟩ := h₁ fuel hfuel path r
      refine ⟨t, ?_, outcome_directory hf hdir hid hsome hnone⟩
      simp only [traverseRec, hf, resolveBlockVisitor, hfid, if_neg hid]
      exact ht
  | @fileMeta r f meta_ hf hmeta hl ih =>
    have hdec := decodeAs_fileMeta hmeta
    have hfid : f.id = r.blockid := hkeyed _ _ hf
    apply eventually_of_decodeAs hf hdec 0
    intro fuel _ path
    refine ⟨_, ?_, outcome_of_ne (by simp) hf hdec⟩
    simp [traverseRec, hf, resolveBlockVisitor, hfid]
  | @leaf r f leaf hf hleaf =>
    have hdec := decodeAs_leaf hleaf
    have hfid : f.id = r.blockid := hkeyed _ _ hf
    apply eventually_of_decodeAs hf hdec 0
    intro fuel _ path
    refine ⟨_, ?_, outcome_of_ne (by simp) hf hdec⟩
    simp [traverseRec, hf, resolveBlockVisitor, hfid]

/-! ## Requested blocks -/

theorem resolve_eq {root : BlockRef} (hp : db.pendingRoot = some root) (hkeyed : Keyed db)
    (h : Decodes db .Directory root) (hroot : IsFull db (.Directory, root)) (hid : id ≠ root.blockid) :
    ∃ fuel₀, ∀ fuel ≥ fuel₀, ∃ t, resolve db fuel id true = Result.unwrap t ∧
      Outcome db id (.Directory, root) t := by
  obtain ⟨fuel₀, h₀⟩ := @searches_of_decodes _ db .Directory root id hkeyed h
  obtain ⟨f, hf⟩ := hroot
  obtain ⟨dec, hdec⟩ := h.decodeAs hf
  rw [decodeAs, Option.map_eq_some_iff] at hdec
  obtain ⟨dir, hdir, rfl⟩ := hdec
  simp only at hf
  have hfid : f.id ≠ id := fun heq => hid (heq.symm.trans (hkeyed _ _ hf))
  refine ⟨fuel₀, ?_⟩
  intro fuel hfuel
  obtain ⟨t, ht, hout⟩ := h₀ fuel hfuel { absolute := false, components := [] } f (.Dir dir) hf
    (by rw [decodeAs, hdir]; rfl)
  refine ⟨t, ?_, hout⟩
  simp only [resolveBlockVisitor] at ht
  simp only [resolve, BlockDb.rootRef, if_true, hp, Result.unwrap_some, Result.bind_ok, traverse,
    BlockDb.getFull, BlockDb.get, hf, Block.full, hdir, resolveBlockVisitor, if_neg hfid, ht]

theorem root_full {root : BlockRef} {p n : Ref} (hp : Reaches db (.Directory, root) p)
    (hn : Refers db p n) : IsFull db (.Directory, root) := by
  have hparent {a b : Ref} (hab : Refers db a b) : IsFull db a := by
    obtain ⟨-, f, _, hf, -⟩ | ⟨-, f, _, hf, -⟩ := hab <;> exact ⟨f, hf⟩
  rcases hp.cases_head with rfl | ⟨m, hm, -⟩
  · exact hparent hn
  · exact hparent hm

/-- `resolve` finds exactly those requested blocks that are children of directories. -/
theorem resolve_iff {root : BlockRef} (hp : db.pendingRoot = some root) (hkeyed : Keyed db)
    (h : Decodes db .Directory root) (hreq : Requested db root id)
    (hfull : ∃ f, db.lookup id = some (.Full f)) :
    ∃ fuel₀, ∀ fuel ≥ fuel₀,
      ((∃ dec, resolve db fuel id true = .ok dec ∧ ResolvesTo db root id dec) ↔ IsDirChild db root id) := by
  obtain ⟨hid, p, n, hreach, hn, rfl⟩ := hreq
  obtain ⟨fuel₀, h₀⟩ := resolve_eq hp hkeyed h (root_full hreach hn) hid
  refine ⟨fuel₀, ?_⟩
  intro fuel hfuel
  obtain ⟨t, ht, hout⟩ := h₀ fuel hfuel
  rw [ht]
  constructor
  · rintro ⟨dec, hdec, -⟩
    rw [Result.unwrap_eq_ok] at hdec
    subst hdec
    obtain ⟨m, hm, hmid, -⟩ := hout
    rcases hm.cases_tail with rfl | ⟨q, hq, hqm⟩
    · exact absurd hmid.symm hid
    · exact ⟨q, m, hq, hqm, hmid⟩
  · rintro ⟨q, m, hq, hqm, hmid⟩
    cases t with
    | none => exact absurd hmid (hout m (hq.tail hqm) (by rwa [IsFull, hmid]))
    | some dec =>
      obtain ⟨m, hm, hdec⟩ := hout
      refine ⟨dec, rfl, ?_⟩
      rcases hm.cases_tail with rfl | ⟨q, hq, hqm⟩
      · exact absurd hdec.1.symm hid
      · exact ⟨q, m, ReflTransGen.mono (fun _ _ => Or.inl) _ _ hq, Or.inl hqm, hdec⟩

/-! ## A file of one leaf -/

/-- All three blocks are there. -/
def wholeListing : BlockDb := listingDb (Finmap.singleton (idOf 2) (.Full leafBlock))

def leafDb : BlockDb where
  root := rootOf
  pendingRoot := some rootOf
  blocks := Finmap.singleton (idOf 2) (.Full leafBlock)

theorem leafDb_keyed : Keyed leafDb := by
  intro id b hb
  by_cases hid : id = idOf 2
  · subst hid
    obtain rfl : Block.Full leafBlock = b :=
      Option.some.inj (Finmap.lookup_singleton_eq.symm.trans hb)
    rfl
  · have hnone : leafDb.lookup id = none :=
      Finmap.lookup_eq_none.mpr fun hmem => hid ((Finmap.mem_singleton _ _ _).mp hmem)
    exact absurd (hnone.symm.trans hb) (by simp)

theorem wholeListing_keyed : Keyed wholeListing := by
  have hlisting : Block.id (.Full listingBlock) = idOf 1 := rfl
  exact Handler.keyed_set (Handler.keyed_set leafDb_keyed hlisting) rfl

theorem wholeListing_leaf : wholeListing.lookup (idOf 2) = some (.Full leafBlock) := by
  rw [wholeListing, listingDb_leaf]
  exact Finmap.lookup_singleton_eq

theorem wholeListing_decodes : Decodes wholeListing .Directory rootOf :=
  listingDb_decodes _ (.leaf (r := leafOf) wholeListing_leaf leafBlock_decodes)

theorem wholeListing_file :
    DirChild wholeListing (.Directory, rootOf) (.FileMeta, { blockid := idOf 1, key := noKey, hints := [] }) :=
  ⟨rfl, _, _, listingDb_folder _, folderBlock_decodes, _, List.mem_singleton_self _, rfl⟩

theorem wholeListing_listed :
    MetaLeaf wholeListing (.FileMeta, { blockid := idOf 1, key := noKey, hints := [] }) (.Leaf, leafOf) :=
  ⟨rfl, _, _, listingDb_listing _, listingBlock_decodes, List.mem_singleton_self _, rfl⟩

end Sealing

/-- The file itself is found. -/
theorem resolve_iff_file :
    letI := sealing
    ∃ fuel dec, resolve wholeListing fuel (idOf 1) true = .ok dec ∧
      ResolvesTo wholeListing rootOf (idOf 1) dec := by
  let _ := sealing
  have hreq : Requested wholeListing rootOf (idOf 1) :=
    ⟨by decide, _, _, .refl, Or.inl wholeListing_file, rfl⟩
  obtain ⟨fuel, hfuel⟩ :=
    resolve_iff rfl wholeListing_keyed wholeListing_decodes hreq ⟨_, listingDb_listing _⟩
  obtain ⟨dec, hdec⟩ := (hfuel fuel le_rfl).mpr ⟨_, _, .refl, wholeListing_file, rfl⟩
  exact ⟨fuel, dec, hdec⟩

/-- The leaf that its metadata lists is not. -/
theorem listed_leaf_unresolved :
    letI := sealing
    wholeListing.pendingRoot = some rootOf ∧ Keyed wholeListing ∧
      Decodes wholeListing .Directory rootOf ∧ Requested wholeListing rootOf (idOf 2) ∧
      wholeListing.lookup (idOf 2) = some (.Full leafBlock) ∧
      ∃ fuel₀, ∀ fuel ≥ fuel₀, resolve wholeListing fuel (idOf 2) true = .panic := by
  let _ := sealing
  have hreq : Requested wholeListing rootOf (idOf 2) :=
    ⟨by decide, _, _, .single (Or.inl wholeListing_file), Or.inr wholeListing_listed, rfl⟩
  refine ⟨rfl, wholeListing_keyed, wholeListing_decodes, hreq, wholeListing_leaf, ?_⟩
  obtain ⟨fuel₀, h₀⟩ :=
    resolve_eq rfl wholeListing_keyed wholeListing_decodes ⟨_, listingDb_folder _⟩ hreq.1
  refine ⟨fuel₀, ?_⟩
  intro fuel hfuel
  obtain ⟨t, ht, hout⟩ := h₀ fuel hfuel
  rw [ht]
  cases t with
  | none => rfl
  | some dec =>
    obtain ⟨n, hn, hid, -⟩ := hout
    rcases hn.cases_head with rfl | ⟨m, hm, hn⟩
    · exact absurd hid (by decide)
    · obtain ⟨child, hchild, rfl⟩ :=
        (dirChild_iff (listingDb_folder _) folderBlock_decodes).mp hm
      obtain rfl := List.mem_singleton.mp hchild
      rcases hn.cases_head with rfl | ⟨q, hq, -⟩
      · exact absurd hid (by decide)
      · cases hq.1

end DasProtokoll.Scsync
