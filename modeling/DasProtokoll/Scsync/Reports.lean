import DasProtokoll.Lib.Fuel
import DasProtokoll.Lib.Positions
import DasProtokoll.Scsync.Verify

/-!
# What a traversal reports

A visitor that never ends the traversal is called for the root twice, and a
missing block is reported under the id of the directory that refers to it.
-/

namespace DasProtokoll.Scsync

open DasProtokoll

variable {σ τ : Type}

/-- Whether the call is for a full block. -/
def Call.isVisit : Call → Bool
  | .Dir .. => true
  | .Meta .. => true
  | .Leaf .. => true
  | .Partial .. => false
  | .Missing .. => false

/-- The state of the visitor after the calls. -/
def Visitor.run (v : Visitor σ τ) (db : BlockDb) (s : σ) (calls : List Call) : σ :=
  calls.foldl (fun s c => (v.call db s c).1) s

@[simp] theorem Visitor.run_nil (v : Visitor σ τ) (db : BlockDb) (s : σ) : v.run db s [] = s := rfl

@[simp] theorem Visitor.run_cons (v : Visitor σ τ) (db : BlockDb) (s : σ) (c : Call) (calls : List Call) :
    v.run db s (c :: calls) = v.run db (v.call db s c).1 calls := rfl

@[simp] theorem Visitor.run_append (v : Visitor σ τ) (db : BlockDb) (s : σ) (calls calls' : List Call) :
    v.run db s (calls ++ calls') = v.run db (v.run db s calls) calls' :=
  List.foldl_append

/-- A visitor that keeps all its calls. -/
def recorder : Visitor (List Call) Unit where
  visitDir s path block dir := (s ++ [.Dir path block dir], none)
  visitMeta s _ path block meta_ := (s ++ [.Meta path block meta_], none)
  visitLeaf s path block leaf := (s ++ [.Leaf path block leaf], none)
  visitPartial s path block := (s ++ [.Partial path block], none)
  visitMissing s path blockid := (s ++ [.Missing path blockid], none)

theorem recorder_call (db : BlockDb) (s : List Call) (c : Call) :
    recorder.call db s c = (s ++ [c], none) := by
  cases c <;> rfl

theorem recorder_run (db : BlockDb) (s calls : List Call) : recorder.run db s calls = s ++ calls := by
  induction calls generalizing s with
  | nil => simp
  | cons c calls ih => simp [recorder_call, ih]

/-- Any visitor that goes on gets these calls. -/
def Yields (db : BlockDb) (run : ∀ σ τ : Type, Visitor σ τ → σ → Nat → Result (σ × Option τ))
    (calls : List Call) : Prop :=
  ∀ (σ τ : Type) (v : Visitor σ τ), v.Quiet → ∀ s,
    Settles (run σ τ v s) (.ok (v.run db s calls, none))

theorem Yields.unique {db : BlockDb}
    {run : ∀ σ τ : Type, Visitor σ τ → σ → Nat → Result (σ × Option τ)} {calls calls' : List Call}
    (h : Yields db run calls) (h' : Yields db run calls') : calls = calls' := by
  have hquiet : recorder.Quiet := fun db s c => by rw [recorder_call]
  obtain ⟨fuel, hfuel⟩ := h _ _ recorder hquiet []
  obtain ⟨fuel', hfuel'⟩ := h' _ _ recorder hquiet []
  have heq := (hfuel (max fuel fuel') (by omega)).symm.trans (hfuel' (max fuel fuel') (by omega))
  simpa [recorder_run] using heq

variable {db : BlockDb} {path path' : PathBuf} {bref : BlockRef} {c : Child}

theorem isVisit_absentCall : (absentCall db path bref c).isVisit = false := by
  unfold absentCall
  split <;> rfl

theorem absentCall_incomplete {block : Partial} :
    absentCall db path bref c = .Partial path' block ↔
      path = path' ∧ db.lookup c.blockref.blockid = some (.Partial block) := by
  unfold absentCall
  split
  · rename_i p hp
    simp [hp]
  · rename_i h
    constructor
    · intro hcall
      cases hcall
    · rintro ⟨-, hb⟩
      exact absurd hb (h block)

theorem absentCall_missing {blockid : BlockId}
    (h : ¬ IsFull db (c.type, c.blockref)) :
    absentCall db path bref c = .Missing path' blockid ↔
      path = path' ∧ bref.blockid = blockid ∧ db.lookup c.blockref.blockid = none := by
  unfold absentCall
  rcases not_isFull_iff.mp h with hb | ⟨p, hb⟩
  · simp only at hb
    simp [hb]
  · simp only at hb
    simp [hb]

section Sealing

variable [Sealing]

/-- The call for a full block at a path. -/
def visitOf (db : BlockDb) (path : PathBuf) (r : Ref) : Option Call :=
  match db.lookup r.2.blockid with
  | some (.Full f) => (decodeAs r.1 f r.2.key).map (.ofDecoded path f)
  | _ => none

/-- The full block of `r` decodes to the directory. -/
def Opens (db : BlockDb) (r : Ref) (dir : Dir) : Prop :=
  r.1 = .Directory ∧ ∃ f, db.lookup r.2.blockid = some (.Full f) ∧ Dir.fromFull f r.2.key = some dir

/-- From a path and a reference, a position leads to another path and reference. -/
inductive Leads (db : BlockDb) : PathBuf → Ref → List Nat → PathBuf → Ref → Prop
  | here {path : PathBuf} {r : Ref} : Leads db path r [] path r
  | child {path path' : PathBuf} {r n : Ref} {dir : Dir} {i : Nat} {c : Child} {p : List Nat}
    (hdir : Opens db r dir) (hc : dir.children[i]? = some c)
    (h : Leads db (path.join (.ofString c.name)) (c.type, c.blockref) p path' n) :
    Leads db path r (i :: p) path' n

def VisitAt (db : BlockDb) (path : PathBuf) (r : Ref) (p : List Nat) (call : Call) : Prop :=
  ∃ path' n, Leads db path r p path' n ∧ visitOf db path' n = some call

/-- The calls tell of each full block once for each way to it, of the absent blocks and of the
blocks that are there in part. -/
structure Faithful (db : BlockDb) (root : BlockRef) (calls : List Call) : Prop where
  visits : Enumerates (VisitAt db rootPath (.Directory, root)) (calls.filter Call.isVisit)
  missing : ∀ blockid, (∃ path, .Missing path blockid ∈ calls) ↔
    ∃ p path n, Leads db rootPath (.Directory, root) p path n ∧ n.2.blockid = blockid ∧
      db.lookup blockid = none
  partials : ∀ block, (∃ path, .Partial path block ∈ calls) ↔
    ∃ p path n, Leads db rootPath (.Directory, root) p path n ∧
      db.lookup n.2.blockid = some (.Partial block)

/-! ## The calls of the code -/

/-- The call that the recursion makes at a position. -/
inductive CallAt (db : BlockDb) : PathBuf → Ref → List Nat → Call → Prop
  | here {path : PathBuf} {r : Ref} {call : Call} (h : visitOf db path r = some call) :
    CallAt db path r [] call
  | absent {path : PathBuf} {r : Ref} {dir : Dir} {i : Nat} {c : Child} (hdir : Opens db r dir)
    (hc : dir.children[i]? = some c) (h : ¬ IsFull db (c.type, c.blockref)) :
    CallAt db path r [i] (absentCall db path r.2 c)
  | child {path : PathBuf} {r : Ref} {dir : Dir} {i : Nat} {c : Child} {p : List Nat} {call : Call}
    (hdir : Opens db r dir) (hc : dir.children[i]? = some c)
    (h : CallAt db (path.join (.ofString c.name)) (c.type, c.blockref) p call) :
    CallAt db path r (i :: p) call

/-- The calls for a child of the directory `bref`. -/
def ChildCallAt (db : BlockDb) (path : PathBuf) (bref : BlockRef) (c : Child) (p : List Nat)
    (call : Call) : Prop :=
  (¬ IsFull db (c.type, c.blockref) ∧ p = [] ∧ call = absentCall db path bref c) ∨
    CallAt db (path.join (.ofString c.name)) (c.type, c.blockref) p call

variable {r n : Ref} {p : List Nat} {call : Call} {dir dir' : Dir} {calls : List Call}

theorem Opens.unique (h : Opens db r dir) (h' : Opens db r dir') : dir = dir' := by
  obtain ⟨-, f, hf, hdir⟩ := h
  obtain ⟨-, g, hg, hdir'⟩ := h'
  obtain rfl := BlockDb.full_unique hf hg
  exact Option.some.inj (hdir.symm.trans hdir')

theorem Opens.isFull (h : Opens db r dir) : IsFull db r := by
  obtain ⟨-, f, hf, -⟩ := h
  exact ⟨f, hf⟩

theorem visitOf_eq_some :
    visitOf db path r = some call ↔ ∃ f dec, db.lookup r.2.blockid = some (.Full f) ∧
      decodeAs r.1 f r.2.key = some dec ∧ .ofDecoded path f dec = call := by
  unfold visitOf
  split
  · rename_i f hf
    simp [hf]
  · rename_i h
    constructor
    · simp
    · rintro ⟨f, dec, hf, -⟩
      exact absurd hf (h f)

theorem isVisit_of_visitOf (h : visitOf db path r = some call) : call.isVisit = true := by
  obtain ⟨f, dec, -, -, rfl⟩ := visitOf_eq_some.mp h
  cases dec <;> rfl

theorem CallAt.isFull (h : CallAt db path r p call) : IsFull db r := by
  cases h with
  | here h =>
    obtain ⟨f, dec, hf, -⟩ := visitOf_eq_some.mp h
    exact ⟨f, hf⟩
  | absent hdir => exact hdir.isFull
  | child hdir => exact hdir.isFull

theorem callAt_directory {bref : BlockRef} {f : Full} (hf : db.lookup bref.blockid = some (.Full f))
    (hdir : Dir.fromFull f bref.key = some dir) :
    CallAt db path (.Directory, bref) p call ↔
      p = [] ∧ call = .Dir path f dir ∨ AtChild (ChildCallAt db path bref) dir.children p call := by
  have hopens : Opens db (.Directory, bref) dir := ⟨rfl, f, hf, hdir⟩
  have hvisit : visitOf db path (.Directory, bref) = some (.Dir path f dir) := by
    rw [visitOf_eq_some]
    exact ⟨f, .Dir dir, hf, decodeAs_directory hdir, rfl⟩
  constructor
  · intro h
    cases h with
    | here h => exact Or.inl ⟨rfl, Option.some.inj (h.symm.trans hvisit)⟩
    | absent hdir hc h =>
      obtain rfl := hopens.unique hdir
      exact Or.inr ⟨_, [], _, rfl, hc, Or.inl ⟨h, rfl, rfl⟩⟩
    | child hdir hc h =>
      obtain rfl := hopens.unique hdir
      exact Or.inr ⟨_, _, _, rfl, hc, Or.inr h⟩
  · rintro (⟨rfl, rfl⟩ | ⟨i, q, c, rfl, hc, ⟨h, rfl, rfl⟩ | h⟩)
    · exact .here hvisit
    · exact .absent hopens hc h
    · exact .child hopens hc h

theorem callAt_file {type : BlockType} {bref : BlockRef} {f : Full} {dec : Decoded}
    (htype : type ≠ .Directory) (hf : db.lookup bref.blockid = some (.Full f))
    (hdec : decodeAs type f bref.key = some dec) :
    CallAt db path (type, bref) p call ↔ p = [] ∧ call = .ofDecoded path f dec := by
  have hvisit : visitOf db path (type, bref) = some (.ofDecoded path f dec) :=
    visitOf_eq_some.mpr ⟨f, dec, hf, hdec, rfl⟩
  constructor
  · intro h
    cases h with
    | here h => exact ⟨rfl, Option.some.inj (h.symm.trans hvisit)⟩
    | absent hdir => exact absurd hdir.1 htype
    | child hdir => exact absurd hdir.1 htype
  · rintro ⟨rfl, rfl⟩
    exact .here hvisit

/-! ## The run of the recursion -/

theorem traverseChildren_yields (path : PathBuf) (bref : BlockRef) {children : List Child}
    (hc : ∀ c ∈ children, Traversable db c.type c.blockref)
    (hrec : ∀ c ∈ children, ∀ path f dec, db.lookup c.blockref.blockid = some (.Full f) →
      decodeAs c.type f c.blockref.key = some dec → ∃ calls,
        Enumerates (CallAt db path (c.type, c.blockref)) calls ∧
          Yields db (fun _ _ v s fuel => traverseRec db v fuel path c.blockref dec s) calls) :
    ∃ calls, Enumerates (AtChild (ChildCallAt db path bref) children) calls ∧
      Yields db (fun _ _ v s fuel =>
        traverseChildren db v (traverseRec db v fuel) path bref children s) calls := by
  induction children with
  | nil => exact ⟨[], .atChild_nil _, fun _ _ v _ s => .const⟩
  | cons c children ih =>
    rw [List.forall_mem_cons] at hc hrec
    obtain ⟨rest, hrest, hrunrest⟩ := ih hc.2 hrec.2
    by_cases hfull : IsFull db (c.type, c.blockref)
    · obtain ⟨f, hf⟩ := id hfull
      obtain ⟨dec, hdec⟩ := hc.1.decodeAs hf
      obtain ⟨first, hfirst, hrun⟩ := hrec.1 (path.join (.ofString c.name)) f dec hf hdec
      refine ⟨first ++ rest, .atChild_cons (hfirst.congr ?_) hrest, ?_⟩
      · intro q a
        constructor
        · exact Or.inr
        · rintro (⟨habsent, -⟩ | h)
          · exact absurd hfull habsent
          · exact h
      · intro σ τ v hv s
        simp only [traverseChildren_of_full hf, hdec, Result.unwrap_some, Result.bind_ok,
          Visitor.run_append]
        apply (hrun σ τ v hv s).bind
        exact hrunrest σ τ v hv _
    · have hhere := Enumerates.singleton (absentCall db path bref c)
      refine ⟨[absentCall db path bref c] ++ rest, .atChild_cons (hhere.congr ?_) hrest, ?_⟩
      · intro q a
        constructor
        · exact fun h => Or.inl ⟨hfull, h⟩
        · rintro (⟨-, h⟩ | h)
          · exact h
          · exact absurd h.isFull hfull
      · intro σ τ v hv s
        simp only [traverseChildren_of_absent hfull, proceed_none (hv _ _ _)]
        exact hrunrest σ τ v hv _

theorem traverseRec_yields {type : BlockType} {bref : BlockRef} (h : Traversable db type bref)
    {f : Full} {dec : Decoded} (hf : db.lookup bref.blockid = some (.Full f))
    (hdec : decodeAs type f bref.key = some dec) (path : PathBuf) :
    ∃ calls, Enumerates (CallAt db path (type, bref)) calls ∧
      Yields db (fun _ _ v s fuel => traverseRec db v fuel path bref dec s) calls := by
  induction h generalizing f dec path with
  | absent h => exact absurd ⟨f, hf⟩ h
  | @directory bref g dir hg hdir hc ih =>
    obtain rfl := BlockDb.full_unique hf hg
    rw [decodeAs, hdir, Option.map_some, Option.some.injEq] at hdec
    subst hdec
    obtain ⟨below, hbelow, hrun⟩ := traverseChildren_yields path bref hc
      fun c hc path f dec hf hdec => ih c hc hf hdec path
    refine ⟨.Dir path f dir :: below, (hbelow.node _).congr fun p call => ?_, ?_⟩
    · exact (callAt_directory hf hdir).symm
    · intro σ τ v hv s
      apply Settles.succ
      simp only [traverseRec_directory hf, proceed_none (hv _ _ _)]
      exact hrun σ τ v hv _
  | file htype hg hdec' =>
    refine ⟨[.ofDecoded path f dec], (Enumerates.singleton _).congr fun p call => ?_, ?_⟩
    · exact (callAt_file htype hf hdec).symm
    · intro σ τ v hv s
      apply Settles.succ
      simp only [traverseRec_file htype hf hdec]
      rw [show v.call db s (.ofDecoded path f dec) = (v.run db s [.ofDecoded path f dec], none) from
        Prod.ext rfl (hv db s _)]
      exact .const

theorem traverse_yields {root : BlockRef} (h : Traversable db .Directory root)
    (hroot : IsFull db (.Directory, root)) :
    ∃ calls first rest, calls = first :: rest ∧ first.isVisit = true ∧
      Enumerates (CallAt db rootPath (.Directory, root)) rest ∧
      Yields db (fun _ _ v s fuel => traverse db v fuel root s) calls := by
  obtain ⟨f, hf⟩ := hroot
  obtain ⟨dec, hdec⟩ := h.decodeAs hf
  obtain ⟨rest, hrest, hrun⟩ := traverseRec_yields h hf hdec rootPath
  obtain ⟨dir, hdir, rfl⟩ := Option.map_eq_some_iff.mp hdec
  refine ⟨_, .Dir rootPath f dir, rest, rfl, rfl, hrest, ?_⟩
  intro σ τ v hv s
  simp only [traverse_of_full hf hdir, proceed_none (hv _ _ _)]
  exact hrun σ τ v hv _

/-! ## What is told of each block -/

theorem callAt_visit : (CallAt db path r p call ∧ call.isVisit) ↔ VisitAt db path r p call := by
  constructor
  · rintro ⟨h, hvisit⟩
    induction h with
    | here h => exact ⟨_, _, .here, h⟩
    | absent hdir hc h => simp [isVisit_absentCall] at hvisit
    | child hdir hc _ ih =>
      obtain ⟨path', n, hn, h⟩ := ih hvisit
      exact ⟨path', n, .child hdir hc hn, h⟩
  · rintro ⟨path', n, hn, h⟩
    refine ⟨?_, isVisit_of_visitOf h⟩
    induction hn with
    | here => exact .here h
    | child hdir hc _ ih => exact .child hdir hc (ih h)

theorem callAt_absent (h : CallAt db path r p call) (hvisit : call.isVisit = false) :
    ∃ q path' n c, Leads db path r q path' n ∧ IsFull db n ∧ call = absentCall db path' n.2 c ∧
      ∃ q path' , Leads db path r q path' (c.type, c.blockref) ∧ ¬ IsFull db (c.type, c.blockref) := by
  induction h with
  | here h => simp [isVisit_of_visitOf h] at hvisit
  | absent hdir hc h =>
    exact ⟨[], _, _, _, .here, hdir.isFull, rfl, _, _, .child hdir hc .here, h⟩
  | child hdir hc _ ih =>
    obtain ⟨q, path', n, c, hn, hfull, hcall, q', path'', hleads, habsent⟩ := ih hvisit
    exact ⟨_, _, n, c, .child hdir hc hn, hfull, hcall, _, _, .child hdir hc hleads, habsent⟩

theorem callAt_of_leads (hr : IsFull db r) (h : Leads db path r p path' n) (hn : ¬ IsFull db n) :
    ∃ q path'' c bref, n = (c.type, c.blockref) ∧ CallAt db path r q (absentCall db path'' bref c) := by
  induction h with
  | here => exact absurd hr hn
  | @child path path' r n dir i c p hdir hc h ih =>
    by_cases hfull : IsFull db (c.type, c.blockref)
    · obtain ⟨q, path'', c', bref, rfl, hq⟩ := ih hfull hn
      exact ⟨_, _, c', bref, rfl, .child hdir hc hq⟩
    · cases h with
      | here => exact ⟨_, _, c, _, rfl, .absent hdir hc hfull⟩
      | child hdir' => exact absurd hdir'.isFull hfull

/-- Blocks that are there in part are reported as they should be. -/
theorem partials_reported (hr : IsFull db r) (h : Enumerates (CallAt db path r) calls)
    (block : Partial) : (∃ path', .Partial path' block ∈ calls) ↔
      ∃ p path' n, Leads db path r p path' n ∧ db.lookup n.2.blockid = some (.Partial block) := by
  simp only [h.mem]
  constructor
  · rintro ⟨path', p, hp⟩
    obtain ⟨_, _, _, c, -, -, hcall, q, path'', hleads, -⟩ := callAt_absent hp rfl
    exact ⟨q, path'', _, hleads, (absentCall_incomplete.mp hcall.symm).2⟩
  · rintro ⟨p, path', n, hn, hblock⟩
    have habsent : ¬ IsFull db n := not_isFull_iff.mpr (Or.inr ⟨block, hblock⟩)
    obtain ⟨q, path'', c, bref, rfl, hq⟩ := callAt_of_leads hr hn habsent
    rw [absentCall_incomplete.mpr ⟨rfl, hblock⟩] at hq
    exact ⟨path'', q, hq⟩

/-- Absent blocks are reported as they should be just where there are none. -/
theorem missing_reported_iff (hr : IsFull db r) (h : Enumerates (CallAt db path r) calls) :
    (∀ blockid, (∃ path', .Missing path' blockid ∈ calls) ↔
      ∃ p path' n, Leads db path r p path' n ∧ n.2.blockid = blockid ∧ db.lookup blockid = none) ↔
    ∀ p path' n, Leads db path r p path' n → db.lookup n.2.blockid ≠ none := by
  simp only [h.mem]
  constructor
  · intro hall p path' n hn hnone
    have habsent : ¬ IsFull db n := not_isFull_iff.mpr (Or.inl hnone)
    obtain ⟨q, path'', c, bref, rfl, hq⟩ := callAt_of_leads hr hn habsent
    rw [(absentCall_missing habsent).mpr ⟨rfl, rfl, hnone⟩] at hq
    -- the id in the call is that of a full directory
    obtain ⟨_, _, m, d, -, ⟨f, hf⟩, hcall, _, _, -, hd⟩ := callAt_absent hq rfl
    obtain ⟨-, hid, -⟩ := (absentCall_missing hd).mp hcall.symm
    obtain ⟨_, _, _, -, -, hlookup⟩ := (hall bref.blockid).mp ⟨path'', q, hq⟩
    rw [← hid, hf] at hlookup
    cases hlookup
  · intro hall blockid
    constructor
    · rintro ⟨path', p, hp⟩
      obtain ⟨_, _, m, d, -, -, hcall, q, path'', hleads, hd⟩ := callAt_absent hp rfl
      obtain ⟨-, -, hnone⟩ := (absentCall_missing hd).mp hcall.symm
      exact absurd hnone (hall _ _ _ hleads)
    · rintro ⟨p, path', n, hn, rfl, hnone⟩
      exact absurd hnone (hall _ _ _ hn)

theorem not_faithful {root : BlockRef} {first : Call} (hfirst : first.isVisit = true)
    (h : Enumerates (CallAt db rootPath (.Directory, root)) calls) :
    ¬ Faithful db root (first :: calls) := by
  intro hfaithful
  have hvisits := (h.filter Call.isVisit).congr fun _ _ => callAt_visit
  have hlength := (hvisits.perm hfaithful.visits).length_eq
  simp [hfirst] at hlength

/-- Each traversal that no visitor ends makes calls that are not faithful. -/
theorem traverse_never_faithful {db : BlockDb} {root : BlockRef} (h : Traversable db .Directory root)
    (hroot : IsFull db (.Directory, root)) :
    (∃ calls, Yields db (fun _ _ v s fuel => traverse db v fuel root s) calls) ∧
      ∀ calls, Yields db (fun _ _ v s fuel => traverse db v fuel root s) calls →
        ¬ Faithful db root calls := by
  obtain ⟨_, first, rest, rfl, hfirst, hrest, hrun⟩ := traverse_yields h hroot
  refine ⟨⟨_, hrun⟩, ?_⟩
  intro calls hcalls
  obtain rfl := hrun.unique hcalls
  exact not_faithful hfirst hrest

/-! ## A folder whose file is absent -/

def bareDb : BlockDb := BlockDb.new rootOf (Finmap.singleton (idOf 0) (.Full folderBlock))

theorem bareDb_folder : bareDb.lookup (idOf 0) = some (.Full folderBlock) :=
  Finmap.lookup_singleton_eq

theorem bareDb_file : bareDb.lookup (idOf 1) = none := by
  rw [BlockDb.lookup, Finmap.lookup_eq_none, bareDb, BlockDb.new, Finmap.mem_singleton]
  decide

theorem bareDb_traversable : Traversable bareDb .Directory rootOf := by
  refine .directory bareDb_folder folderBlock_decodes fun c hc => .absent ?_
  obtain rfl := List.mem_singleton.mp hc
  exact not_isFull_iff.mpr (Or.inl bareDb_file)

end Sealing

theorem traverse_never_faithful_bare :
    letI := sealing
    (∃ calls, Yields bareDb (fun _ _ v s fuel => traverse bareDb v fuel rootOf s) calls) ∧
      ∀ calls, Yields bareDb (fun _ _ v s fuel => traverse bareDb v fuel rootOf s) calls →
        ¬ Faithful bareDb rootOf calls := by
  let _ := sealing
  exact traverse_never_faithful bareDb_traversable ⟨_, bareDb_folder⟩

/-- The folder is visited twice and then reported to be missing. -/
theorem bare_folder_misreported :
    letI := sealing
    let calls : List Call := [.Dir rootPath folderBlock folderOf, .Dir rootPath folderBlock folderOf,
      .Missing rootPath (idOf 0)]
    Traversable bareDb .Directory rootOf ∧ bareDb.lookup (idOf 0) = some (.Full folderBlock) ∧
      (∀ fuel, traverse bareDb recorder (fuel + 1) rootOf [] = .ok (calls, none)) ∧
      ¬ Faithful bareDb rootOf calls := by
  let _ := sealing
  refine ⟨bareDb_traversable, bareDb_folder, ?_, ?_⟩
  · intro fuel
    have hroot : bareDb.lookup rootOf.blockid = some (.Full folderBlock) := bareDb_folder
    rw [traverse_of_full hroot folderBlock_decodes, proceed_none rfl, traverseRec_directory hroot,
      proceed_none rfl, folderOf, traverseChildren_of_absent, proceed_none (by rw [recorder_call])]
    · simp [recorder_call, absentCall, bareDb_file, traverseChildren, rootOf]
    · exact not_isFull_iff.mpr (Or.inl bareDb_file)
  · intro hfaithful
    obtain ⟨_, _, _, -, -, hnone⟩ := (hfaithful.missing (idOf 0)).mp ⟨rootPath, by simp⟩
    cases bareDb_folder.symm.trans hnone

end DasProtokoll.Scsync
