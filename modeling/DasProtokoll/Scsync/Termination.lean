import DasProtokoll.Lib.Cycles
import DasProtokoll.Lib.Fuel
import DasProtokoll.Scsync.HandlerSpec
import DasProtokoll.Scsync.Verify
import Mathlib.Data.Finite.Prod

/-!
# Where the traversal ends

Ids of blocks are not checked, so a directory can contain itself. The traversal
ends unless it gets to such a directory, and then it does not end by itself.
-/

namespace DasProtokoll.Scsync

open DasProtokoll Relation

/-! ## Finitely many ids and keys -/

instance finite_byte : Finite UInt8 := Finite.of_injective UInt8.toFin fun _ _ h => UInt8.toFin_inj.mp h

instance finite_bytes {n : Nat} : Finite (Vector UInt8 n) :=
  Finite.of_injective (fun v => fun i : Fin n => v[i]) fun v w h => by
    ext i hi
    exact congrArg UInt8.toNat (congrFun h ⟨i, hi⟩)

instance : Finite BlockType :=
  Finite.of_injective (fun t => (t = .Directory, t = .Leaf)) fun t t' h => by
    cases t <;> cases t' <;> simp at h ⊢

section Sealing

variable [Sealing]

/-- The traversal goes from a directory to a child when it got through the ones before it. -/
def Enters (db : BlockDb) (a b : Ref) : Prop :=
  a.1 = .Directory ∧ ∃ f dir pre c post, db.lookup a.2.blockid = some (.Full f) ∧
    Dir.fromFull f a.2.key = some dir ∧ dir.children = pre ++ c :: post ∧
    (∀ x ∈ pre, Traversable db x.type x.blockref) ∧ b = (c.type, c.blockref)

variable {σ τ : Type} {db : BlockDb} {v : Visitor σ τ}

theorem acc_enters {r : Ref} (h : ¬ Cyclic (Enters db) r) : Acc (fun b a => Enters db a b) r := by
  refine acc_of_not_cyclic (fun r : Ref => (r.1, r.2.blockid, r.2.key)) (fun x x' y heq hstep => ?_) h
  simp only [Prod.mk.injEq] at heq
  obtain ⟨htype, hid, hkey⟩ := heq
  unfold Enters at hstep ⊢
  rwa [← htype, ← hid, ← hkey]

/-! ## Getting through -/

theorem traversable_of_children {fuel : Nat} {path : PathBuf} {bref : BlockRef}
    {children : List Child} {s s' : σ}
    (hrec : ∀ c ∈ children, ∀ f dec path s s', db.lookup c.blockref.blockid = some (.Full f) →
      decodeAs c.type f c.blockref.key = some dec →
      traverseRec db v fuel path c.blockref dec s = .ok (s', none) → Traversable db c.type c.blockref)
    (h : traverseChildren db v (traverseRec db v fuel) path bref children s = .ok (s', none)) :
    ∀ c ∈ children, Traversable db c.type c.blockref := by
  induction children generalizing s with
  | nil => simp
  | cons c children ih =>
    rw [List.forall_mem_cons] at hrec ⊢
    by_cases hfull : IsFull db (c.type, c.blockref)
    · obtain ⟨f, hf⟩ := hfull
      obtain ⟨dec, s₁, hdec, hbelow, h⟩ := of_traverseChildren_none hf h
      exact ⟨hrec.1 f dec _ _ _ hf hdec hbelow, ih hrec.2 h⟩
    · rw [traverseChildren_of_absent hfull] at h
      exact ⟨.absent hfull, ih hrec.2 (proceed_eq_none.mp h).2⟩

theorem traversable_of_none {fuel : Nat} {path : PathBuf} {type : BlockType} {r : BlockRef} {f : Full}
    {dec : Decoded} {s s' : σ} (hf : db.lookup r.blockid = some (.Full f))
    (hdec : decodeAs type f r.key = some dec)
    (h : traverseRec db v fuel path r dec s = .ok (s', none)) : Traversable db type r := by
  induction fuel generalizing path type r f dec s s' with
  | zero => cases h
  | succ fuel ih =>
    by_cases htype : type = .Directory
    · subst htype
      rw [decodeAs, Option.map_eq_some_iff] at hdec
      obtain ⟨dir, hdir, rfl⟩ := hdec
      rw [traverseRec_directory hf] at h
      refine .directory hf hdir (traversable_of_children ?_ (proceed_eq_none.mp h).2)
      intro c _ f dec path s s' hf hdec h
      exact ih hf hdec h
    · exact .file htype hf hdec

/-! ## Without a cycle -/

variable {path : PathBuf} {bref : BlockRef}

theorem traverseChildren_terminates {all pre cs : List Child} (hall : all = pre ++ cs)
    (hpre : ∀ c ∈ pre, Traversable db c.type c.blockref)
    (hrec : ∀ pre c post, all = pre ++ c :: post →
      (∀ x ∈ pre, Traversable db x.type x.blockref) → ∀ f dec path s,
      db.lookup c.blockref.blockid = some (.Full f) → decodeAs c.type f c.blockref.key = some dec →
      Terminates fun fuel => traverseRec db v fuel path c.blockref dec s) (s : σ) :
    Terminates fun fuel => traverseChildren db v (traverseRec db v fuel) path bref cs s := by
  induction cs generalizing pre s with
  | nil => exact .const (by simp)
  | cons c cs ih =>
    have hgo : Traversable db c.type c.blockref → ∀ x : σ × Option τ,
        Terminates fun fuel =>
          proceed x (traverseChildren db v (traverseRec db v fuel) path bref cs) := by
      intro hc x
      cases hx : x.2 with
      | some t => simpa only [proceed_some hx] using Terminates.const (by simp)
      | none =>
        simp only [proceed_none hx]
        apply ih (show all = (pre ++ [c]) ++ cs by simp [hall])
        rw [List.forall_mem_append, List.forall_mem_singleton]
        exact ⟨hpre, hc⟩
    by_cases hfull : IsFull db (c.type, c.blockref)
    · obtain ⟨f, hf⟩ := hfull
      simp only [traverseChildren_of_full hf]
      cases hdec : decodeAs c.type f c.blockref.key with
      | none => exact .const (by simp)
      | some dec =>
        simp only [Result.unwrap_some, Result.bind_ok]
        apply (hrec pre c cs hall hpre f dec _ s hf hdec).bind
        rintro ⟨s', t⟩ ⟨fuel, hfuel⟩
        cases t with
        | some t => exact .const (by simp)
        | none => exact hgo (traversable_of_none hf hdec (hfuel fuel le_rfl)) _
    · simp only [traverseChildren_of_absent hfull]
      exact hgo (.absent hfull) _

theorem traverseRec_terminates {r : Ref} (h : Acc (fun b a => Enters db a b) r) {f : Full}
    {dec : Decoded} (hf : db.lookup r.2.blockid = some (.Full f))
    (hdec : decodeAs r.1 f r.2.key = some dec) (path : PathBuf) (s : σ) :
    Terminates fun fuel => traverseRec db v fuel path r.2 dec s := by
  induction h generalizing f dec path s with
  | intro r _ ih =>
    obtain ⟨type, r⟩ := r
    apply Terminates.succ
    by_cases htype : type = .Directory
    · subst htype
      obtain ⟨dir, hdir, rfl⟩ := Option.map_eq_some_iff.mp hdec
      simp only [traverseRec_directory (show db.lookup r.blockid = _ from hf)]
      cases hx : (v.call db s (.Dir path f dir)).2 with
      | some t =>
        simp only [proceed_some hx]
        exact .const (by simp)
      | none =>
        simp only [proceed_none hx]
        apply traverseChildren_terminates (List.nil_append _).symm (by simp)
        intro pre c post hall hpre f' dec' path' s' hf' hdec'
        exact ih (c.type, c.blockref) ⟨rfl, f, dir, pre, c, post, hf, hdir, hall, hpre, rfl⟩
          hf' hdec' path' s'
    · simp only [traverseRec_file htype hf hdec]
      exact .const (by simp)

/-- Where no cycle can be entered, any visitor comes to an end. -/
theorem traverse_terminates {root : BlockRef} (h : ¬ Cyclic (Enters db) (.Directory, root)) (s : σ) :
    Terminates fun fuel => traverse db v fuel root s := by
  by_cases hread : ∃ f dir, db.lookup root.blockid = some (.Full f) ∧
      Dir.fromFull f root.key = some dir
  · obtain ⟨f, dir, hf, hdir⟩ := hread
    simp only [traverse_of_full hf hdir]
    cases hx : (v.call db s (.Dir rootPath f dir)).2 with
    | some t =>
      simp only [proceed_some hx]
      exact .const (by simp)
    | none =>
      simp only [proceed_none hx]
      exact traverseRec_terminates (acc_enters h) hf
        (decodeAs_directory hdir) _ _
  · have hpanic : ∀ f dir, db.lookup root.blockid = some (.Full f) →
        Dir.fromFull f root.key ≠ some dir := fun f dir hf hdir => hread ⟨f, dir, hf, hdir⟩
    simp only [traverse_of_unreadable hpanic]
    exact .const (by simp)

/-! ## In a cycle -/

/-- A quiet visitor gets past a finite tree, or the fuel runs out in it. -/
def Passes (x : Result (σ × Option τ)) : Prop := x = .diverge ∨ ∃ s, x = .ok (s, none)

theorem traverseChildren_passes_cons (hv : v.Quiet) {fuel : Nat} {c : Child} {cs : List Child}
    (hc : Traversable db c.type c.blockref)
    (hrec : ∀ f dec path s, db.lookup c.blockref.blockid = some (.Full f) →
      decodeAs c.type f c.blockref.key = some dec →
      Passes (traverseRec db v fuel path c.blockref dec s)) (s : σ) :
    traverseChildren db v (traverseRec db v fuel) path bref (c :: cs) s = .diverge ∨
      ∃ s', traverseChildren db v (traverseRec db v fuel) path bref (c :: cs) s =
        traverseChildren db v (traverseRec db v fuel) path bref cs s' := by
  by_cases hfull : IsFull db (c.type, c.blockref)
  · obtain ⟨f, hf⟩ := hfull
    obtain ⟨dec, hdec⟩ := hc.decodeAs hf
    rw [traverseChildren_of_full hf, hdec, Result.unwrap_some, Result.bind_ok]
    rcases hrec f dec _ s hf hdec with hrun | ⟨s', hrun⟩
    · exact Or.inl (by rw [hrun, Result.bind_diverge])
    · exact Or.inr ⟨s', by rw [hrun, Result.bind_ok, proceed_none rfl]⟩
  · rw [traverseChildren_of_absent hfull, proceed_none (hv _ _ _)]
    exact Or.inr ⟨_, rfl⟩

theorem traverseRec_passes (hv : v.Quiet) {type : BlockType} {r : BlockRef}
    (h : Traversable db type r) {fuel : Nat} {f : Full} {dec : Decoded} {path : PathBuf} {s : σ}
    (hf : db.lookup r.blockid = some (.Full f)) (hdec : decodeAs type f r.key = some dec) :
    Passes (traverseRec db v fuel path r dec s) := by
  induction h generalizing fuel f dec path s with
  | absent h => exact absurd ⟨f, hf⟩ h
  | @directory r g dir hg hdir hc ih =>
    obtain rfl := BlockDb.full_unique hf hg
    rw [decodeAs, hdir, Option.map_some, Option.some.injEq] at hdec
    subst hdec
    cases fuel with
    | zero => exact Or.inl rfl
    | succ fuel =>
      rw [traverseRec_directory hf, proceed_none (hv _ _ _)]
      -- over the children that are left
      have hleft : ∀ cs, (∀ c ∈ cs, c ∈ dir.children) → ∀ s,
          Passes (traverseChildren db v (traverseRec db v fuel) path r cs s) := by
        intro cs
        induction cs with
        | nil => exact fun _ s => Or.inr ⟨s, rfl⟩
        | cons c cs ihcs =>
          intro hcs s
          rw [List.forall_mem_cons] at hcs
          rcases traverseChildren_passes_cons hv (hc c hcs.1)
            (fun f dec path s hf hdec => ih c hcs.1 hf hdec) s with hrun | ⟨s', hrun⟩
          · exact Or.inl hrun
          · exact hrun ▸ ihcs hcs.2 s'
      exact hleft dir.children (fun _ hc => hc) _
  | file htype hg hdec' =>
    cases fuel with
    | zero => exact Or.inl rfl
    | succ fuel =>
      refine Or.inr ⟨(v.call db s (.ofDecoded path f dec)).1, ?_⟩
      rw [traverseRec_file htype hf hdec, ← hv db s (.ofDecoded path f dec)]

theorem traverseChildren_diverges (hv : v.Quiet) {fuel : Nat} {pre post : List Child} {c : Child}
    (hpre : ∀ x ∈ pre, Traversable db x.type x.blockref) {f : Full} {dec : Decoded}
    (hf : db.lookup c.blockref.blockid = some (.Full f))
    (hdec : decodeAs c.type f c.blockref.key = some dec)
    (hc : ∀ path s, traverseRec db v fuel path c.blockref dec s = .diverge) (s : σ) :
    traverseChildren db v (traverseRec db v fuel) path bref (pre ++ c :: post) s = .diverge := by
  induction pre generalizing s with
  | nil =>
    rw [List.nil_append, traverseChildren_of_full hf, hdec, Result.unwrap_some, Result.bind_ok, hc,
      Result.bind_diverge]
  | cons x pre ih =>
    rw [List.forall_mem_cons] at hpre
    rcases traverseChildren_passes_cons hv hpre.1
      (fun f dec path s hf hdec => traverseRec_passes hv hpre.1 hf hdec) s with hrun | ⟨s', hrun⟩
    · exact hrun
    · exact hrun.trans (ih hpre.2 s')

theorem readable_of_cyclic {r : Ref} (h : Cyclic (Enters db) r) :
    ∃ f dec, db.lookup r.2.blockid = some (.Full f) ∧ decodeAs r.1 f r.2.key = some dec := by
  obtain ⟨b, ⟨htype, f, dir, _, _, _, hf, hdir, -⟩, -⟩ := h.next
  exact ⟨f, .Dir dir, hf, htype ▸ decodeAs_directory hdir⟩

theorem traverseRec_cyclic (hv : v.Quiet) {r : Ref} (h : Cyclic (Enters db) r) {f : Full}
    {dec : Decoded} (hf : db.lookup r.2.blockid = some (.Full f))
    (hdec : decodeAs r.1 f r.2.key = some dec) (fuel : Nat) (path : PathBuf) (s : σ) :
    traverseRec db v fuel path r.2 dec s = .diverge := by
  induction fuel generalizing r f dec path s with
  | zero => rfl
  | succ fuel ih =>
    obtain ⟨b, ⟨htype, g, dir, pre, c, post, hg, hdir, hchildren, hpre, rfl⟩, hb⟩ := h.next
    obtain rfl := BlockDb.full_unique hf hg
    rw [htype, decodeAs, hdir, Option.map_some, Option.some.injEq] at hdec
    subst hdec
    obtain ⟨f', dec', hf', hdec'⟩ := readable_of_cyclic hb
    rw [traverseRec_directory hf, proceed_none (hv _ _ _), hchildren]
    exact traverseChildren_diverges hv hpre hf' hdec' (fun path s => ih hb hf' hdec' path s) _

theorem traverse_cyclic (hv : v.Quiet) {root : BlockRef}
    (h : Cyclic (Enters db) (.Directory, root)) (fuel : Nat) (s : σ) :
    traverse db v fuel root s = .diverge := by
  obtain ⟨f, dec, hf, hdec⟩ := readable_of_cyclic h
  obtain ⟨dir, hdir, rfl⟩ := Option.map_eq_some_iff.mp hdec
  rw [traverse_of_full hf hdir, proceed_none (hv _ _ _)]
  exact traverseRec_cyclic hv h hf hdec fuel rootPath _

/-- The verification, any search and the recursion when no visitor ends it come to an end. -/
def TraversalsEnd (db : BlockDb) (root : BlockRef) : Prop :=
  Terminates (fun fuel => verify db fuel true) ∧
    (∀ blockid, Terminates fun fuel => resolve db fuel blockid true) ∧
    ∀ (σ τ : Type) (v : Visitor σ τ), v.Quiet → ∀ s, Terminates fun fuel => traverse db v fuel root s

theorem not_cyclic_of_traversable {type : BlockType} {r : BlockRef} (h : Traversable db type r) :
    ¬ Cyclic (Enters db) (type, r) := by
  induction h with
  | absent h =>
    intro hcyclic
    obtain ⟨f, -, hf, -⟩ := readable_of_cyclic hcyclic
    exact h ⟨f, hf⟩
  | @directory r g dir hg hdir _ ih =>
    intro hcyclic
    obtain ⟨b, ⟨-, f, dir', pre, c, post, hf, hdir', hchildren, -, rfl⟩, hb⟩ := hcyclic.next
    obtain rfl := BlockDb.full_unique hf hg
    obtain rfl := Option.some.inj (hdir.symm.trans hdir')
    exact ih c (by simp [hchildren]) hb
  | file htype hf hdec =>
    intro hcyclic
    obtain ⟨b, ⟨hdir, -⟩, -⟩ := hcyclic.next
    exact htype hdir

/-- The traversals end exactly when no directory that they get to contains itself. -/
theorem traversals_end_iff {db : BlockDb} {root : BlockRef} (hp : db.pendingRoot = some root) :
    TraversalsEnd db root ↔ ¬ Cyclic (Enters db) (.Directory, root) := by
  constructor
  · rintro ⟨-, -, hquiet⟩ hcyclic
    exact not_terminates_of_diverge (fun fuel => traverse_cyclic onlooker_quiet hcyclic fuel ())
      (hquiet Unit Unit onlooker onlooker_quiet ())
  · intro h
    refine ⟨?_, ?_, fun σ τ v _ s => traverse_terminates h s⟩
    · simp only [verify, BlockDb.rootRef, if_true, hp, Result.unwrap_some, Result.bind_ok]
      apply (traverse_terminates h ()).bind
      rintro ⟨_, t⟩ -
      exact .const (by simp)
    · intro blockid
      simp only [resolve, BlockDb.rootRef, if_true, hp, Result.unwrap_some, Result.bind_ok]
      apply (traverse_terminates h ()).bind
      rintro ⟨_, t⟩ -
      cases t <;> exact .const (by simp)

end Sealing

/-- The traversals of a folder with one file whose leaf is missing. -/
theorem traversals_end_iff_listed :
    letI := sealing
    TraversalsEnd (listingDb ∅) rootOf := by
  let _ := sealing
  have hfinite := (listingDb_decodes ∅ (.absent listingDb_absent)).traversable
  exact (traversals_end_iff rfl).mpr (not_cyclic_of_traversable hfinite)

/-! ## A directory that is its own child -/

def peer : SocketAddr := { ip := .V4 (Vector.replicate 4 1), port := 1 }

def victim : Handler :=
  Handler.new { absolute := false, components := [] } 0
    (BlockDb.new { blockid := idOf 9, key := noKey, hints := [] } ∅) { cwd := [], node := fun _ => none }

def announceLoop : Msg :=
  .RootUpdate { nonce := Vector.replicate 12 0, fromBlockid := idOf 9, toBlockref := rootOf }

def offerLoop : Msg := .BlockRequestResponse { blockid := idOf 0, startId := 0, endId := 1, len := 144 }

section Loop

variable [Sealing]

def loopOf : Dir :=
  { children := [{ name := "a", type := .Directory, blockref := rootOf }] }

def loopBlock : Full := { id := idOf 0, data := (toBlock loopOf noKey noKey).data }

theorem loopBlock_decodes : Dir.fromFull loopBlock noKey = some loopOf :=
  (fromFull_congr rfl noKey).trans (fromFull_toBlock loopOf noKey noKey)

variable {db : BlockDb}

theorem traverseRec_loop (h : db.lookup (idOf 0) = some (.Full loopBlock)) (fuel : Nat)
    (path : PathBuf) :
    traverseRec db verifyVisitor fuel path rootOf (.Dir loopOf) () = .diverge := by
  induction fuel generalizing path with
  | zero => rfl
  | succ fuel ih =>
    have hdec := decodeAs_directory loopBlock_decodes
    have hroot : db.lookup rootOf.blockid = some (.Full loopBlock) := h
    rw [traverseRec_directory hroot, proceed_none rfl, loopOf, traverseChildren_of_full hroot]
    show Result.unwrap (decodeAs .Directory loopBlock noKey) >>= _ = _
    rw [hdec, Result.unwrap_some, Result.bind_ok, ih, Result.bind_diverge]

theorem verify_loop (h : db.lookup (idOf 0) = some (.Full loopBlock))
    (hp : db.pendingRoot = some rootOf) (fuel : Nat) : verify db fuel true = .diverge := by
  have htrav : traverse db verifyVisitor fuel rootOf () = .diverge := by
    have hroot : db.lookup rootOf.blockid = some (.Full loopBlock) := h
    rw [traverse_of_full hroot loopBlock_decodes, proceed_none rfl]
    exact traverseRec_loop h fuel rootPath
  simp [verify, BlockDb.rootRef, hp, htrav]

theorem resolve_loop (h : db.lookup (idOf 0) = some (.Full loopBlock))
    (hp : db.pendingRoot = some rootOf) (fuel : Nat) : resolve db fuel (idOf 0) true = .ok (.Dir loopOf) := by
  have htrav : traverse db (resolveBlockVisitor (idOf 0)) fuel rootOf () =
      .ok ((), some (.Dir loopOf)) := by
    have hroot : db.lookup rootOf.blockid = some (.Full loopBlock) := h
    rw [traverse_of_full hroot loopBlock_decodes, proceed_some (t := .Dir loopOf)]
    simp [Visitor.call, resolveBlockVisitor, loopBlock]
  simp [resolve, BlockDb.rootRef, hp, htrav]

def loopChunk : TransferPayload := { chunkid := 0, data := loopBlock.data }

theorem stored_loop (hlen : loopBlock.data.length = 144) (t : Transfer) (ht : t.start = 0) :
    Handler.stored t (Handler.emptyBlock (idOf 0) 144) loopChunk =
      { id := idOf 0, data := loopBlock.data, available := [true] } := by
  have hdata := overwrite_take (0 : UInt8) (List.replicate 144 0) 0 loopBlock.data (Nat.zero_le _)
  rw [Nat.zero_add, hlen, List.take_zero, List.nil_append, List.take_of_length_le] at hdata
  · simp only [Handler.stored, Handler.emptyBlock, loopChunk, ht, Nat.sub_self, Nat.zero_mul, hdata]
    rfl
  · rw [overwrite_length_of_fits _ _ _ _ (by simp [hlen])]
    simp

theorem transferPayload_loop (hlen : loopBlock.data.length = 144) {h : Handler} {c : Client}
    (hc : h.clients.lookup peer = some c)
    (htin : c.transferIn = { transfers := [⟨idOf 0, 0, 1⟩], statusTx := true })
    (hblock : h.blockdb.lookup (idOf 0) = some (.Partial (Handler.emptyBlock (idOf 0) 144)))
    (hp : h.blockdb.pendingRoot = some rootOf) :
    ∃ t h' db, h.storeChunk peer loopChunk = .ok (t, h') ∧
      h'.blockdb.tryPromote (idOf 0) = .ok (true, db) ∧
      db.lookup (idOf 0) = some (.Full loopBlock) ∧ db.pendingRoot = some rootOf ∧
      ∀ fuel, h.transferPayload fuel peer loopChunk = .diverge := by
  obtain ⟨h', hstore, hdb, hclient⟩ : ∃ h', h.storeChunk peer loopChunk = .ok (⟨idOf 0, 0, 1⟩, h') ∧
      h'.blockdb = h.blockdb.set (idOf 0)
        (.Partial { id := idOf 0, data := loopBlock.data, available := [true] }) ∧
      h'.clients.lookup peer = some c := by
    refine ⟨_, Handler.storeChunk_eq_ok.mpr ⟨c, _, hc, by rw [htin], by rw [htin]; rfl, hblock,
      ?_, ?_, ?_, rfl⟩, ?_, hc⟩
    · simp [loopChunk, Handler.emptyBlock, hlen]
    · simp [loopChunk, hlen, chunkSize]
    · simp [loopChunk, Handler.emptyBlock, chunkSize]
    · rw [stored_loop hlen _ rfl]
  have hpromote : h'.blockdb.tryPromote (idOf 0) =
      .ok (true, h'.blockdb.set (idOf 0) (.Full loopBlock)) := by
    have hget : h'.blockdb.get (idOf 0) =
        .ok (.Partial { id := idOf 0, data := loopBlock.data, available := [true] }) := by
      rw [hdb, BlockDb.get_eq_ok, BlockDb.lookup_set_self]
    rw [BlockDb.tryPromote, hget]
    rfl
  refine ⟨_, h', _, hstore, hpromote, BlockDb.lookup_set_self, by rw [hdb]; exact hp, ?_⟩
  intro fuel
  have hloop : (h'.blockdb.set (idOf 0) (.Full loopBlock)).lookup (idOf 0) = some (.Full loopBlock) :=
    BlockDb.lookup_set_self
  have hroot : (h'.blockdb.set (idOf 0) (.Full loopBlock)).pendingRoot = some rootOf := by
    rw [hdb]
    exact hp
  have hmissing : ∀ h'' : Handler, h''.blockdb.contains (idOf 0) = true →
      h''.requestMissing peer (Handler.blockrefs (.Dir loopOf)) = .ok h'' := by
    intro h'' hcontains
    simp [Handler.blockrefs, loopOf, Handler.requestMissing, rootOf, hcontains]
  simp [Handler.transferPayload, Handler.receiveChunk, hstore, hpromote, Handler.client, hclient, htin,
    resolve_loop hloop hroot, verify_loop hloop hroot, hmissing, Handler.setClient, Result.assert, hloop]

end Loop

/-- A peer announces the directory, offers it and sends it. The handler does not come back. -/
theorem own_child_diverges :
    letI := sealing
    ∃ h₁ h₂ t h₃ db, victim.receive 0 0 0 peer announceLoop = .ok (h₁, []) ∧
      h₁.receive 0 0 0 peer offerLoop = .ok (h₂, []) ∧
      h₂.storeChunk peer loopChunk = .ok (t, h₃) ∧
      h₃.blockdb.tryPromote (idOf 0) = .ok (true, db) ∧ db.pendingRoot = some rootOf ∧
      (∀ fuel, verify db fuel true = .diverge) ∧ ¬ TraversalsEnd db rootOf ∧
      ∀ fuel, h₂.receive fuel 0 0 peer (.TransferPayload loopChunk) = .diverge := by
  let _ := sealing
  have hlen : loopBlock.data.length = 144 := by decide +kernel
  have hrun : (do
      let r₁ ← victim.receive 0 0 0 peer announceLoop
      let r₂ ← r₁.1.receive 0 0 0 peer offerLoop
      return (r₁.2 ++ r₂.2, (r₂.1.clients.lookup peer).map Client.transferIn,
        r₂.1.blockdb.lookup (idOf 0), r₂.1.blockdb.pendingRoot)) =
      .ok ([], some { transfers := [⟨idOf 0, 0, 1⟩], statusTx := true },
        some (.Partial (Handler.emptyBlock (idOf 0) 144)), some rootOf) := by decide +kernel
  simp only [Result.bind_eq_ok, Result.pure_def, Result.ok.injEq, Prod.mk.injEq,
    List.append_eq_nil_iff, Option.map_eq_some_iff] at hrun
  obtain ⟨⟨h₁, _⟩, hannounce, ⟨h₂, _⟩, hoffer, ⟨rfl, rfl⟩, ⟨c, hc, htin⟩, hblock, hp⟩ := hrun
  obtain ⟨t, h₃, db, hstore, hpromote, hloop, hroot, hdiverge⟩ :=
    transferPayload_loop hlen hc htin hblock hp
  refine ⟨h₁, h₂, t, h₃, db, hannounce, hoffer, hstore, hpromote, hroot, verify_loop hloop hroot,
    fun hend => ?_, fun fuel => ?_⟩
  · exact not_terminates_of_diverge (fun fuel => verify_loop hloop hroot fuel) hend.1
  · rw [Handler.receive, if_neg (by simp [hc])]
    exact hdiverge fuel

end DasProtokoll.Scsync
