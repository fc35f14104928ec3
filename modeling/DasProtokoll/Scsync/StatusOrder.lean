import DasProtokoll.Scsync.Idempotence

/-!
# The order of a status

A status names the missing chunks entry by entry, in the order of the table, and
the codec sends each bound as the difference to the one before it. The table is in
the order in which the responses arrived, and the client's chunk ids are in the
order in which the requests arrived.
-/

namespace DasProtokoll.Scsync

open DasProtokoll

/-- The chunk ids of `a` are before those of `b`, if both have any. -/
def Transfer.Before (a b : Transfer) : Prop := a.start < a.stop → b.start < b.stop → a.stop ≤ b.start

instance (a b : Transfer) : Decidable (a.Before b) :=
  inferInstanceAs (Decidable (a.start < a.stop → b.start < b.stop → a.stop ≤ b.start))

/-- The bounds of what the status loop finds never go down, so that there is a difference to send for each
of them. -/
def StatusOrdered (h : Handler) (addr : SocketAddr) : Prop :=
  ∀ ranges, h.outstanding addr = .ok ranges →
    (MyCodec.bounds ranges).Pairwise (· ≤ ·) ∧
      ∃ values, MyCodec.differences 0 (MyCodec.bounds ranges) = .ok values

/-! ## Bounds -/

theorem MyCodec.bounds_flatMap {α : Type*} (f : α → Ranges) (l : List α) :
    bounds (l.flatMap f) = l.flatMap fun a => bounds (f a) := by
  unfold bounds
  exact List.flatMap_assoc

theorem MyCodec.bounds_sorted {ranges : Ranges} (h : Ranges.Ascending ranges) :
    (bounds ranges).Pairwise (· ≤ ·) := by
  unfold bounds
  rw [List.pairwise_flatMap]
  constructor
  · intro r hr
    have := h.nonempty r hr
    simp
    omega
  · refine h.ordered.imp_of_mem ?_
    intro a b ha hb hab x hx y hy
    have := h.nonempty a ha
    have := h.nonempty b hb
    simp only [List.mem_cons, List.not_mem_nil, or_false] at hx hy
    omega

theorem statusOrdered_iff_sorted {h : Handler} {addr : SocketAddr} :
    StatusOrdered h addr ↔
      ∀ ranges, h.outstanding addr = .ok ranges → (MyCodec.bounds ranges).Pairwise (· ≤ ·) := by
  constructor
  · intro hordered ranges hranges
    exact (hordered ranges hranges).1
  · intro hsorted ranges hranges
    refine ⟨hsorted ranges hranges, MyCodec.differences_ok_iff.mpr ?_⟩
    exact List.pairwise_cons.mpr ⟨fun _ _ => Nat.zero_le _, hsorted ranges hranges⟩

/-! ## The ranges of one entry -/

section Missing

variable {db : BlockDb} {t : Transfer} {p : Partial} {l : List Transfer}

theorem exists_missing (hopen : Handler.Open db) (hp : PartialBlock db t p) (ht : t.start < t.stop) :
    ∃ r, r ∈ missing db t := by
  have hne : p.available ≠ [] := by
    have hstop := hp.stop
    apply List.ne_nil_of_length_pos
    rw [hp.chunks, numChunks, chunkSize]
    omega
  have hmissing := hopen _ p hp.lookup hne
  simp only [Handler.Whole, not_forall] at hmissing
  obtain ⟨b, hb, hfalse⟩ := hmissing
  obtain ⟨i, hi⟩ := List.mem_iff_getElem?.mp hb
  have hmem : t.start + i ∈ Ranges.members (missing db t) := by
    rw [members_missing, mem_zeros, availableOf, hp.lookup]
    refine ⟨Nat.le_add_right _ _, ?_⟩
    rw [Nat.add_sub_cancel_left]
    simpa [hfalse] using hi
  obtain ⟨r, hr, -⟩ := Ranges.mem_members.mp hmem
  exact ⟨r, hr⟩

/-! ## The ranges of a table -/

theorem allPartial_of_missingRanges {ranges : Ranges}
    (h : Handler.missingRanges db l = .ok ranges) : AllPartial db l := by
  induction l generalizing ranges with
  | nil => simp [AllPartial]
  | cons t l ih =>
    simp only [Handler.missingRanges, Result.bind_eq_ok, BlockDb.get_eq_ok,
      Handler.partialRef_eq_ok] at h
    obtain ⟨block, hblock, p, rfl, rest, hrest, -⟩ := h
    exact List.forall_mem_cons.mpr ⟨⟨p, hblock⟩, ih hrest⟩

theorem bounds_before_iff {a b : Transfer} {q : Partial} (hopen : Handler.Open db)
    (ha : PartialBlock db a p) (hb : PartialBlock db b q)
    (hdisjoint : a = b ∨ a.stop ≤ b.start ∨ b.stop ≤ a.start) :
    (∀ x ∈ MyCodec.bounds (missing db a), ∀ y ∈ MyCodec.bounds (missing db b), x ≤ y) ↔
      a.Before b := by
  constructor
  · intro hle hna hnb
    have hranges : ∀ r ∈ missing db a, ∀ s ∈ missing db b, r.2 ≤ s.1 := by
      intro r hr s hs
      apply hle
      · exact List.mem_flatMap.mpr ⟨r, hr, by simp⟩
      · exact List.mem_flatMap.mpr ⟨s, hs, by simp⟩
    obtain ⟨r, hr⟩ := exists_missing hopen ha hna
    obtain ⟨s, hs⟩ := exists_missing hopen hb hnb
    have hra := mem_missing ha hr
    have hsb := mem_missing hb hs
    have hrs := hranges r hr s hs
    rcases hdisjoint with rfl | hbefore | hafter
    · -- An entry that is there twice lists its first missing chunk again behind the last one.
      have := hranges r hr r hr
      omega
    · exact hbefore
    · omega
  · intro hbefore x hx y hy
    obtain ⟨r, hr, hx⟩ := MyCodec.mem_bounds hx
    obtain ⟨s, hs, hy⟩ := MyCodec.mem_bounds hy
    have hra := mem_missing ha hr
    have hsb := mem_missing hb hs
    have := hbefore (by omega) (by omega)
    omega

theorem bounds_sorted_iff (hopen : Handler.Open db) (hblocks : ∀ t ∈ l, ∃ p, PartialBlock db t p)
    (hdisjoint : ∀ a ∈ l, ∀ b ∈ l, a = b ∨ a.stop ≤ b.start ∨ b.stop ≤ a.start) :
    (MyCodec.bounds (l.flatMap (missing db))).Pairwise (· ≤ ·) ↔ l.Pairwise Transfer.Before := by
  rw [MyCodec.bounds_flatMap, List.pairwise_flatMap]
  have hpair : ∀ {a b : Transfer}, a ∈ l → b ∈ l →
      ((∀ x ∈ MyCodec.bounds (missing db a), ∀ y ∈ MyCodec.bounds (missing db b), x ≤ y) ↔
        a.Before b) := by
    intro a b ha hb
    obtain ⟨p, hp⟩ := hblocks a ha
    obtain ⟨q, hq⟩ := hblocks b hb
    exact bounds_before_iff hopen hp hq (hdisjoint a ha b hb)
  constructor
  · rintro ⟨-, hordered⟩
    exact (List.Pairwise.iff_of_mem hpair).mp hordered
  · intro hordered
    refine ⟨fun t _ => MyCodec.bounds_sorted missing_ascending, ?_⟩
    exact (List.Pairwise.iff_of_mem hpair).mpr hordered

end Missing

/-! ## Steps of the server -/

section Serde

variable [Serde] [Sealing] {addrs : Addresses} {s s' : System} {e : Event} {root : BlockRef}
  {db : BlockDb} {c : Client} {l : List Transfer}

/-- The response that is delivered, if any, starts behind all entries. Where the status loop cannot go
through the table, the order does not matter. -/
def InOrder (addrs : Addresses) (r : Transition System Event) : Prop :=
  ∀ res l, r.source.Receives r.label (.BlockRequestResponse res) →
    r.source.server.table addrs.client = some l → AllPartial r.source.server.blockdb l →
    (∀ f, r.source.server.blockdb.lookup res.blockid ≠ some (.Full f)) →
    ∀ t ∈ l, t.Before (Handler.announced res)

/-- All entries have a block, and if all of these are partial, then the entries are in order. -/
structure TableOrdered (db : BlockDb) (l : List Transfer) : Prop where
  present : ∀ t ∈ l, db.lookup t.blockid ≠ none
  ordered : AllPartial db l → l.Pairwise Transfer.Before

omit [Sealing] in
theorem SystemInv.partialBlock (hinv : SystemInv addrs root db s c)
    (hl : s.server.table addrs.client = some l) {t : Transfer} (ht : t ∈ l) {p : Partial}
    (hp : s.server.blockdb.lookup t.blockid = some (.Partial p)) :
    PartialBlock s.server.blockdb t p := by
  obtain ⟨f, hf, harrived⟩ := hinv.receiver.parts _ p hp
  obtain ⟨f', hf', hstop⟩ := hinv.sender.serving.blocks _ (hinv.listed hl ht)
  obtain rfl := BlockDb.full_unique hf' hf
  refine ⟨hp, ?_, ?_⟩
  · rw [harrived.length]
    exact hstop
  · rw [harrived.length]
    exact harrived.chunks

omit [Sealing] in
theorem SystemInv.disjoint (hinv : SystemInv addrs root db s c)
    (hl : s.server.table addrs.client = some l) {a b : Transfer} (ha : a ∈ l) (hb : b ∈ l) :
    a = b ∨ a.stop ≤ b.start ∨ b.stop ≤ a.start := by
  by_cases hab : a = b
  · exact Or.inl hab
  · refine Or.inr (hinv.sender.serving.disjoint (hinv.listed hl ha) (hinv.listed hl hb) ?_)
    intro heq
    exact hab (Transfer.eq_of_listed heq)

omit [Sealing] in
theorem SystemInv.statusOrdered_iff (hinv : SystemInv addrs root db s c)
    (hopen : Handler.Open s.server.blockdb) :
    StatusOrdered s.server addrs.client ↔ ∀ l, s.server.table addrs.client = some l →
      AllPartial s.server.blockdb l → l.Pairwise Transfer.Before := by
  rw [statusOrdered_iff_sorted]
  cases hclient : s.server.clients.lookup addrs.client with
  | none => simp [Handler.outstanding, Handler.table, hclient, MyCodec.bounds]
  | some c₁ =>
    have hl := Handler.table_of_lookup hclient
    have hiff : AllPartial s.server.blockdb c₁.transferIn.transfers →
        ((MyCodec.bounds (c₁.transferIn.transfers.flatMap (missing s.server.blockdb))).Pairwise
          (· ≤ ·) ↔ c₁.transferIn.transfers.Pairwise Transfer.Before) := by
      intro hparts
      refine bounds_sorted_iff hopen (fun t ht => ?_) fun a ha b hb => hinv.disjoint hl ha hb
      obtain ⟨p, hp⟩ := hparts t ht
      exact ⟨p, hinv.partialBlock hl ht hp⟩
    simp only [Handler.outstanding, hclient, hl, Option.some.injEq, forall_eq']
    constructor
    · intro hsorted hparts
      exact (hiff hparts).mp (hsorted _ (missingRanges_eq hparts))
    · intro hordered ranges hranges
      have hparts := allPartial_of_missingRanges hranges
      rw [missingRanges_eq hparts, Result.ok.injEq] at hranges
      rw [← hranges]
      exact (hiff hparts).mpr (hordered hparts)

end Serde

/-! ## Changes of the table -/

section Table

variable {db : BlockDb} {l : List Transfer}

theorem allPartial_announced_iff (hpresent : ∀ t ∈ l, db.lookup t.blockid ≠ none)
    {res : BlockRequestResponse} {len : Nat} :
    AllPartial (db.add (.Partial (Handler.emptyBlock res.blockid len))) (l ++ [Handler.announced res]) ↔
      AllPartial db l ∧ ∀ f, db.lookup res.blockid ≠ some (.Full f) := by
  unfold AllPartial
  rw [List.forall_mem_append, List.forall_mem_singleton]
  apply and_congr
  · apply forall₂_congr
    intro t ht
    obtain ⟨b, hb⟩ := Option.ne_none_iff_exists'.mp (hpresent t ht)
    rw [hb, BlockDb.lookup_add_of_some hb]
  · rw [Handler.announced_blockid]
    cases hb : db.lookup res.blockid with
    | none => simp [lookup_announced hb]
    | some b =>
      rw [BlockDb.lookup_add_of_some hb]
      cases b with
      | Partial p => simp
      | Full f => simp

theorem TableOrdered.announced (ht : TableOrdered db l) {res : BlockRequestResponse} {len : Nat}
    (hafter : AllPartial db l → (∀ f, db.lookup res.blockid ≠ some (.Full f)) →
      ∀ t ∈ l, t.Before (Handler.announced res)) :
    TableOrdered (db.add (.Partial (Handler.emptyBlock res.blockid len)))
      (l ++ [Handler.announced res]) := by
  constructor
  · rw [List.forall_mem_append, List.forall_mem_singleton]
    constructor
    · intro t htl
      obtain ⟨b, hb⟩ := Option.ne_none_iff_exists'.mp (ht.present t htl)
      simp [BlockDb.lookup_add_of_some hb]
    · rw [Handler.announced_blockid]
      cases hb : db.lookup res.blockid with
      | none => simp [lookup_announced hb]
      | some b => simp [BlockDb.lookup_add_of_some hb]
  · rw [allPartial_announced_iff ht.present]
    rintro ⟨hparts, hnotFull⟩
    rw [List.pairwise_append]
    refine ⟨ht.ordered hparts, List.pairwise_singleton _ _, fun t htl x hx => ?_⟩
    rw [List.mem_singleton.mp hx]
    exact hafter hparts hnotFull t htl

theorem TableOrdered.stored (ht : TableOrdered db l) {id : BlockId} {p : Partial}
    (hp : db.lookup id = some (.Partial p)) (p' : Partial) :
    TableOrdered (db.set id (.Partial p')) l := by
  have hother : ∀ t : Transfer, t.blockid ≠ id →
      (db.set id (.Partial p')).lookup t.blockid = db.lookup t.blockid :=
    fun t hid => BlockDb.lookup_set_ne hid
  constructor
  · intro t htl
    by_cases hid : t.blockid = id
    · simp [hid, BlockDb.lookup_set_self]
    · rw [hother t hid]
      exact ht.present t htl
  · intro hparts
    apply ht.ordered
    intro t htl
    by_cases hid : t.blockid = id
    · exact ⟨p, hid ▸ hp⟩
    · rw [← hother t hid]
      exact hparts t htl

theorem TableOrdered.completed (ht : TableOrdered db l) {t : Transfer} {p : Partial}
    (hp : db.lookup t.blockid = some (.Partial p)) (f : Full) :
    TableOrdered (db.set t.blockid (.Full f)) (l.erase t) := by
  have hother : ∀ t' : Transfer, t'.blockid ≠ t.blockid →
      (db.set t.blockid (.Full f)).lookup t'.blockid = db.lookup t'.blockid :=
    fun t' hid => BlockDb.lookup_set_ne hid
  constructor
  · intro t' ht'
    by_cases hid : t'.blockid = t.blockid
    · simp [hid, BlockDb.lookup_set_self]
    · rw [hother t' hid]
      exact ht.present t' (List.mem_of_mem_erase ht')
  · intro hparts
    refine (ht.ordered fun t' ht' => ?_).sublist List.erase_sublist
    by_cases hid : t'.blockid = t.blockid
    · exact ⟨p, hid ▸ hp⟩
    · rw [← hother t' hid]
      refine hparts t' ((List.mem_erase_of_ne fun heq => hid ?_).mpr ht')
      exact congrArg Transfer.blockid heq

end Table

section Serde

variable [Serde] [Sealing] {addrs : Addresses} {s s' : System} {e : Event} {root : BlockRef}
  {db : BlockDb} {c : Client}

theorem tableOrdered_step
    (hok : ∀ l, s.server.table addrs.client = some l → TableOrdered s.server.blockdb l)
    (h : System.Step addrs s e s') (horder : InOrder addrs ⟨s, e, s'⟩) :
    ∀ l, s'.server.table addrs.client = some l → TableOrdered s'.server.blockdb l := by
  refine System.table_step h hok ?_ ?_ ?_ ?_
  · intro db
    exact ⟨by simp, fun _ => List.Pairwise.nil⟩
  · intro res l hr hl ht
    exact ht.announced (horder res l hr hl)
  · intro l t p p' hp ht
    exact ht.stored hp p'
  · intro l t p f _ hp ht
    exact ht.completed hp f

/-- What is true in all states up to the first response that is out of order. -/
structure Orderly (addrs : Addresses) (root : BlockRef) (db : BlockDb) (s : System) : Prop where
  inv : ∃ c, SystemInv addrs root db s c
  opened : Handler.Open s.server.blockdb
  table : ∀ l, s.server.table addrs.client = some l → TableOrdered s.server.blockdb l

omit [Sealing] in
theorem Orderly.statusOrdered (ho : Orderly addrs root db s) : StatusOrdered s.server addrs.client := by
  obtain ⟨c, hinv⟩ := ho.inv
  rw [hinv.statusOrdered_iff ho.opened]
  intro l hl hparts
  exact (ho.table l hl).ordered hparts

theorem Orderly.step (ho : Orderly addrs root db s) (hroot : db.root = root) (hdb : Complete db)
    (h : System.Step addrs s e s') (horder : InOrder addrs ⟨s, e, s'⟩) :
    Orderly addrs root db s' := by
  obtain ⟨c, hinv⟩ := ho.inv
  obtain ⟨c', hinv', -⟩ := hinv.step hroot hdb h
  exact ⟨⟨c', hinv'⟩, System.server_open h ho.opened, tableOrdered_step ho.table h horder⟩

theorem Orderly.inOrder (ho : Orderly addrs root db s) (hroot : db.root = root) (hdb : Complete db)
    (h : System.Step addrs s e s') (hstatus : StatusOrdered s'.server addrs.client) :
    InOrder addrs ⟨s, e, s'⟩ := by
  intro res l hr hl hparts hnotFull t ht
  obtain ⟨c, hinv⟩ := ho.inv
  obtain ⟨c', hinv', -⟩ := hinv.step hroot hdb h
  rw [hinv'.statusOrdered_iff (System.server_open h ho.opened)] at hstatus
  obtain ⟨htable, hblockdb⟩ := System.announced h hr hl
  have hparts' : AllPartial s'.server.blockdb (l ++ [Handler.announced res]) := by
    rw [hblockdb]
    exact (allPartial_announced_iff (ho.table l hl).present).mpr ⟨hparts, hnotFull⟩
  have hordered := hstatus _ htable hparts'
  exact (List.pairwise_append.mp hordered).2.2 t ht _ (List.mem_singleton_self _)

variable {client server : Opt} {rand : UInt32} {nonce : Vector UInt8 12} {capacity : Nat} {s₀ : System}

/-- The status is in order in all states of a run exactly when each response that the server handles starts
behind the entries of its table. -/
theorem status_ordered_iff (hno : NoCollision (client.blocks ++ server.blocks))
    (hstart : System.start addrs client server rand nonce capacity = .ok s₀)
    {l : List (Transition System Event)} (hrun : Run (System.Step addrs) s₀ l s) :
    StatusOrdered s₀.server addrs.client ∧
      ((∀ r ∈ l, StatusOrdered r.target.server addrs.client) ↔ ∀ r ∈ l, InOrder addrs r) := by
  obtain ⟨root, c, -, -, hinv⟩ := SystemInv.start hno hstart
  have hcomplete := insertAll_complete root client.blocks
  have horderly : Orderly addrs root (BlockDb.new root (insertAll client.blocks)) s₀ := by
    refine ⟨⟨c, hinv⟩, System.start_open hstart, ?_⟩
    obtain ⟨_, _, _, -, -, rfl⟩ := start_ok hstart
    intro l hl
    cases hl
  refine ⟨horderly.statusOrdered, ?_⟩
  refine hrun.guard_iff (I := Orderly addrs root (BlockDb.new root (insertAll client.blocks)))
    horderly ?_ ?_
  · intro t e u ho hstep
    constructor
    · intro hstatus
      exact ho.inOrder rfl hcomplete hstep hstatus
    · intro horder
      exact (ho.step rfl hcomplete hstep horder).statusOrdered
  · intro t e u ho hstep horder
    exact ho.step rfl hcomplete hstep horder

end Serde

/-! ## Two files at once -/

/-- A folder with the files `a` and `b`. -/
def twoFiles : Opt := optOf [0x63] 3 (.file plainName [7] (.file [0x62] [8] .nil))

/-- The files have the first two blocks, and their folder the third one. -/
def blockOfTwo [Sealing] (i : Nat) : BlockId :=
  ((twoFiles.blocks[i]?).map fun f => f.id).getD (Vector.replicate 32 0)

theorem twoFiles_noCollision :
    letI := sealing
    NoCollision (twoFiles.blocks ++ serverOpt.blocks) := by
  apply noCollision_of_nodup
  decide +kernel

section Replay

variable [Serde]

/-- Whether the response of a step, if any, starts behind all entries. -/
def System.inOrder (s : System) (e : Event) : Bool :=
  match s.received e with
  | some (.BlockRequestResponse res) =>
    ((s.server.table ends.client).getD []).all fun t => t.Before (Handler.announced res)
  | _ => true

theorem System.inOrder_sound {s s' : System} {e : Event} (h : s.inOrder e = true) :
    InOrder ends ⟨s, e, s'⟩ := by
  intro res l hr hl _ _ t ht
  rw [receives_iff] at hr
  simp only [inOrder, hr, hl, Option.getD_some, List.all_eq_true, decide_eq_true_eq] at h
  exact h t ht

variable [Sealing]

def System.nextInOrder (s : System) (e : Event) : Result System := do
  Result.assert (s.inOrder e = true)
  s.next ends e

theorem System.nextInOrder_ok {s s' : System} {e : Event} (h : s.nextInOrder e = .ok s') :
    System.Step ends s e s' ∧ InOrder ends ⟨s, e, s'⟩ := by
  obtain ⟨_, horder, h⟩ := Result.bind_eq_ok.mp h
  exact ⟨h, inOrder_sound (Result.assert_eq_ok.mp horder)⟩

/-- The folder is transferred, and the server asks for both files. The responses become the datagrams 3
and 4 to the server. -/
def askForBoth : List Event :=
  eventOf .server (.deliver 0) :: fetch 0 1 (blockOfTwo 2) ++ [
    eventOf .server (.deliver 2),
    eventOf .server (.requestRetry ends.client (blockOfTwo 0)),
    eventOf .server (.requestRetry ends.client (blockOfTwo 1)),
    eventOf .client (.deliver 2),
    eventOf .client (.deliver 3)]

/-- The session with the responses as they were sent, and with the second one first. -/
def bothOrders : Result (System × System × System) := do
  let s₀ ← System.start ends twoFiles serverOpt 9 (Vector.replicate 12 0) 0
  let s ← replay System.nextInOrder s₀ askForBoth
  let inOrder ← replay System.nextInOrder s [eventOf .server (.deliver 3), eventOf .server (.deliver 4)]
  let swapped ← replay (System.next ends) s [eventOf .server (.deliver 4), eventOf .server (.deliver 3)]
  return (s₀, inOrder, swapped)

theorem bothOrders_ok {s₀ inOrder swapped : System} (h : bothOrders = .ok (s₀, inOrder, swapped)) :
    System.start ends twoFiles serverOpt 9 (Vector.replicate 12 0) 0 = .ok s₀ ∧
      (∃ l, Run (System.Step ends) s₀ l inOrder ∧ ∀ r ∈ l, InOrder ends r) ∧
      Reachable (System.Step ends) s₀ swapped := by
  simp only [bothOrders, Result.bind_eq_ok, Result.pure_def, Result.ok.injEq, Prod.mk.injEq] at h
  obtain ⟨_, hstart, s, hasked, _, hin, _, hswapped, rfl, rfl, rfl⟩ := h
  obtain ⟨l, hl, hall⟩ := replay_run (fun _ _ _ => System.nextInOrder_ok) hasked
  obtain ⟨m, hm, hall'⟩ := replay_run (fun _ _ _ => System.nextInOrder_ok) hin
  refine ⟨hstart, ⟨l ++ m, hl.trans hm, ?_⟩, ?_⟩
  · exact List.forall_mem_append.mpr ⟨hall, hall'⟩
  · exact Reachable.trans ⟨l, hl⟩ (replay_reachable (fun _ _ _ h => h) hswapped)

end Replay

theorem bothOrders_run :
    letI := serde
    letI := sealing
    ∃ s₀ inOrder swapped, bothOrders = .ok (s₀, inOrder, swapped) ∧
      inOrder.server.outstanding ends.client = .ok [(313, 314), (345, 346)] ∧
      swapped.server.outstanding ends.client = .ok [(345, 346), (313, 314)] ∧
      (swapped.next ends (eventOf .server (.statusLoop ends.client)) >>= fun s => .ok s.now) = .panic := by
  let _ := serde
  let _ := sealing
  have hrun : (bothOrders >>= fun r => .ok (r.2.1.server.outstanding ends.client,
      r.2.2.server.outstanding ends.client,
      r.2.2.next ends (eventOf .server (.statusLoop ends.client)) >>= fun s => .ok s.now)) =
      .ok (.ok [(313, 314), (345, 346)], .ok [(345, 346), (313, 314)], .panic) := by decide +kernel
  obtain ⟨⟨s₀, inOrder, swapped⟩, hboth, hlists⟩ := Result.bind_eq_ok.mp hrun
  simp only [Result.ok.injEq, Prod.mk.injEq] at hlists
  exact ⟨s₀, inOrder, swapped, hboth, hlists.1, hlists.2.1, hlists.2.2⟩

/-- The responses for both files arrive as they were sent. -/
theorem status_ordered_iff_two_files :
    letI := serde
    letI := sealing
    ∃ s₀ s l, System.start ends twoFiles serverOpt 9 (Vector.replicate 12 0) 0 = .ok s₀ ∧
      Run (System.Step ends) s₀ l s ∧ (∀ r ∈ l, StatusOrdered r.target.server ends.client) ∧
      s.server.outstanding ends.client = .ok [(313, 314), (345, 346)] := by
  let _ := serde
  let _ := sealing
  obtain ⟨s₀, s, _, hboth, hranges, -, -⟩ := bothOrders_run
  obtain ⟨hstart, ⟨l, hl, hall⟩, -⟩ := bothOrders_ok hboth
  exact ⟨s₀, s, l, hstart, hl, (status_ordered_iff twoFiles_noCollision hstart hl).2.mpr hall, hranges⟩

/-- The response for the second file arrives first. Then the server panics with the next status. -/
theorem swapped_responses_underflow :
    letI := serde
    letI := sealing
    NoCollision (twoFiles.blocks ++ serverOpt.blocks) ∧
      ∃ s₀ s, System.start ends twoFiles serverOpt 9 (Vector.replicate 12 0) 0 = .ok s₀ ∧
        Reachable (System.Step ends) s₀ s ∧
        s.server.outstanding ends.client = .ok [(345, 346), (313, 314)] ∧
        (s.next ends (eventOf .server (.statusLoop ends.client)) >>= fun s => .ok s.now) = .panic ∧
        ¬ StatusOrdered s.server ends.client := by
  let _ := serde
  let _ := sealing
  obtain ⟨s₀, _, s, hboth, -, hranges, hpanic⟩ := bothOrders_run
  obtain ⟨hstart, -, hreach⟩ := bothOrders_ok hboth
  refine ⟨twoFiles_noCollision, s₀, s, hstart, hreach, hranges, hpanic, ?_⟩
  intro hordered
  obtain ⟨hsorted, -⟩ := hordered _ hranges
  exact absurd hsorted (by decide)

end DasProtokoll.Scsync
