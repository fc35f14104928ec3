import DasProtokoll.Scsync.HandlerSpec
import Mathlib.Data.List.SplitBy

/-!
# What a status says

The status loop groups what is available of each block and lists the groups that
are missing. The ranges hold just the ids of the missing chunks, in order.
-/

namespace DasProtokoll.Scsync

open DasProtokoll

/-- A block in parts: how many chunks it has, and how many bytes. -/
def numChunks (len : Nat) : Nat := (len + chunkSize - 1) / chunkSize

theorem numChunks_le (len : Nat) : numChunks len ≤ len := by
  simp only [numChunks, chunkSize]
  omega

theorem chunk_start_lt {len i : Nat} (h : i < numChunks len) : i * chunkSize < len := by
  simp only [numChunks, chunkSize] at h ⊢
  omega

/-- What the receiver knows of a transfer: its block is there in part. -/
structure PartialBlock (db : BlockDb) (t : Transfer) (p : Partial) : Prop where
  lookup : db.lookup t.blockid = some (.Partial p)
  stop : t.stop = t.start + p.data.length
  chunks : p.available.length = numChunks p.data.length

/-- Transfers of partial blocks in the order of their ids. -/
structure Receiving (db : BlockDb) (transfers : List Transfer) : Prop where
  ordered : transfers.Pairwise fun a b => a.stop ≤ b.start
  blocks : ∀ t ∈ transfers, ∃ p, PartialBlock db t p

def AllPartial (db : BlockDb) (l : List Transfer) : Prop :=
  ∀ t ∈ l, ∃ p, db.lookup t.blockid = some (.Partial p)

def availableOf (db : BlockDb) (t : Transfer) : List Bool :=
  match db.lookup t.blockid with
  | some (.Partial p) => p.available
  | _ => []

/-- The ids of all missing chunks. -/
def missingIds (db : BlockDb) (transfers : List Transfer) : List Nat :=
  transfers.flatMap fun t => zeros t.start (availableOf db t)

namespace Handler

/-! ## One block -/

theorem group_eq_replicate {bits group : List Bool} (h : group ∈ bits.splitBy (· == ·)) :
    ∃ b n, group = List.replicate (n + 1) b := by
  have hne := List.ne_nil_of_mem_splitBy h
  have hchain : group.IsChain (· = ·) := by
    simpa using List.isChain_of_mem_splitBy h
  cases group with
  | nil => exact absurd rfl hne
  | cons b group =>
    refine ⟨b, group.length, ?_⟩
    rw [List.replicate_succ, ← List.isChain_cons_eq_iff_eq_replicate.mp hchain]

theorem missingGroups_members (groups : List (List Bool)) (start : Nat)
    (h : ∀ group ∈ groups, ∃ b n, group = List.replicate (n + 1) b) :
    Ranges.members (missingGroups start groups) = zeros start groups.flatten := by
  induction groups generalizing start with
  | nil => rfl
  | cons group groups ih =>
    obtain ⟨b, n, rfl⟩ := h group (by simp)
    have ih := ih (start + (n + 1)) fun g hg => h g (by simp [hg])
    rw [List.flatten_cons, zeros_append, List.length_replicate, ← ih, missingGroups]
    cases b with
    | false => rw [zeros_replicate_false]; simp [List.replicate_succ]
    | true => rw [zeros_replicate_true]; simp [List.replicate_succ]

theorem mem_missingGroups {groups : List (List Bool)} {start : Nat} {r : Nat × Nat}
    (h : r ∈ missingGroups start groups) :
    start ≤ r.1 ∧ r.2 ≤ start + groups.flatten.length := by
  induction groups generalizing start with
  | nil => simp [missingGroups] at h
  | cons group groups ih =>
    rw [missingGroups] at h
    rw [List.flatten_cons, List.length_append]
    split at h
    · rcases List.mem_cons.mp h with rfl | h
      · exact ⟨le_rfl, by omega⟩
      · have := ih h
        omega
    · have := ih h
      omega

theorem missingGroups_ascending (groups : List (List Bool)) (start : Nat)
    (h : ∀ group ∈ groups, ∃ b n, group = List.replicate (n + 1) b) :
    Ranges.Ascending (missingGroups start groups) := by
  induction groups generalizing start with
  | nil => exact Ranges.ascending_nil
  | cons group groups ih =>
    obtain ⟨b, n, rfl⟩ := h group (by simp)
    have ih := ih (start + (n + 1)) fun g hg => h g (by simp [hg])
    rw [missingGroups]
    simp only [List.length_replicate]
    split
    · have hone : Ranges.Ascending [(start, start + (n + 1))] := ⟨by simp, by simp⟩
      refine hone.append ih ?_
      intro r hr s hs
      rw [List.mem_singleton] at hr
      subst hr
      exact (mem_missingGroups hs).1
    · exact ih

end Handler

/-! ## One entry -/

def missing (db : BlockDb) (t : Transfer) : Ranges :=
  Handler.missingGroups t.start ((availableOf db t).splitBy (· == ·))

section Missing

variable {db : BlockDb} {t : Transfer} {p : Partial} {transfers : List Transfer}

theorem missing_ascending : Ranges.Ascending (missing db t) :=
  Handler.missingGroups_ascending _ _ fun _ => Handler.group_eq_replicate

theorem members_missing : Ranges.members (missing db t) = zeros t.start (availableOf db t) := by
  unfold missing
  rw [Handler.missingGroups_members _ _ fun _ => Handler.group_eq_replicate, List.flatten_splitBy]

theorem mem_missing (hp : PartialBlock db t p) {r : Nat × Nat} (hr : r ∈ missing db t) :
    t.start ≤ r.1 ∧ r.1 < r.2 ∧ r.2 ≤ t.stop := by
  have hle := numChunks_le p.data.length
  have hbetween := Handler.mem_missingGroups hr
  rw [List.flatten_splitBy, availableOf, hp.lookup] at hbetween
  have := hp.chunks
  have := hp.stop
  have := missing_ascending.nonempty r hr
  simp only at hbetween
  omega

/-! ## All entries -/

theorem Handler.missingRanges_cons {rest : Ranges}
    (ht : db.lookup t.blockid = some (.Partial p))
    (hrest : missingRanges db transfers = .ok rest) :
    missingRanges db (t :: transfers) =
      .ok (missingGroups t.start (p.available.splitBy (· == ·)) ++ rest) := by
  simp [missingRanges, BlockDb.get, ht, Block.partialRef, hrest]

theorem missingRanges_eq (h : AllPartial db transfers) :
    Handler.missingRanges db transfers = .ok (transfers.flatMap (missing db)) := by
  induction transfers with
  | nil => rfl
  | cons t transfers ih =>
    obtain ⟨p, hp⟩ := h t (by simp)
    rw [Handler.missingRanges_cons hp (ih fun t' ht' => h t' (by simp [ht'])), List.flatMap_cons,
      missing, availableOf, hp]

theorem Handler.missingRanges_spec (h : Receiving db transfers) :
    ∃ ranges, missingRanges db transfers = .ok ranges ∧ Ranges.Ascending ranges ∧
      Ranges.members ranges = missingIds db transfers ∧
      (∀ r ∈ ranges, ∃ t ∈ transfers, t.start ≤ r.1 ∧ r.2 ≤ t.stop) := by
  obtain ⟨hordered, hblocks⟩ := h
  have hin : ∀ t ∈ transfers, ∀ r ∈ missing db t, t.start ≤ r.1 ∧ r.1 < r.2 ∧ r.2 ≤ t.stop := by
    intro t ht r hr
    obtain ⟨p, hp⟩ := hblocks t ht
    exact mem_missing hp hr
  have hparts : AllPartial db transfers := by
    intro t ht
    obtain ⟨p, hp⟩ := hblocks t ht
    exact ⟨p, hp.lookup⟩
  refine ⟨_, missingRanges_eq hparts, ⟨?_, ?_⟩, ?_, ?_⟩
  · intro r hr
    obtain ⟨t, ht, hr⟩ := List.mem_flatMap.mp hr
    exact (hin t ht r hr).2.1
  · rw [List.pairwise_flatMap]
    refine ⟨fun t _ => missing_ascending.ordered, hordered.imp_of_mem ?_⟩
    intro a b ha hb hab r hr s hs
    have := hin a ha r hr
    have := hin b hb s hs
    omega
  · unfold Ranges.members missingIds
    rw [List.flatMap_assoc]
    apply List.flatMap_congr
    intro t _
    exact members_missing
  · intro r hr
    obtain ⟨t, ht, hr⟩ := List.mem_flatMap.mp hr
    have := hin t ht r hr
    exact ⟨t, ht, this.1, this.2.2⟩

end Missing

theorem mem_missingIds {db : BlockDb} {transfers : List Transfer} {c : Nat} :
    c ∈ missingIds db transfers ↔
      ∃ t ∈ transfers, ∃ i, (availableOf db t)[i]? = some false ∧ c = t.start + i := by
  simp only [missingIds, List.mem_flatMap, mem_zeros]
  constructor
  · rintro ⟨t, ht, hle, hc⟩
    exact ⟨t, ht, c - t.start, hc, by omega⟩
  · rintro ⟨t, ht, i, hi, rfl⟩
    exact ⟨t, ht, by omega, by rwa [Nat.add_sub_cancel_left]⟩

end DasProtokoll.Scsync
