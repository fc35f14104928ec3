import DasProtokoll.Csync.Datagrams

/-!
# A request for an upload that was left

The bitmap file gets its size when it is created, and keeps it through all later
requests, whatever length they ask for.
-/

namespace DasProtokoll.Csync

open DasProtokoll BitteEinBit

/-! ## The size of the bitmap file -/

def bitmapFileLen (info : ChunkInfo) : Nat := (info.numChunks + 7) / 8

namespace Receiver

theorem polled_bitmap_length {r r' : Receiver} {p : Poll} (h : r.polled p = .ok r') :
    r'.bitmap.buf.length = r.bitmap.buf.length := by
  apply poll_induct (P := fun q => q.bitmap.buf.length = r.bitmap.buf.length) h rfl
  · intro q hq
    obtain ⟨tx, heq⟩ := pollCongestion_eq q p.ready
    rw [heq]
    exact hq
  · intro q done q' hq hwrite
    rcases pollWrite_cases hwrite with ⟨-, rfl, -⟩ | ⟨w, data, content, handle, -, -, -, hcase⟩
    · exact hq
    · rcases hcase with ⟨-, -, rfl⟩ | ⟨-, -, old, bitmap, tx, hset, rfl⟩
      · exact hq
      · exact (BitMap.set_length hset).trans hq
  · intro q q' hq hrecv
    rcases pollRecv_cases hrecv with rfl | ⟨w, -, rfl⟩ | ⟨w, d, c, -, -, -, hcase⟩
    · exact hq
    · exact hq
    · rcases hcase with ⟨-, rfl⟩ | ⟨-, -, rfl⟩ | ⟨-, -, rfl⟩ <;> exact hq

theorem left_bitmap {disk : Disk} {length : Nat} {info : ChunkInfo} {r₀ r : Receiver}
    (hinfo : indexFieldSize length = .ok info) (hnew : new disk length = .ok r₀)
    (hr : Reachable (fun r p r' => polled r p = .ok r') r₀ r) (hexists : r.bitmapExists = true) :
    ∃ buf, r.disk.bitmap = some buf ∧
      buf.length = (disk.bitmap.map List.length).getD (bitmapFileLen info) := by
  have hlen : r.bitmap.buf.length = r₀.bitmap.buf.length :=
    hr.invariant (I := fun q => q.bitmap.buf.length = r₀.bitmap.buf.length) rfl
      fun _ _ _ hq hstep => (polled_bitmap_length hstep).trans hq
  obtain ⟨-, -, -, -, -, -, -, hbuf⟩ := new_ok hinfo hnew
  refine ⟨r.bitmap.buf, by simp [Receiver.disk, hexists], ?_⟩
  rw [hlen, hbuf]
  cases hdisk : disk.bitmap with
  | none => simp [runEffects, bitmapEffects, resize, bitmapFileLen, hdisk]
  | some buf => simp [runEffects, bitmapEffects, hdisk]

end Receiver

/-- The disks that requests and uploads can leave, with the number of chunks of the request that
gave the bitmap file its size, if one came to that. -/
inductive Aborted : Option ChunkInfo → Disk → Prop
  /-- The bitmap file is there, and has no size yet. -/
  | opened {disk : Disk} {info : ChunkInfo} :
    disk.bitmap = none → Aborted none (runEffects ((bitmapEffects false info).take 1) disk)
  | created {disk : Disk} {length : Nat} {info : ChunkInfo} (done : Nat) :
    disk.bitmap = none → Aborted (some info)
      (runEffects (bitmapEffects false info ++ (fileEffects length).take done) disk)
  | first {disk : Disk} {length : Nat} {info : ChunkInfo} {r₀ r : Receiver} :
    disk.bitmap = none → indexFieldSize length = .ok info → Receiver.new disk length = .ok r₀ →
    Reachable (fun r p r' => Receiver.polled r p = .ok r') r₀ r → r.bitmapExists = true →
    Aborted (some info) r.disk
  | requested {old : Option ChunkInfo} {disk : Disk} {length : Nat} {info : ChunkInfo} (done : Nat) :
    Aborted old disk →
    Aborted old (runEffects (bitmapEffects true info ++ (fileEffects length).take done) disk)
  | again {old : Option ChunkInfo} {disk : Disk} {length : Nat} {info : ChunkInfo} {r₀ r : Receiver} :
    Aborted old disk → indexFieldSize length = .ok info → Receiver.new disk length = .ok r₀ →
    Reachable (fun r p r' => Receiver.polled r p = .ok r') r₀ r → r.bitmapExists = true →
    Aborted old r.disk

theorem runEffects_bitmap {effects : List (Disk → Disk)}
    (h : ∀ f ∈ effects, ∀ d, (f d).bitmap = d.bitmap) (disk : Disk) :
    (runEffects effects disk).bitmap = disk.bitmap := by
  induction effects generalizing disk with
  | nil => rfl
  | cons f effects ih =>
    rw [List.forall_mem_cons] at h
    exact (ih h.2 (f disk)).trans (h.1 disk)

theorem fileEffects_bitmap (effects : List (Disk → Disk)) (length done : Nat) (disk : Disk) :
    (runEffects (effects ++ (fileEffects length).take done) disk).bitmap =
      (runEffects effects disk).bitmap := by
  have hkeep : ∀ f ∈ (fileEffects length).take done, ∀ d, (f d).bitmap = d.bitmap := by
    intro f hf d
    rcases List.mem_of_mem_take hf with _ | ⟨_, _ | ⟨_, ⟨⟩⟩⟩ <;> rfl
  rw [← runEffects_bitmap hkeep (runEffects effects disk)]
  simp [runEffects]

theorem Aborted.bitmap {old : Option ChunkInfo} {disk : Disk} (h : Aborted old disk) :
    ∃ buf, disk.bitmap = some buf ∧ buf.length = (old.map bitmapFileLen).getD 0 := by
  induction h with
  | opened hnone => exact ⟨[], by simp [runEffects, bitmapEffects, hnone], rfl⟩
  | @created disk length info done hnone =>
    rw [fileEffects_bitmap]
    exact ⟨resize 0 [] (bitmapFileLen info), by
      simp [runEffects, bitmapEffects, hnone, bitmapFileLen], by simp [resize]⟩
  | first hnone hinfo hnew hr hexists =>
    simpa [hnone] using Receiver.left_bitmap hinfo hnew hr hexists
  | requested done _ ih =>
    obtain ⟨buf, hbuf, hlen⟩ := ih
    rw [fileEffects_bitmap]
    exact ⟨buf, by simp [runEffects, bitmapEffects, hbuf], hlen⟩
  | again _ hinfo hnew hr hexists ih =>
    obtain ⟨buf, hbuf, hlen⟩ := ih
    simpa [hbuf, hlen] using Receiver.left_bitmap hinfo hnew hr hexists

/-! ## The next request -/

/-- The receiver waits for chunks, with one bit for each of them. -/
def Reopens (disk : Disk) (length : Nat) (info : ChunkInfo) : Prop :=
  ∃ r state, Receiver.uploadRequest disk length = .ok r ∧ r.state = .WaitForChunk state ∧
    state.chunkInfo = info ∧ r.bitmap.numBits = info.numChunks

theorem reopens_iff {disk : Disk} {buf : Bytes} {length : Nat} {info : ChunkInfo}
    (hbuf : disk.bitmap = some buf) (hinfo : indexFieldSize length = .ok info)
    (hpos : 0 < info.numChunks) : Reopens disk length info ↔ info.numChunks ≤ buf.length * 8 := by
  have hmap : (runEffects (bitmapEffects true info) disk).bitmap.getD [] = buf := by
    simp [runEffects, bitmapEffects, hbuf]
  unfold Reopens
  rw [Receiver.uploadRequest, hinfo, Result.bind_ok, hbuf]
  simp only [Option.isSome_some, hmap]
  constructor
  · rintro ⟨r, state, h, -, -, -⟩
    obtain ⟨_, -, h⟩ := Result.bind_eq_ok.mp h
    obtain ⟨bitmap, hbitmap, -⟩ := Result.bind_eq_ok.mp h
    obtain ⟨hb, hn, hv⟩ := BitMap.withLength_ok hbitmap
    rw [← hb, ← hn]
    exact hv.fits
  · intro hfits
    have hne : buf ≠ [] := by
      rintro rfl
      simp at hfits
      omega
    obtain ⟨bitmap, hbitmap, -, hn, -⟩ := BitMap.withLength_eq hfits
    rw [Result.assert_of hne, Result.bind_ok, hbitmap]
    exact ⟨_, _, rfl, rfl, rfl, hn⟩

/-- A request succeeds on the bitmap file that is there if and only if that file has a bit for each
chunk, which is a matter of the length that it was made for. A bitmap file that was left without a
size is never enough. -/
theorem reupload_iff {length : Nat} (h64 : length < u64Size) (hpos : 1 ≤ length) :
    ∃ info, indexFieldSize length = .ok info ∧
      (∀ disk buf, disk.bitmap = some buf →
        (Reopens disk length info ↔ info.numChunks ≤ buf.length * 8)) ∧
      ∀ old disk, Aborted old disk → (Reopens disk length info ↔
        ∃ first, old = some first ∧ info.numChunks ≤ (first.numChunks + 7) / 8 * 8) := by
  obtain ⟨info, hinfo, g⟩ := indexFieldSize_spec h64
  have hchunks : 0 < info.numChunks := by
    by_contra hzero
    have := g.length_le
    rw [show info.numChunks = 0 by omega, Nat.zero_mul] at this
    omega
  refine ⟨info, hinfo, fun disk buf hbuf => reopens_iff hbuf hinfo hchunks, ?_⟩
  intro old disk haborted
  obtain ⟨buf, hbuf, hlen⟩ := haborted.bitmap
  rw [reopens_iff hbuf hinfo hchunks, hlen]
  cases old with
  | none =>
    apply iff_of_false
    · simp
      omega
    · rintro ⟨first, hfirst, -⟩
      cases hfirst
  | some first => simp [bitmapFileLen]

theorem reupload_iff_two_chunks :
    ∃ info, indexFieldSize 1460 = .ok info ∧
      (∀ disk buf, disk.bitmap = some buf →
        (Reopens disk 1460 info ↔ info.numChunks ≤ buf.length * 8)) ∧
      ∀ old disk, Aborted old disk → (Reopens disk 1460 info ↔
        ∃ first, old = some first ∧ info.numChunks ≤ (first.numChunks + 7) / 8 * 8) :=
  reupload_iff (by decide) (by decide)

/-- After an upload of one chunk was left, a request of nine chunks panics. -/
theorem reupload_panics :
    ∃ r info, Receiver.new { bitmap := none, file := none } 1 = .ok r ∧ r.bitmapExists = true ∧
      indexFieldSize 13131 = .ok info ∧ info.numChunks = 9 ∧
      Receiver.uploadRequest r.disk 13131 = .panic ∧ ¬ Reopens r.disk 13131 info := by
  have hrun : (do
      let r ← Receiver.new { bitmap := none, file := none } 1
      let info ← indexFieldSize 13131
      return (r.bitmapExists, info.numChunks,
        decide (Receiver.uploadRequest r.disk 13131 = Result.panic))) = .ok (true, 9, true) := by
    decide +kernel
  obtain ⟨r, hr, hrun⟩ := Result.bind_eq_ok.mp hrun
  obtain ⟨info, hinfo, hrun⟩ := Result.bind_eq_ok.mp hrun
  simp only [Result.pure_def, Result.ok.injEq, Prod.mk.injEq, decide_eq_true_eq] at hrun
  refine ⟨r, info, hr, hrun.1, hinfo, hrun.2.1, hrun.2.2, ?_⟩
  rintro ⟨q, state, hq, -⟩
  rw [hrun.2.2] at hq
  cases hq

end DasProtokoll.Csync
