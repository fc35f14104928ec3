import DasProtokoll.Csync.Session

/-!
# What a fresh upload stores

The last chunk has `length % chunk_size` bytes, which is none at all when the
length is a multiple of the chunk size. Its bit is set all the same.
-/

namespace DasProtokoll.Csync

open DasProtokoll BitteEinBit

/-- The slot of a marked chunk holds the bytes of the file, and so does everything when all chunks
are marked. -/
def Stored (info : ChunkInfo) (file : Bytes) (r : Receiver) : Prop :=
  (∀ i < info.numChunks, r.bitmap.bit i = true →
    AgreeOn r.file file (i * info.chunkSize) (min ((i + 1) * info.chunkSize) file.length)) ∧
  (r.bitmap.all = true → r.file = file)

/-- The open file of a fresh session writes where it is told to. -/
def HandleOk (info : ChunkInfo) (file content : Bytes) : State → Prop
  | .WaitForChunk w => w.file.append = false
  | .WritingChunk w => w.file.append = false ∧
      w.file.pos = w.chunk.index * info.chunkSize + w.pos ∧
      w.pos ≤ payloadSize info w.chunk.index ∧
      AgreeOn content file (w.chunk.index * info.chunkSize)
        (w.chunk.index * info.chunkSize + w.pos)
  | _ => True

/-- `init` is the content of the stored file when the session starts. -/
structure StoreInv (info : ChunkInfo) (file init : Bytes) (r : Receiver) : Prop where
  length : r.file.length = file.length
  stored : ∀ i < info.numChunks, r.bitmap.bit i = true →
    AgreeOn r.file file (i * info.chunkSize) (i * info.chunkSize + payloadSize info i)
  /-- Nothing is ever written into the last slot when it is a whole one. -/
  untouched : file.length % info.chunkSize = 0 →
    AgreeOn r.file init ((info.numChunks - 1) * info.chunkSize) file.length
  handle : HandleOk info file r.file r.state

variable {info : ChunkInfo} {file init : Bytes} {r r' : Receiver}

/-! ## Writing a chunk -/

theorem payload_piece (info : ChunkInfo) (file : Bytes) (i pos n : Nat) :
    ((payload info file i).drop pos).take n =
      slice file (i * info.chunkSize + pos) (min n (payloadSize info i - pos)) := by
  rw [payload, slice, slice, List.drop_take, List.take_take, List.drop_drop]

theorem write_piece (g : Geometry file.length info) {i pos n : Nat} (hi : i < info.numChunks)
    (hr : StoreInv info file init r) {h : FileHandle} (happend : h.append = false)
    (hpos : h.pos = i * info.chunkSize + pos) (hle : pos ≤ payloadSize info i)
    {content : Bytes} {handle : FileHandle}
    (hw : h.write r.file (((payload info file i).drop pos).take n) = (content, handle)) :
    content.length = file.length ∧ handle.append = false ∧
      handle.pos = h.pos + min n (payloadSize info i - pos) ∧
      AgreeOn content file h.pos (h.pos + min n (payloadSize info i - pos)) ∧
      (∀ a b, AgreeOn r.file file a b → AgreeOn content file a b) ∧
      (file.length % info.chunkSize = 0 →
        AgreeOn content init ((info.numChunks - 1) * info.chunkSize) file.length) := by
  have hfits := payload_fits g hi
  have hlen := hr.length
  have hslice : (slice file h.pos (min n (payloadSize info i - pos))).length =
      min n (payloadSize info i - pos) := by
    rw [slice_length]
    omega
  rw [payload_piece, ← hpos] at hw
  simp only [FileHandle.write, happend, Bool.false_eq_true, if_false, Prod.mk.injEq, hslice] at hw
  obtain ⟨rfl, rfl⟩ := hw
  refine ⟨?_, rfl, rfl, AgreeOn.overwrite_slice (by omega) (by omega),
    fun a b hab => hab.after_slice (by omega) (by omega), ?_⟩
  · rw [overwrite_length_of_fits _ _ _ _ (by omega), hlen]
  · intro hz
    by_cases hlast : i = info.numChunks - 1
    · -- The last chunk has no bytes.
      have hnone : payloadSize info i = 0 := by
        rw [payloadSize, if_pos hlast, g.lastChunkSize_eq, hz]
      rw [hnone, Nat.zero_sub, Nat.min_zero, slice_zero, overwrite_nil]
      exact hr.untouched hz
    · have hslot : (i + 1) * info.chunkSize ≤ (info.numChunks - 1) * info.chunkSize :=
        Nat.mul_le_mul_right _ (by omega)
      have hsize := payloadSize_le g i
      rw [Nat.add_mul] at hslot
      exact (AgreeOn.overwrite (by omega) (by omega)).trans (hr.untouched hz)

theorem Receiver.pollWrite_store (g : Geometry file.length info) (hinv : ReceiverInv info file r)
    (hr : StoreInv info file init r) {progress : Nat} {done : Bool}
    (h : r.pollWrite progress = .ok (done, r')) : StoreInv info file init r' := by
  rcases pollWrite_cases h with ⟨-, rfl, -⟩ | ⟨w, data, content, handle, hs, hdata, hw, hcase⟩
  · exact hr
  have hstate := hinv.state
  have hhandle := hr.handle
  simp only [StateOk, hs] at hstate
  simp only [HandleOk, hs] at hhandle
  obtain ⟨hinfo, i, hi, hchunk⟩ := hstate
  obtain ⟨happend, hpos, hle, hdone⟩ := hhandle
  simp only [hchunk] at hpos hle hdone
  rw [hchunk, chunkDatagram, Chunk.asRef_wire, Result.ok.injEq] at hdata
  subst hdata
  obtain ⟨hlen, happend', hpos', hpiece, hkeep, huntouched⟩ :=
    write_piece g hi hr happend hpos hle hw
  have hrest : ((payload info file i).drop w.pos).length = payloadSize info i - w.pos := by
    rw [List.length_drop, payload_length g hi]
  rw [hpos] at hpiece hpos'
  rcases hcase with ⟨-, hlt, rfl⟩ | ⟨-, hge, old, bitmap, tx, hset, rfl⟩
  · -- A part of the chunk is left.
    rw [hrest] at hlt
    rw [Nat.min_eq_left (by omega)] at hpiece hpos'
    refine ⟨hlen, fun j hj hbit => hkeep _ _ (hr.stored j hj hbit), huntouched, happend', ?_⟩
    simp only [hchunk]
    exact ⟨by omega, by omega, by rw [← Nat.add_assoc]; exact (hkeep _ _ hdone).join hpiece⟩
  · -- The chunk is complete, and its bit is set.
    rw [hrest] at hge
    rw [Nat.min_eq_right hge] at hpiece
    have hin : w.chunk.index < r.bitmap.numBits := by rw [hchunk, hinv.numBits]; exact hi
    obtain ⟨m', hset', -, -, -, hbits⟩ := BitMap.set_eq true hin hinv.valid
    rw [hset', Result.ok.injEq, Prod.mk.injEq] at hset
    obtain ⟨-, rfl⟩ := hset
    refine ⟨hlen, ?_, huntouched, happend'⟩
    intro j hj hbit
    by_cases hij : j = i
    · subst hij
      have hall := (hkeep _ _ hdone).join hpiece
      exact hall.mono (le_refl _) (by omega)
    · rw [hbits, hchunk, if_neg hij] at hbit
      exact hkeep _ _ (hr.stored j hj hbit)

theorem Receiver.pollRecv_store (g : Geometry file.length info) (hinv : ReceiverInv info file r)
    (hr : StoreInv info file init r) {datagram : Option Bytes}
    (hd : ∀ d ∈ datagram, IsData info file d ∨ d = finDatagram info ∧ Full r.bitmap)
    (h : r.pollRecv datagram = .ok r') : StoreInv info file init r' := by
  rcases pollRecv_honest g hinv hd h with rfl | ⟨w, i, hs, -, rfl⟩ | ⟨-, rfl⟩
  · exact hr
  · have happend := hr.handle
    simp only [HandleOk, hs] at happend
    exact ⟨hr.length, hr.stored, hr.untouched, happend, rfl, Nat.zero_le _,
      AgreeOn.of_empty (le_refl _)⟩
  · exact ⟨hr.length, hr.stored, hr.untouched, trivial⟩

theorem Receiver.poll_store (g : Geometry file.length info) (hinv : ReceiverInv info file r)
    (hr : StoreInv info file init r) {ready : Bool} {progress : Nat} {datagram : Option Bytes}
    (hd : ∀ d ∈ datagram, IsData info file d ∨ d = finDatagram info ∧ Full r.bitmap)
    (h : r.poll ready progress datagram = .ok r') : StoreInv info file init r' := by
  have hall := poll_induct (P := fun q => (ReceiverInv info file q ∧ StoreInv info file init q) ∧
    Extends r.bitmap q.bitmap ∧ q.bitmap.numBits = r.bitmap.numBits) h
    ⟨⟨hinv, hr⟩, Extends.refl _, rfl⟩
  refine (hall ?_ ?_ ?_).1.2
  · rintro q ⟨⟨hq, hst⟩, hext⟩
    obtain ⟨tx, htx⟩ := pollCongestion_eq q ready
    rw [htx]
    exact ⟨⟨⟨hq.valid, hq.numBits, hq.state, hq.removed⟩,
      ⟨hst.length, hst.stored, hst.untouched, hst.handle⟩⟩, hext⟩
  · rintro q done q' ⟨⟨hq, hst⟩, hext, hnum⟩ hw
    obtain ⟨hq', hext', hnum'⟩ := pollWrite_inv hq hw
    exact ⟨⟨hq', pollWrite_store g hq hst hw⟩, hext.trans hext', hnum'.trans hnum⟩
  · rintro q q' ⟨⟨hq, hst⟩, hext, hnum⟩ hrecv
    have hd' : ∀ d ∈ datagram, IsData info file d ∨ d = finDatagram info ∧ Full q.bitmap :=
      fun d hmem => (hd d hmem).imp_right fun hfin => ⟨hfin.1, hfin.2.extends hext hnum⟩
    obtain ⟨hq', hbit⟩ := pollRecv_inv g hq hd' hrecv
    rw [hbit]
    exact ⟨⟨hq', pollRecv_store g hq hst hd' hrecv⟩, hext, hnum⟩

/-! ## A fresh session -/

section Runs

variable {disk : Disk} {s₀ s : Session}

theorem bit_of_zeros {m : BitMap} {n : Nat} (h : m.buf = List.replicate n 0) (i : Nat) :
    m.bit i = false := by
  rw [BitMap.bit, h, List.getD_eq_getElem?_getD, List.getElem?_replicate]
  split <;> simp

theorem fresh_bitmap (hfresh : disk.bitmap = none) :
    (runEffects (bitmapEffects false info) disk).bitmap.getD [] =
      List.replicate ((info.numChunks + 7) / 8) 0 := by
  simp [runEffects, bitmapEffects, hfresh, resize]

theorem start_fresh (hinfo : indexFieldSize file.length = .ok info) (hfresh : disk.bitmap = none)
    (hpos : 0 < info.numChunks) :
    ∃ m : BitMap, m.Valid ∧ m.numBits = info.numChunks ∧ (∀ i, m.bit i = false) ∧
      Session.start file disk = .ok {
        client := { file, chunkInfo := info, missing := .default, state := .waiting }
        server := {
          receiver := {
            state := .WaitForChunk { file := { append := false, pos := 0 }, chunkInfo := info }
            bitmap := m
            bitmapExists := true
            file := resize 0 (disk.file.getD []) file.length
            tx := [.UploadStart, .UploadStatus]
            congestionDone := false }
          sender := { vec := List.replicate mtu 0, bitmap := false, sending := false } }
        toServer := []
        toClient := [] } := by
  have hbuf := @fresh_bitmap info disk hfresh
  have hlarge : info.numChunks ≤ (List.replicate ((info.numChunks + 7) / 8) (0 : UInt8)).length * 8 := by
    rw [List.length_replicate]
    omega
  obtain ⟨m, hm, hmbuf, hnum, hvalid⟩ := BitMap.withLength_eq hlarge
  have hfile : ((runEffects (fileEffects file.length)
      (runEffects (bitmapEffects false info) disk)).file).getD [] =
        resize 0 (disk.file.getD []) file.length := by
    simp [runEffects, fileEffects, bitmapEffects]
  have hclient : Client.start file = .ok
      { file, chunkInfo := info, missing := .default, state := .waiting } := by
    rw [Client.start, hinfo, Result.bind_ok, Client.next,
      doChunk_none (MissingRanges.nextChunk_none rfl)]
    rfl
  refine ⟨m, hvalid, hnum, bit_of_zeros hmbuf, ?_⟩
  rw [Session.start, hclient, Result.bind_ok, Server.new, Receiver.new, Receiver.uploadRequest,
    hinfo]
  have hmap : List.replicate ((info.numChunks + 7) / 8) (0 : UInt8) ≠ [] := by
    rw [ne_eq, List.replicate_eq_nil_iff]
    omega
  simp only [Result.bind_ok, hfresh, Option.isSome_none, hbuf, Result.assert_of hmap, hm, hfile,
    Result.pure_def]
  rfl

/-- The client that was asked for everything, when it comes to chunk `k`. -/
def sweeping (info : ChunkInfo) (file : Bytes) (k : Nat) : Client :=
  if k < info.numChunks then {
    file
    chunkInfo := info
    missing := { missing := [(0, info.numChunks)], cursor := k + 1 }
    state := .sending (chunkDatagram info file k) }
  else {
    file
    chunkInfo := info
    missing := { missing := [(0, info.numChunks)], cursor := k }
    state := .waiting }

variable [Varint]

theorem parse_first_status {m : BitMap} (hm : m.Valid) (hpos : 0 < m.numBits)
    (h64 : m.numBits < u64Size) (hzero : ∀ i, m.bit i = false) {buf out : Bytes} {written : Nat}
    (hbuf : buf.length = mtu) (h : writeRunlengthEncoded m buf = .ok (written, out)) :
    MissingRanges.parseStatusUpdate ((out.take written).take mtu) =
      .ok (false, { missing := [(0, m.numBits)], cursor := 0 }) := by
  have hbools : m.toBools = List.replicate m.numBits false :=
    List.eq_replicate_iff.mpr ⟨BitMap.toBools_length m, by simp [BitMap.toBools, hzero]⟩
  have hlen : Varint.lenAll [0, m.numBits] ≤ mtu := by
    have h0 := Varint.len_le 0
    have h1 := Varint.len_le m.numBits
    rw [Varint.lenAll_cons, Varint.lenAll_cons, Varint.lenAll_nil, mtu]
    omega
  have hsent : sentRuns mtu m.toBools = [0, m.numBits] := by
    rw [sentRuns_of_fits, hbools, runs_replicate_false hpos]
    rw [hbools, runs_replicate_false hpos]
    exact hlen
  have hranges : rangesOf mtu m.toBools = { missing := [(0, m.numBits)], cursor := 0 } := by
    simp [rangesOf, hsent, sums, pairs]
  have hshort := written_status_length hm.fits h64 h
  rw [List.take_of_length_le (by omega), parse_sent_status hm.fits h64 h, hbuf, hranges]
  rfl

omit [Varint] in
theorem next_of_all (g : Geometry file.length info) (h64 : file.length < u64Size) (k : Nat)
    (state : ClientState) :
    Client.next {
        file
        chunkInfo := info
        missing := { missing := [(0, info.numChunks)], cursor := k }
        state } = .ok (sweeping info file k) := by
  have hn := numChunks_lt_u64 g
  rw [sweeping]
  split
  · rename_i hk
    have hfirst : Ranges.firstFrom [(0, info.numChunks)] k = some k := by
      simp [Ranges.firstFrom, hk]
    rw [Client.next, doChunk_some g h64 (MissingRanges.nextChunk_some hfirst (by omega)) hk]
    rfl
  · rename_i hk
    have hfirst : Ranges.firstFrom [(0, info.numChunks)] k = none := by
      simp [Ranges.firstFrom, hk]
    rw [Client.next, doChunk_none (MissingRanges.nextChunk_none hfirst)]
    rfl

omit [Varint] in
theorem sent_of_all (g : Geometry file.length info) (h64 : file.length < u64Size) {k : Nat}
    (hk : k < info.numChunks) :
    (sweeping info file k).sent =
      .ok (sweeping info file (k + 1), [chunkDatagram info file k]) := by
  rw [sweeping, if_pos hk, Client.sent]
  simp only [next_of_all g h64, Result.bind_ok, Result.pure_def]

theorem sent_step (g : Geometry file.length info) (h64 : file.length < u64Size) {k : Nat}
    (hk : k < info.numChunks) (hs : s.client = sweeping info file k) :
    Session.Step s .clientSent { s with
      client := sweeping info file (k + 1)
      toServer := [chunkDatagram info file k] ++ s.toServer } := by
  refine ⟨trivial, ?_⟩
  rw [Session.step, hs, sent_of_all g h64 hk]
  rfl

theorem sends_last_chunk (g : Geometry file.length info) (h64 : file.length < u64Size) {left k : Nat}
    (hk : k + left + 1 = info.numChunks) (hs : s.client = sweeping info file k) :
    ∃ t, Reachable Session.Step s t ∧ t.server = s.server ∧
      chunkDatagram info file (info.numChunks - 1) ∈ t.toServer := by
  induction left generalizing k s with
  | zero =>
    have hlast : info.numChunks - 1 = k := by omega
    exact ⟨_, Reachable.refl.snoc (sent_step g h64 (by omega) hs), rfl, by simp [hlast]⟩
  | succ left ih =>
    obtain ⟨t, ht, hserver, hmem⟩ := ih (k := k + 1) (s := { s with
      client := sweeping info file (k + 1)
      toServer := [chunkDatagram info file k] ++ s.toServer }) (by omega) rfl
    exact ⟨t, (Reachable.refl.snoc (sent_step g h64 (by omega) hs)).trans ht, hserver, hmem⟩

theorem asks_for_everything (g : Geometry file.length info) (h64 : file.length < u64Size)
    (hinfo : indexFieldSize file.length = .ok info) (hfresh : disk.bitmap = none)
    (hpos : 0 < info.numChunks) :
    ∃ s₀ s w, Session.start file disk = .ok s₀ ∧ Reachable Session.Step s₀ s ∧
      s.client = sweeping info file 0 ∧ s.server.receiver.state = .WaitForChunk w ∧
      w.chunkInfo = info ∧ s.server.receiver.bitmap.Valid ∧
      s.server.receiver.bitmap.numBits = info.numChunks ∧
      (∀ i, s.server.receiver.bitmap.bit i = false) ∧
      s.server.receiver.file = resize 0 (disk.file.getD []) file.length := by
  have hn := numChunks_lt_u64 g
  obtain ⟨m, hvalid, hnum, hzero, hstart⟩ := start_fresh hinfo hfresh hpos
  obtain ⟨written, out, hwrite, -⟩ := writeRunlengthEncoded_spec hvalid.fits (by omega)
    (resize 0 (List.replicate mtu 0) mtu)
  have hparse := parse_first_status hvalid (by omega) (by omega) hzero (resize_length _ _ _) hwrite
  rw [hnum] at hparse
  have hrecv : Client.recv
      { file, chunkInfo := info, missing := .default, state := .waiting } (out.take written) =
        .ok (sweeping info file 0, []) := by
    simp only [Client.recv, hparse, Result.bind_ok, Bool.false_eq_true, if_false,
      next_of_all g h64, Result.pure_def]
  refine ⟨_, {
    client := sweeping info file 0
    server := {
      receiver := {
        state := .WaitForChunk { file := { append := false, pos := 0 }, chunkInfo := info }
        bitmap := m
        bitmapExists := true
        file := resize 0 (disk.file.getD []) file.length
        tx := []
        congestionDone := false }
      sender := { vec := out.take written, bitmap := true, sending := false } }
    toServer := []
    toClient := [out.take written] }, _, hstart, ?_, rfl, rfl, rfl, hvalid, hnum, hzero, rfl⟩
  refine @replay_reachable _ _ _ _ _ _ (fun _ _ _ => Session.step_of_tryStep)
    [.senderStart, .senderStart, .senderComplete, .clientRecv (out.take written)] ?_
  simp [replay, Session.tryStep_of, Session.step, Server.startSend,
    Server.pollComplete, Result.assert_of, hwrite, hrecv]

omit [Varint] in
theorem takes_empty_chunk (g : Geometry file.length info) (h64 : file.length < u64Size)
    {w : WaitForChunk} (hstate : r.state = .WaitForChunk w) (hw : w.chunkInfo = info)
    (hvalid : r.bitmap.Valid) (hnum : r.bitmap.numBits = info.numChunks) {i : Nat}
    (hi : i < info.numChunks) (hempty : payloadSize info i = 0) (hbit : r.bitmap.bit i = false) :
    ∃ r₁ r₂, r.poll false 0 (some (chunkDatagram info file i)) = .ok r₁ ∧
      r₁.poll false 0 none = .ok r₂ ∧ r₂.bitmap.bit i = true ∧ r₂.file = r.file := by
  have hstart := g.start_lt hi
  have hfits := g.index_fits
  have hw8 : info.indexFieldSize ≤ 8 := by have := g.width_le; omega
  have hdata : payload info file i = [] := by
    rw [payload, hempty, slice_zero]
  obtain ⟨m', hset, -, -, -, hbits⟩ := BitMap.set_eq true (by omega : i < r.bitmap.numBits) hvalid
  obtain ⟨r₁, hr₁⟩ : ∃ q, q = { r with state := .WritingChunk {
      chunkInfo := info
      file := w.file.seek (i * info.chunkSize)
      chunk := {
        indexFieldSize := info.indexFieldSize, index := i, buf := chunkDatagram info file i }
      pos := 0 } } := ⟨_, rfl⟩
  refine ⟨r₁, ?_⟩
  have hpoll : r.poll false 0 (some (chunkDatagram info file i)) = .ok r₁ := by
    rw [hr₁, Receiver.poll, Receiver.pollCongestion, Bool.false_and, if_neg (by simp)]
    simp only [Receiver.pollWrite, Receiver.pollRecv, hstate, hw, Result.pure_def, Result.bind_ok]
    rw [List.take_of_length_le (chunkDatagram_length_le g hi), chunkDatagram,
      Chunk.decode_wire _ hw8 (by omega), Result.bind_ok, if_neg (by simp only; omega),
      Receiver.chunk, BitMap.get_eq (by simp only; omega) hvalid.fits]
    simp only [hbit, Result.bind_ok, Bool.false_eq_true, if_false, hw]
    rw [Result.assert_of (by omega)]
    rfl
  have hwrite : ∃ r₂ w', r₁.pollWrite 0 = .ok (true, r₂) ∧ r₂.state = .WaitForChunk w' ∧
      r₂.bitmap = m' ∧ r₂.file = r.file := by
    rw [hr₁, Receiver.pollWrite]
    simp only [chunkDatagram, Chunk.asRef_wire, hdata, Result.bind_ok, List.drop_nil, List.take_nil,
      List.length_nil, Nat.lt_irrefl, if_false, FileHandle.write, overwrite_nil, hset,
      Result.pure_def]
    exact ⟨_, _, rfl, rfl, rfl, rfl⟩
  obtain ⟨r₂, w', hr₂, hstate₂, hbitmap, hfile⟩ := hwrite
  refine ⟨r₂, hpoll, ?_, by rw [hbitmap, hbits, if_pos rfl], hfile⟩
  rw [Receiver.poll, Receiver.pollCongestion, Bool.false_and, if_neg (by simp)]
  simp only [hr₂, Result.bind_ok, Receiver.pollRecv, hstate₂, Result.pure_def]

theorem last_chunk_empty (h64 : file.length < u64Size)
    (hinfo : indexFieldSize file.length = .ok info) (g : Geometry file.length info)
    (hfresh : disk.bitmap = none) (hpos : 0 < info.numChunks)
    (hz : file.length % info.chunkSize = 0) :
    ∃ s₀ s, Session.start file disk = .ok s₀ ∧ Reachable Session.Step s₀ s ∧
      s.server.receiver.bitmap.bit (info.numChunks - 1) = true ∧
      s.server.receiver.file = resize 0 (disk.file.getD []) file.length := by
  obtain ⟨s₀, s, w, hstart, hreach, hclient, hstate, hw, hvalid, hnum, hzero, hfile⟩ :=
    asks_for_everything g h64 hinfo hfresh hpos
  have hleft : 0 + (info.numChunks - 1) + 1 = info.numChunks := by omega
  obtain ⟨t, ht, hserver, hmem⟩ := sends_last_chunk g h64 hleft hclient
  have hempty : payloadSize info (info.numChunks - 1) = 0 := by
    rw [payloadSize, if_pos rfl, g.lastChunkSize_eq, hz]
  have hlast : info.numChunks - 1 < info.numChunks := by omega
  obtain ⟨r₁, r₂, hr₁, hr₂, hbit, hsame⟩ :=
    takes_empty_chunk g h64 hstate hw hvalid hnum hlast hempty (hzero _)
  have hstep₁ : Session.Step t (.serverPoll false 0
      (some (chunkDatagram info file (info.numChunks - 1))))
      { t with server := { t.server with receiver := r₁ } } := by
    refine ⟨hmem, ?_⟩
    rw [Session.step, hserver, hr₁]
    rfl
  have hstep₂ : Session.Step { t with server := { t.server with receiver := r₁ } }
      (.serverPoll false 0 none) { t with server := { t.server with receiver := r₂ } } := by
    refine ⟨trivial, ?_⟩
    rw [Session.step, hr₂]
    rfl
  exact ⟨s₀, _, hstart, ((hreach.trans ht).snoc hstep₁).snoc hstep₂, hbit, hsame.trans hfile⟩

omit [Varint] in
theorem start_store (hinfo : indexFieldSize file.length = .ok info)
    (hfresh : disk.bitmap = none) (h0 : Session.start file disk = .ok s₀) :
    StoreInv info file (resize 0 (disk.file.getD []) file.length) s₀.server.receiver := by
  simp only [Session.start, Server.new, Result.bind_eq_ok, Result.pure_def, Result.ok.injEq] at h0
  obtain ⟨_, -, _, ⟨receiver, hreceiver, rfl⟩, rfl⟩ := h0
  obtain ⟨hstate, -, -, -, hfile, -, -, hbuf⟩ := Receiver.new_ok hinfo hreceiver
  rw [hfresh, Option.isSome_none] at hbuf hstate
  have hzeros : receiver.bitmap.buf = List.replicate ((info.numChunks + 7) / 8) 0 := by
    rw [hbuf, fresh_bitmap hfresh]
  refine ⟨by rw [hfile, resize_length], ?_, fun _ j _ _ => by rw [hfile], by rw [hstate]; rfl⟩
  intro i _ hbit
  rw [bit_of_zeros hzeros] at hbit
  cases hbit

theorem reachable_store (g : Geometry file.length info) (h64 : file.length < u64Size)
    (hinfo : indexFieldSize file.length = .ok info) (hfresh : disk.bitmap = none)
    (h0 : Session.start file disk = .ok s₀) (hr : Reachable Session.Step s₀ s) :
    SessionInv info file s ∧
      StoreInv info file (resize 0 (disk.file.getD []) file.length) s.server.receiver := by
  refine hr.invariant (I := fun s => SessionInv info file s ∧
    StoreInv info file (resize 0 (disk.file.getD []) file.length) s.server.receiver)
    ⟨start_inv g h64 hinfo h0, start_store hinfo hfresh h0⟩ ?_
  rintro t e u ⟨ht, hstore⟩ hstep
  refine ⟨ht.step g h64 hstep, ?_⟩
  obtain ⟨hd, hstep⟩ := hstep
  cases e with
  | serverPoll ready progress datagram =>
    simp only [Session.step, Result.bind_eq_ok, Result.pure_def, Result.ok.injEq] at hstep
    obtain ⟨receiver, hpoll, rfl⟩ := hstep
    exact Receiver.poll_store g ht.receiver hstore (ht.delivered hd) hpoll
  | senderStart =>
    simp only [Session.step, Result.bind_eq_ok, Result.pure_def, Result.ok.injEq] at hstep
    obtain ⟨server, hserver, rfl⟩ := hstep
    obtain ⟨tx, hrecv, -⟩ := Server.startSend_cases ht.receiver.valid hserver
    rw [hrecv]
    exact ⟨hstore.length, hstore.stored, hstore.untouched, hstore.handle⟩
  | senderComplete =>
    simp only [Session.step, Server.pollComplete, Result.pure_def, Result.ok.injEq] at hstep
    subst hstep
    split <;> exact hstore
  | _ =>
    simp only [Session.step, Result.bind_eq_ok, Result.pure_def, Result.ok.injEq] at hstep
    obtain ⟨-, -, rfl⟩ := hstep
    exact hstore

omit [Varint] in
theorem last_slot_end (g : Geometry file.length info) (hpos : 0 < info.numChunks) :
    min ((info.numChunks - 1 + 1) * info.chunkSize) file.length = file.length := by
  have := g.length_le
  rw [Nat.sub_add_cancel (by omega)]
  omega

omit [Varint] in
theorem StoreInv.stored_slots (g : Geometry file.length info) (hr : StoreInv info file init r)
    (hlast : file.length % info.chunkSize = 0 →
      AgreeOn init file ((info.numChunks - 1) * info.chunkSize) file.length) {i : Nat}
    (hi : i < info.numChunks) (hbit : r.bitmap.bit i = true) :
    AgreeOn r.file file (i * info.chunkSize) (min ((i + 1) * info.chunkSize) file.length) := by
  have hdone := hr.stored i hi hbit
  rw [payloadSize] at hdone
  by_cases hil : i = info.numChunks - 1
  · subst hil
    rw [last_slot_end g (by omega)]
    by_cases hz : file.length % info.chunkSize = 0
    · exact (hr.untouched hz).trans (hlast hz)
    · rw [if_pos rfl, g.last_remainder hz] at hdone
      exact hdone
  · rw [if_neg hil] at hdone
    exact hdone.mono (le_refl _) (by rw [Nat.add_mul]; omega)

omit [Varint] in
theorem file_eq_of_slots (g : Geometry file.length info) (hlen : r.file.length = file.length)
    (h : ∀ i < info.numChunks,
      AgreeOn r.file file (i * info.chunkSize) (min ((i + 1) * info.chunkSize) file.length)) :
    r.file = file := by
  apply eq_of_agreeOn hlen
  intro j _ hj
  obtain ⟨hslot, h1, h2⟩ := g.slot_of (j := j) (by omega)
  exact h _ hslot j h1 (by omega)

/-- In all states of a fresh session the marked chunks are stored, if and only if the last slot is
not a whole one or already holds the end of the file. -/
theorem upload_stored_iff {file : Bytes} (h64 : file.length < u64Size) {disk : Disk}
    (hfresh : disk.bitmap = none) :
    ∃ info, indexFieldSize file.length = .ok info ∧
      (file ≠ [] → ∃ s₀, Session.start file disk = .ok s₀) ∧
      ∀ s₀, Session.start file disk = .ok s₀ →
        ((∀ s, Reachable Session.Step s₀ s → Stored info file s.server.receiver) ↔
          (file.length % info.chunkSize = 0 →
            AgreeOn (resize 0 (disk.file.getD []) file.length) file
              ((info.numChunks - 1) * info.chunkSize) file.length)) := by
  obtain ⟨info, hinfo, g⟩ := indexFieldSize_spec h64
  have hlen := g.length_le
  refine ⟨info, hinfo, ?_, ?_⟩
  · intro hne
    have hpos : 0 < info.numChunks := by
      have := List.length_pos_of_ne_nil hne
      exact Nat.pos_of_ne_zero fun hz => by rw [hz, Nat.zero_mul] at hlen; omega
    obtain ⟨_, -, -, -, hstart⟩ := start_fresh hinfo hfresh hpos
    exact ⟨_, hstart⟩
  intro s₀ hstart
  constructor
  · -- The server believes that it has the last chunk before anything is written there.
    intro hall hz
    by_cases hpos : 0 < info.numChunks
    · obtain ⟨s₁, s, h0, hr, hbit, hfile⟩ := last_chunk_empty h64 hinfo g hfresh hpos hz
      rw [hstart, Result.ok.injEq] at h0
      subst h0
      have hslot := (hall s hr).1 _ (by omega) hbit
      rwa [last_slot_end g hpos, hfile] at hslot
    · rw [show info.numChunks = 0 by omega, Nat.zero_mul] at hlen
      exact AgreeOn.of_empty (by omega)
  · intro hlast s hr
    obtain ⟨hs, hstore⟩ := reachable_store g h64 hinfo hfresh hstart hr
    refine ⟨fun i hi hbit => hstore.stored_slots g hlast hi hbit, ?_⟩
    intro hfull
    have hbits := hs.receiver.valid.all_iff.mp hfull
    rw [hs.receiver.numBits] at hbits
    exact file_eq_of_slots g hstore.length fun i hi => hstore.stored_slots g hlast hi (hbits i hi)

omit [Varint] in
/-- One byte is no whole chunk. -/
theorem upload_stored_iff_one_byte :
    letI := leb128
    ∃ info s₀, indexFieldSize 1 = .ok info ∧
      Session.start [7] { bitmap := none, file := none } = .ok s₀ ∧
      ∀ s, Reachable Session.Step s₀ s → Stored info [7] s.server.receiver := by
  let _ := leb128
  obtain ⟨info, hinfo, hstart, hiff⟩ :=
    @upload_stored_iff _ [7] (by decide) { bitmap := none, file := none } rfl
  obtain ⟨s₀, h0⟩ := hstart (by simp)
  refine ⟨info, s₀, hinfo, h0, (hiff s₀ h0).mpr ?_⟩
  have hone : indexFieldSize 1 = .ok ⟨1, 1459, 1, 1⟩ := by decide
  rw [List.length_singleton, hone, Result.ok.injEq] at hinfo
  subst hinfo
  intro hz
  simp at hz

omit [Varint] in
/-- A file of one whole chunk: the server has all chunks and holds only zeroes. -/
theorem whole_chunk_lost :
    letI := leb128
    ∃ info s₀ s, indexFieldSize 1459 = .ok info ∧
      Session.start (List.replicate 1459 1) { bitmap := none, file := none } = .ok s₀ ∧
      Reachable Session.Step s₀ s ∧ s.server.receiver.bitmap.all = true ∧
      s.server.receiver.file = List.replicate 1459 0 ∧
      ¬ Stored info (List.replicate 1459 1) s.server.receiver := by
  let _ := leb128
  have hlen : (List.replicate 1459 (1 : UInt8)).length = 1459 := List.length_replicate
  have h64 : (List.replicate 1459 (1 : UInt8)).length < u64Size := by rw [hlen]; decide
  have hinfo : indexFieldSize (List.replicate 1459 (1 : UInt8)).length = .ok ⟨1, 1459, 1, 0⟩ := by
    rw [hlen]
    decide
  obtain ⟨info, hinfo', g⟩ := indexFieldSize_spec h64
  rw [hinfo, Result.ok.injEq] at hinfo'
  subst hinfo'
  have hfresh : ({ bitmap := none, file := none } : Disk).bitmap = none := rfl
  obtain ⟨s₀, s, h0, hr, hbit, hfile⟩ :=
    last_chunk_empty h64 hinfo g hfresh (by decide) (by rw [hlen]; exact Nat.mod_self 1459)
  have hs := (reachable_store g h64 hinfo rfl h0 hr).1
  have hall : s.server.receiver.bitmap.all = true := by
    rw [hs.receiver.valid.all_iff, hs.receiver.numBits]
    intro i hi
    rwa [show i = 0 from Nat.lt_one_iff.mp hi]
  have hzeros : s.server.receiver.file = List.replicate 1459 0 := by
    rw [hfile, hlen]
    rfl
  refine ⟨_, s₀, s, by rw [← hlen]; exact hinfo, h0, hr, hall, hzeros, ?_⟩
  intro hst
  have heq := hzeros.symm.trans (hst.2 hall)
  exact absurd (congrArg List.head? heq) (by rw [List.head?_replicate, List.head?_replicate]; decide)

end Runs

end DasProtokoll.Csync
