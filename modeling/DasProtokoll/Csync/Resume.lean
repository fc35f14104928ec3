import DasProtokoll.Lib.Run
import DasProtokoll.Csync.Server

/-!
# Uploads that are aborted and resumed

One folder of the server through any number of sessions. A session that finds a
bitmap file opens the stored file in append mode, so its writes go to the end.
-/

namespace DasProtokoll.Csync

open DasProtokoll BitteEinBit

/-- An open session. `resumed` says that it found a bitmap file, and `before` is the stored file as
it was when the chunk in work was accepted. -/
structure Opened where
  resumed : Bool
  before : Bytes
  receiver : Receiver
  deriving Repr, DecidableEq

/-- Between two sessions only the disk is left. -/
inductive Folder where
  | closed (disk : Disk)
  | opened (session : Opened)
  deriving Repr, DecidableEq

inductive FolderEvent where
  | login
  /-- The server stops in the middle of the upload request. -/
  | abortedLogin (done : Nat)
  | poll (ready : Bool) (progress : Nat) (datagram : Option Bytes)
  | abort
  deriving Repr, DecidableEq

namespace Folder

def step (length : Nat) (s : Folder) (e : FolderEvent) : Result Folder := do
  match s, e with
  | .closed disk, .login =>
    let receiver ← Receiver.new disk length
    return .opened { resumed := disk.bitmap.isSome, before := receiver.file, receiver }
  | .closed disk, .abortedLogin done =>
    let info ← indexFieldSize length
    let effects := bitmapEffects disk.bitmap.isSome info ++ fileEffects length
    return .closed (runEffects (effects.take done) disk)
  | .opened o, .poll ready progress datagram =>
    let receiver ← o.receiver.poll ready progress datagram
    let (done, _) ← o.receiver.pollWrite progress
    return .opened { o with before := if done then receiver.file else o.before, receiver }
  | .opened o, .abort => return .closed o.receiver.disk
  | s, _ => return s

def Step (length : Nat) (s : Folder) (e : FolderEvent) (s' : Folder) : Prop :=
  s.step length e = .ok s'

end Folder

/-! ## Where a payload goes -/

/-- The bytes that a poll hands to the stored file. -/
def piece (w : WritingChunk) (data : Bytes) (progress : Nat) : Bytes :=
  (data.drop w.pos).take progress

/-- After the poll the file has the length of the upload. It is what it was when the chunk in work
was accepted, with the payload, as far as it is written, in the slot of the chunk. -/
def SlotKept (length : Nat) (info : ChunkInfo) (t : Transition Folder FolderEvent) : Prop :=
  ∀ o ready progress datagram, t.source = .opened o → t.label = .poll ready progress datagram →
    ∃ o', t.target = .opened o' ∧ o'.receiver.file.length = length ∧
      (∀ w data, o.receiver.state = .WritingChunk w → w.chunk.asRef = .ok data →
        o'.receiver.file = overwrite 0 o.before (w.chunk.index * info.chunkSize)
          (data.take (w.pos + progress))) ∧
      ((∀ w, o.receiver.state ≠ .WritingChunk w) → o'.receiver.file = o.receiver.file)

/-- A poll writes only in a session that found no bitmap file, and not behind the end. -/
def InPlace (length : Nat) (info : ChunkInfo) (t : Transition Folder FolderEvent) : Prop :=
  ∀ o ready progress datagram w data, t.source = .opened o → t.label = .poll ready progress datagram →
    o.receiver.state = .WritingChunk w → w.chunk.asRef = .ok data → piece w data progress ≠ [] →
      o.resumed = false ∧
        w.chunk.index * info.chunkSize + w.pos + (piece w data progress).length ≤ length

/-- The open file: its mode, and where it stands while a chunk is being written. -/
def WriterOk (info : ChunkInfo) (o : Opened) : State → Prop
  | .WaitForChunk w => w.chunkInfo = info ∧ w.file.append = o.resumed
  | .WritingChunk w => w.chunkInfo = info ∧ w.file.append = o.resumed ∧
      w.chunk.index < info.numChunks ∧
      ∃ data, w.chunk.asRef = .ok data ∧ w.pos ≤ data.length ∧
        (if o.resumed then w.pos = 0 else w.file.pos = w.chunk.index * info.chunkSize + w.pos) ∧
        o.receiver.file = overwrite 0 o.before (w.chunk.index * info.chunkSize) (data.take w.pos)
  | .Shutdown => True
  | _ => False

structure OpenedInv (length : Nat) (info : ChunkInfo) (o : Opened) : Prop where
  valid : o.receiver.bitmap.Valid
  numBits : o.receiver.bitmap.numBits = info.numChunks
  fileLength : o.receiver.file.length = length
  beforeLength : o.before.length = length
  writer : WriterOk info o o.receiver.state

def Folder.Inv (length : Nat) (info : ChunkInfo) : Folder → Prop
  | .closed _ => True
  | .opened o => OpenedInv length info o

variable {length : Nat} {info : ChunkInfo} {o o' : Opened} {ready : Bool} {progress : Nat}
  {datagram : Option Bytes} {r' : Receiver} {w : WritingChunk} {data : Bytes}

/-! ## One poll -/

theorem take_piece (w : WritingChunk) (data : Bytes) (progress : Nat) :
    data.take (w.pos + progress) = data.take w.pos ++ piece w data progress := by
  rw [List.take_add, piece]

theorem poll_writes {r : Receiver} (h : r.poll ready progress datagram = .ok r')
    (hs : r.state = .WritingChunk w) (hdata : w.chunk.asRef = .ok data) :
    ∃ content handle, w.file.write r.file (piece w data progress) = (content, handle) ∧
      ((progress < (data.drop w.pos).length ∧ ∃ tx, r' = { r with
          file := content
          tx
          state := .WritingChunk { w with file := handle, pos := w.pos + progress } }) ∨
        ((data.drop w.pos).length ≤ progress ∧ ∃ old bitmap tx,
          r.bitmap.set w.chunk.index true = .ok (old, bitmap) ∧
          Receiver.pollRecv { r with
            file := content
            bitmap
            tx
            state := .WaitForChunk { file := handle, chunkInfo := w.chunkInfo } } datagram =
              .ok r')) := by
  obtain ⟨tx, htx⟩ := Receiver.pollCongestion_eq r ready
  simp only [Receiver.poll, htx, Result.bind_eq_ok] at h
  obtain ⟨⟨done, q⟩, hq, h⟩ := h
  rcases Receiver.pollWrite_cases hq with ⟨-, -, hno⟩ | ⟨w', data', content, handle, hs', hd', hw, hcase⟩
  · exact absurd hs (hno w)
  simp only [hs, State.WritingChunk.injEq] at hs'
  subst hs'
  rw [hdata, Result.ok.injEq] at hd'
  subst hd'
  refine ⟨content, handle, hw, ?_⟩
  rcases hcase with ⟨rfl, hlt, rfl⟩ | ⟨rfl, hge, old, bitmap, tx', hset, rfl⟩
  · simp only [Result.pure_def, Result.ok.injEq] at h
    exact Or.inl ⟨hlt, tx, h.symm⟩
  · exact Or.inr ⟨hge, old, bitmap, tx', hset, h⟩

theorem poll_waits {r : Receiver} (h : r.poll ready progress datagram = .ok r')
    (hs : ∀ w, r.state ≠ .WritingChunk w) :
    ∃ tx, Receiver.pollRecv { r with tx } datagram = .ok r' := by
  obtain ⟨tx, htx⟩ := Receiver.pollCongestion_eq r ready
  simp only [Receiver.poll, htx, Result.bind_eq_ok] at h
  obtain ⟨⟨done, q⟩, hq, h⟩ := h
  rcases Receiver.pollWrite_cases hq with ⟨rfl, rfl, -⟩ | ⟨w', -, -, -, hs', -⟩
  · exact ⟨tx, h⟩
  · exact absurd hs' (hs w')

theorem pollRecv_file {r : Receiver} (h : r.pollRecv datagram = .ok r') : r'.file = r.file := by
  rcases Receiver.pollRecv_cases h with rfl | ⟨w, -, rfl⟩ | ⟨w, d, c, -, -, -, hcase⟩
  · rfl
  · rfl
  · rcases hcase with ⟨-, rfl⟩ | ⟨-, -, rfl⟩ | ⟨-, -, rfl⟩ <;> rfl

/-- Where the open file writes. -/
def writePos (o : Opened) (w : WritingChunk) : Nat :=
  if w.file.append then o.receiver.file.length else w.file.pos

theorem poll_file (h : o.receiver.poll ready progress datagram = .ok r')
    (hs : o.receiver.state = .WritingChunk w) (hdata : w.chunk.asRef = .ok data) :
    r'.file = overwrite 0 o.receiver.file (writePos o w) (piece w data progress) := by
  obtain ⟨content, handle, hw, hcase⟩ := poll_writes h hs hdata
  simp only [FileHandle.write, Prod.mk.injEq] at hw
  rw [writePos, hw.1]
  rcases hcase with ⟨-, tx, rfl⟩ | ⟨-, old, bitmap, tx, -, hrecv⟩
  · rfl
  · exact pollRecv_file hrecv

theorem Folder.step_poll {s' : Folder}
    (h : Folder.Step length (.opened o) (.poll ready progress datagram) s') :
    ∃ r' done q, o.receiver.poll ready progress datagram = .ok r' ∧
      o.receiver.pollWrite progress = .ok (done, q) ∧
      s' = .opened { o with before := if done then r'.file else o.before, receiver := r' } := by
  simp only [Folder.Step, Folder.step, Result.bind_eq_ok, Result.pure_def, Result.ok.injEq] at h
  obtain ⟨r', hr', ⟨done, q⟩, hq, rfl⟩ := h
  exact ⟨r', done, q, hr', hq, rfl⟩

theorem done_of_pollWrite {r q : Receiver} {done : Bool} (h : r.pollWrite progress = .ok (done, q))
    (hs : r.state = .WritingChunk w) (hdata : w.chunk.asRef = .ok data) :
    done = decide ((data.drop w.pos).length ≤ progress) := by
  rcases Receiver.pollWrite_cases h with ⟨-, -, hno⟩ | ⟨w', data', content, handle, hs', hd', -, hcase⟩
  · exact absurd hs (hno w)
  rw [hs, State.WritingChunk.injEq] at hs'
  subst hs'
  rw [hdata, Result.ok.injEq] at hd'
  subst hd'
  rcases hcase with ⟨rfl, hlt, -⟩ | ⟨rfl, hge, -⟩
  · exact (decide_eq_false (by omega)).symm
  · exact (decide_eq_true hge).symm

theorem OpenedInv.writing (hinv : OpenedInv length info o)
    (hs : o.receiver.state = .WritingChunk w) (hdata : w.chunk.asRef = .ok data) :
    w.chunkInfo = info ∧ w.file.append = o.resumed ∧ w.chunk.index < info.numChunks ∧
      w.pos ≤ data.length ∧
      (if o.resumed then w.pos = 0 else w.file.pos = w.chunk.index * info.chunkSize + w.pos) ∧
      o.receiver.file = overwrite 0 o.before (w.chunk.index * info.chunkSize) (data.take w.pos) := by
  have h := hinv.writer
  simp only [WriterOk, hs] at h
  obtain ⟨hinfo, happend, hi, data', hdata', hrest⟩ := h
  rw [hdata, Result.ok.injEq] at hdata'
  subst hdata'
  exact ⟨hinfo, happend, hi, hrest⟩

theorem OpenedInv.pos_le (g : Geometry length info) (hinv : OpenedInv length info o)
    (hs : o.receiver.state = .WritingChunk w) (hdata : w.chunk.asRef = .ok data) :
    w.chunk.index * info.chunkSize + w.pos ≤ length := by
  obtain ⟨-, -, hi, hpos, -, hfile⟩ := hinv.writing hs hdata
  have hstart := g.start_lt hi
  have hbefore := hinv.beforeLength
  have hlen := congrArg List.length hfile
  rw [overwrite_length _ _ _ _ (by omega), List.length_take, Nat.min_eq_left hpos,
    hinv.fileLength] at hlen
  omega

theorem OpenedInv.payload (hinv : OpenedInv length info o)
    (hs : o.receiver.state = .WritingChunk w) : ∃ data, w.chunk.asRef = .ok data := by
  have h := hinv.writer
  simp only [WriterOk, hs] at h
  obtain ⟨-, -, -, data, hdata, -⟩ := h
  exact ⟨data, hdata⟩

theorem piece_stored (g : Geometry length info) (hinv : OpenedInv length info o)
    (h : o.receiver.poll ready progress datagram = .ok r')
    (hs : o.receiver.state = .WritingChunk w) (hdata : w.chunk.asRef = .ok data)
    (hplace : piece w data progress ≠ [] → o.resumed = false ∧
      w.chunk.index * info.chunkSize + w.pos + (piece w data progress).length ≤ length) :
    r'.file.length = length ∧
      r'.file = overwrite 0 o.before (w.chunk.index * info.chunkSize) (data.take (w.pos + progress)) := by
  have hlength := hinv.fileLength
  have hend := hinv.pos_le g hs hdata
  obtain ⟨-, happend, hi, hpos, hfilepos, hfile⟩ := hinv.writing hs hdata
  rw [poll_file h hs hdata, take_piece]
  by_cases hpiece : piece w data progress = []
  · rw [hpiece, overwrite_nil, List.append_nil]
    exact ⟨hlength, hfile⟩
  obtain ⟨hres, hfits⟩ := hplace hpiece
  simp only [hres, Bool.false_eq_true, if_false] at happend hfilepos
  have hstart := g.start_lt hi
  have hbefore := hinv.beforeLength
  have htake : (data.take w.pos).length = w.pos := by rw [List.length_take]; omega
  simp only [writePos, happend, Bool.false_eq_true, if_false, hfilepos]
  refine ⟨by rw [overwrite_length_of_fits _ _ _ _ (by omega), hlength], ?_⟩
  rw [hfile]
  have happ := overwrite_append 0 o.before (w.chunk.index * info.chunkSize) (data.take w.pos)
    (piece w data progress) (by omega)
  rwa [htake] at happ

theorem slotKept_iff (g : Geometry length info) {s s' : Folder} {e : FolderEvent}
    (hinv : s.Inv length info) (h : Folder.Step length s e s') :
    SlotKept length info ⟨s, e, s'⟩ ↔ InPlace length info ⟨s, e, s'⟩ := by
  constructor
  · rintro hkept o ready progress datagram w data rfl rfl hs hdata hpiece
    obtain ⟨o', ho', hlen, -, -⟩ := hkept o ready progress datagram rfl rfl
    obtain ⟨r', done, q, hpoll, -, rfl⟩ := Folder.step_poll h
    simp only [Folder.opened.injEq] at ho'
    subst ho'
    have hpos := OpenedInv.pos_le g hinv hs hdata
    obtain ⟨-, happend, -, -, hfilepos, -⟩ := OpenedInv.writing hinv hs hdata
    have hk := List.length_pos_of_ne_nil hpiece
    simp only [poll_file hpoll hs hdata, writePos, happend] at hlen
    cases hres : o.resumed with
    | true =>
      rw [hres, if_pos rfl, overwrite_length _ _ _ _ (le_refl _), OpenedInv.fileLength hinv] at hlen
      omega
    | false =>
      simp only [hres, Bool.false_eq_true, if_false] at hlen hfilepos
      rw [hfilepos, overwrite_length _ _ _ _ (by rw [OpenedInv.fileLength hinv]; exact hpos),
        OpenedInv.fileLength hinv] at hlen
      exact ⟨rfl, by omega⟩
  · rintro hplace o ready progress datagram rfl rfl
    obtain ⟨r', done, q, hpoll, -, rfl⟩ := Folder.step_poll h
    have hlength := OpenedInv.fileLength hinv
    refine ⟨_, rfl, ?_⟩
    by_cases hwriting : ∃ w, o.receiver.state = .WritingChunk w
    · obtain ⟨w, hs⟩ := hwriting
      obtain ⟨data, hdata⟩ := OpenedInv.payload hinv hs
      obtain ⟨hlen, hfile⟩ := piece_stored g hinv hpoll hs hdata
        (hplace o ready progress datagram w data rfl rfl hs hdata)
      refine ⟨hlen, ?_, fun hno => absurd hs (hno w)⟩
      intro w' data' hs' hdata'
      simp only [hs, State.WritingChunk.injEq] at hs'
      subst hs'
      rw [hdata, Result.ok.injEq] at hdata'
      subst hdata'
      exact hfile
    · obtain ⟨tx, hrecv⟩ := poll_waits hpoll (not_exists.mp hwriting)
      have hfile := pollRecv_file hrecv
      refine ⟨by rw [hfile]; exact hlength, ?_, fun _ => hfile⟩
      intro w data hs
      exact absurd ⟨w, hs⟩ hwriting

/-! ## Runs -/

theorem recv_inv {r : Receiver} {before : Bytes} {resumed : Bool}
    (hinv : OpenedInv length info ⟨resumed, before, r⟩) (h : r.pollRecv datagram = .ok r') :
    OpenedInv length info ⟨resumed, r'.file, r'⟩ := by
  have hwriter := hinv.writer
  have hlength := hinv.fileLength
  simp only at hwriter hlength
  rcases Receiver.pollRecv_cases h with rfl | ⟨w, hs, -⟩ | ⟨w, d, c, hs, -, hc, hcase⟩
  · cases hs : r'.state with
    | WritingChunk w => simp [Receiver.pollRecv, hs] at h
    | WaitForChunk w =>
      simp only [hs, WriterOk] at hwriter
      refine ⟨hinv.valid, hinv.numBits, hlength, hlength, ?_⟩
      simp only [hs, WriterOk, hwriter, and_self]
    | Shutdown =>
      exact ⟨hinv.valid, hinv.numBits, hlength, hlength, by simp only [hs, WriterOk]⟩
    | _ => simp [hs, WriterOk] at hwriter
  · simp [hs, WriterOk] at hwriter
  simp only [hs, WriterOk] at hwriter
  rcases hcase with ⟨-, rfl⟩ | ⟨-, -, rfl⟩ | ⟨hne, hget, rfl⟩
  · exact ⟨hinv.valid, hinv.numBits, hlength, hlength, trivial⟩
  · refine ⟨hinv.valid, hinv.numBits, hlength, hlength, ?_⟩
    simp only [hs, WriterOk, hwriter, and_self]
  · have hle := BitMap.le_of_get hget
    have hnum := hinv.numBits
    simp only at hnum
    rw [hwriter.1] at hne
    obtain ⟨data, hdata⟩ := Chunk.decode_asRef hc
    refine ⟨hinv.valid, hinv.numBits, hlength, hlength, hwriter.1, hwriter.2, by simp only; omega,
      data, hdata, Nat.zero_le _, ?_, ?_⟩
    · simp [FileHandle.seek, hwriter.1]
    · simp

theorem poll_inv (g : Geometry length info) (hinv : OpenedInv length info o) {s' : Folder}
    (h : Folder.Step length (.opened o) (.poll ready progress datagram) s')
    (hplace : InPlace length info ⟨.opened o, .poll ready progress datagram, s'⟩) :
    s'.Inv length info := by
  obtain ⟨r', done, q, hpoll, hwrite, rfl⟩ := Folder.step_poll h
  by_cases hwriting : ∃ w, o.receiver.state = .WritingChunk w
  · obtain ⟨w, hs⟩ := hwriting
    obtain ⟨data, hdata⟩ := hinv.payload hs
    have hplace' := hplace o ready progress datagram w data rfl rfl hs hdata
    obtain ⟨hinfo, happend, hi, hpos, hfilepos, -⟩ := hinv.writing hs hdata
    obtain ⟨hlen, hfile⟩ := piece_stored g hinv hpoll hs hdata hplace'
    have hrest : (data.drop w.pos).length = data.length - w.pos := List.length_drop
    have hpiece : (piece w data progress).length = min progress (data.length - w.pos) := by
      rw [piece, List.length_take, hrest]
    obtain ⟨content, handle, hw, hcase⟩ := poll_writes hpoll hs hdata
    simp only [FileHandle.write, Prod.mk.injEq] at hw
    obtain ⟨-, rfl⟩ := hw
    rcases hcase with ⟨hlt, tx, rfl⟩ | ⟨hge, old, bitmap, tx, hset, hrecv⟩
    · -- A part is left, and the chunk stays in work.
      rw [done_of_pollWrite hwrite hs hdata, decide_eq_false (by omega), if_neg (by simp)]
      refine ⟨hinv.valid, hinv.numBits, hlen, hinv.beforeLength, hinfo, happend, hi, data, hdata,
        by simp only; omega, ?_, hfile⟩
      cases hres : o.resumed with
      | true =>
        simp only [hres, if_true] at hfilepos ⊢
        have hnone : piece w data progress = [] := by
          by_contra hne
          rw [(hplace' hne).1] at hres
          cases hres
        rw [hnone, List.length_nil] at hpiece
        omega
      | false =>
        simp only [hres, Bool.false_eq_true, if_false, happend] at hfilepos ⊢
        omega
    · -- The chunk is complete.
      rw [done_of_pollWrite hwrite hs hdata, decide_eq_true (by omega), if_pos rfl]
      have hin : w.chunk.index < o.receiver.bitmap.numBits := by rw [hinv.numBits]; exact hi
      obtain ⟨m', hset', hvalid, hnum, -, -⟩ := BitMap.set_eq true hin hinv.valid
      rw [hset', Result.ok.injEq, Prod.mk.injEq] at hset
      obtain ⟨-, rfl⟩ := hset
      have hsame := pollRecv_file hrecv
      rw [hsame] at hlen
      have hnew : OpenedInv length info ⟨o.resumed, o.before, _⟩ :=
        ⟨hvalid, hnum.trans hinv.numBits, hlen, hinv.beforeLength, hinfo, happend⟩
      exact recv_inv hnew hrecv
  · obtain ⟨tx, hrecv⟩ := poll_waits hpoll (not_exists.mp hwriting)
    have hdone : done = true := by
      rcases Receiver.pollWrite_cases hwrite with ⟨hd, -⟩ | ⟨w, -, -, -, hs, -⟩
      · exact hd
      · exact absurd ⟨w, hs⟩ hwriting
    rw [hdone, if_pos rfl]
    have hnew : OpenedInv length info ⟨o.resumed, o.before, { o.receiver with tx }⟩ :=
      ⟨hinv.valid, hinv.numBits, hinv.fileLength, hinv.beforeLength, hinv.writer⟩
    exact recv_inv hnew hrecv

theorem login_inv (hinfo : indexFieldSize length = .ok info) {disk : Disk} {r : Receiver}
    (h : Receiver.new disk length = .ok r) :
    OpenedInv length info ⟨disk.bitmap.isSome, r.file, r⟩ := by
  obtain ⟨hstate, hvalid, hnum, -, hfile, -⟩ := Receiver.new_ok hinfo h
  have hlen : r.file.length = length := by rw [hfile, resize_length]
  exact ⟨hvalid, hnum, hlen, hlen, by simp only [hstate, WriterOk, and_self]⟩

theorem step_inv (hinfo : indexFieldSize length = .ok info) (g : Geometry length info)
    {s s' : Folder} {e : FolderEvent} (hinv : s.Inv length info) (h : Folder.Step length s e s')
    (hplace : InPlace length info ⟨s, e, s'⟩) : s'.Inv length info := by
  cases s with
  | closed disk =>
    cases e with
    | login =>
      simp only [Folder.Step, Folder.step, Result.bind_eq_ok, Result.pure_def, Result.ok.injEq] at h
      obtain ⟨r, hr, rfl⟩ := h
      exact login_inv hinfo hr
    | abortedLogin done =>
      simp only [Folder.Step, Folder.step, Result.bind_eq_ok, Result.pure_def, Result.ok.injEq] at h
      obtain ⟨-, -, rfl⟩ := h
      trivial
    | _ =>
      simp only [Folder.Step, Folder.step, Result.pure_def, Result.ok.injEq] at h
      exact h ▸ hinv
  | opened o =>
    cases e with
    | poll ready progress datagram => exact poll_inv g hinv h hplace
    | abort =>
      simp only [Folder.Step, Folder.step, Result.pure_def, Result.ok.injEq] at h
      exact h ▸ trivial
    | _ =>
      simp only [Folder.Step, Folder.step, Result.pure_def, Result.ok.injEq] at h
      exact h ▸ hinv

/-- Through all sessions of a folder the payloads go into the slots of their chunks, if and only if
no resumed session writes anything and no payload is longer than the rest of the file. -/
theorem resume_iff {length : Nat} (h64 : length < u64Size) {disk : Disk}
    {l : List (Transition Folder FolderEvent)} {s : Folder}
    (hrun : Run (Folder.Step length) (.closed disk) l s) :
    ∃ info, indexFieldSize length = .ok info ∧
      ((∀ t ∈ l, SlotKept length info t) ↔ ∀ t ∈ l, InPlace length info t) := by
  obtain ⟨info, hinfo, g⟩ := indexFieldSize_spec h64
  exact ⟨info, hinfo, hrun.guard_iff (I := Folder.Inv length info) trivial
    (fun _ _ _ hinv h => slotKept_iff g hinv h) fun _ _ _ hinv h hplace =>
      step_inv hinfo g hinv h hplace⟩

/-! ## A file of one byte -/

def oneByteInfo : ChunkInfo := ⟨1, 1459, 1, 1⟩

theorem oneByte_info : indexFieldSize 1 = .ok oneByteInfo := by decide

/-- The session before its only chunk is stored. -/
def oneByteSession (resumed : Bool) (state : State) : Opened where
  resumed
  before := [0]
  receiver := {
    state
    bitmap := { buf := [0], numBits := 1, zeroes := 1 }
    bitmapExists := true
    file := [0]
    tx := [.UploadStart, .UploadStatus]
    congestionDone := false }

def oneByteWaiting (resumed : Bool) : Opened :=
  oneByteSession resumed
    (.WaitForChunk { file := { append := resumed, pos := 0 }, chunkInfo := oneByteInfo })

def oneByteWriting (resumed : Bool) : Opened :=
  oneByteSession resumed (.WritingChunk {
    chunkInfo := oneByteInfo
    file := { append := resumed, pos := 0 }
    chunk := { indexFieldSize := 1, index := 0, buf := [0, 7] }
    pos := 0 })

def oneByteWritten (resumed : Bool) (file : List UInt8) : Opened where
  resumed
  before := file
  receiver := { (oneByteWriting resumed).receiver with
    state := .WaitForChunk { file := { append := resumed, pos := file.length }, chunkInfo := oneByteInfo }
    bitmap := { buf := [1], numBits := 1, zeroes := 0 }
    file
    tx := [.UploadStart, .UploadStatus, .UploadStatus] }

theorem oneByte_login : Folder.Step 1 (.closed { bitmap := none, file := none }) .login
    (.opened (oneByteWaiting false)) := by
  show Folder.step _ _ _ = _
  decide

theorem oneByte_recv (resumed : Bool) : Folder.Step 1 (.opened (oneByteWaiting resumed))
    (.poll false 0 (some [0, 7])) (.opened (oneByteWriting resumed)) := by
  show Folder.step _ _ _ = _
  revert resumed
  decide

theorem oneByte_write (resumed : Bool) : Folder.Step 1 (.opened (oneByteWriting resumed))
    (.poll false 1 none) (.opened (oneByteWritten resumed (if resumed then [0, 7] else [7]))) := by
  show Folder.step _ _ _ = _
  revert resumed
  decide

/-- A fresh session of one byte. -/
theorem resume_iff_one_byte :
    ∃ info l o, indexFieldSize 1 = .ok info ∧
      Run (Folder.Step 1) (.closed { bitmap := none, file := none }) l (.opened o) ∧
      o.receiver.file = [7] ∧ ∀ t ∈ l, SlotKept 1 info t := by
  have hrun := ((Run.nil.snoc oneByte_login).snoc (oneByte_recv false)).snoc (oneByte_write false)
  obtain ⟨info, hinfo, hiff⟩ := resume_iff (by decide) hrun
  obtain rfl : oneByteInfo = info := Result.ok.inj (oneByte_info.symm.trans hinfo)
  refine ⟨_, _, _, hinfo, hrun, rfl, hiff.mpr ?_⟩
  intro t ht o ready progress datagram w data hsource hlabel hs hdata hpiece
  simp only [List.nil_append, List.cons_append, List.mem_cons, List.not_mem_nil, or_false] at ht
  rcases ht with rfl | rfl | rfl
  · cases hsource
  · cases hsource
    cases hs
  · cases hsource
    cases hlabel
    cases hs
    cases hdata
    exact ⟨rfl, by decide⟩

/-- The only chunk of a resumed upload lands behind the end of the file. -/
theorem resumed_chunk_misplaced :
    ∃ info l o, indexFieldSize 1 = .ok info ∧
      Run (Folder.Step 1) (.closed { bitmap := none, file := none }) l (.opened o) ∧
      o.receiver.bitmap.all = true ∧ o.receiver.file = [0, 7] ∧ ∃ t ∈ l, ¬ SlotKept 1 info t := by
  have habort : Folder.Step 1 (.opened (oneByteWaiting false)) .abort
      (.closed { bitmap := some [0], file := some [0] }) := rfl
  have hresume : Folder.Step 1 (.closed { bitmap := some [0], file := some [0] }) .login
      (.opened (oneByteWaiting true)) := by
    show Folder.step _ _ _ = _
    decide
  have hwaiting := ((Run.nil.snoc oneByte_login).snoc habort).snoc hresume
  have hrun := (hwaiting.snoc (oneByte_recv true)).snoc (oneByte_write true)
  refine ⟨oneByteInfo, _, _, oneByte_info, hrun, rfl, rfl, _,
    List.mem_append_right _ (List.mem_singleton_self _), ?_⟩
  intro hkept
  obtain ⟨o', ho', hlen, -⟩ := hkept (oneByteWriting true) false 1 none rfl rfl
  cases ho'
  cases hlen

end DasProtokoll.Csync
