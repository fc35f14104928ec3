import DasProtokoll.Csync.Datagrams
import DasProtokoll.Csync.Session
import Mathlib.Data.Nat.Log

/-!
# The channel to the sender

The receiver queues the status updates and the sender takes them. None is lost,
none is sent twice, and neither side panics, whatever the network does with the
datagrams of a session.
-/

namespace DasProtokoll.Csync

open DasProtokoll BitteEinBit

/-! ## Updates that are due -/

/-- An update is due when this many chunks are missing. -/
def due (zeroes : Nat) : Bool := Receiver.isPowerOfTwo zeroes || zeroes == 0

/-- The updates that are due on the way down from `hi` missing chunks to `lo`. -/
def dues (lo hi : Nat) : Nat := (List.range' lo (hi - lo)).countP due

theorem dues_self (n : Nat) : dues n n = 0 := by simp [dues]

theorem dues_succ {lo hi : Nat} (h : lo < hi) : dues lo hi = dues (lo + 1) hi + (due lo).toNat := by
  have hlen : hi - lo = (hi - (lo + 1)) + 1 := by omega
  rw [dues, dues, hlen, List.range'_succ, List.countP_cons]
  cases due lo <;> simp

theorem dues_zero_succ (hi : Nat) : dues 0 (hi + 1) = dues 0 hi + (due hi).toNat := by
  rw [dues, dues, Nat.sub_zero, Nat.sub_zero, List.range'_concat, List.countP_append]
  cases hdue : due hi <;> simp [hdue]

theorem dues_le_zero (lo hi : Nat) : dues lo hi ≤ dues 0 hi := by
  induction lo with
  | zero => exact le_refl _
  | succ lo ih =>
    rcases Nat.lt_or_ge lo hi with hlt | hge
    · rw [dues_succ hlt] at ih
      omega
    · simp [dues, Nat.sub_eq_zero_of_le (Nat.le_succ_of_le hge)]

theorem due_pow {n : Nat} (h : due n = true) (hpos : 0 < n) : ∃ k, n = 2 ^ k := by
  simp only [due, Receiver.isPowerOfTwo, Bool.or_eq_true, Bool.and_eq_true, beq_iff_eq] at h
  rcases h with ⟨-, hpow⟩ | hzero
  · exact ⟨_, hpow.symm⟩
  · omega

theorem dues_le (lo hi : Nat) : dues lo hi ≤ Nat.clog 2 hi + 1 := by
  apply (dues_le_zero lo hi).trans
  induction hi with
  | zero => simp [dues]
  | succ hi ih =>
    rw [dues_zero_succ]
    have hmono : Nat.clog 2 hi ≤ Nat.clog 2 (hi + 1) := Nat.clog_mono_right 2 (Nat.le_succ hi)
    cases hdue : due hi with
    | false =>
      simp only [Bool.toNat_false]
      omega
    | true =>
      rcases Nat.eq_zero_or_pos hi with rfl | hpos
      · simp [dues]
      · obtain ⟨k, rfl⟩ := due_pow hdue hpos
        have hlt : k < Nat.clog 2 (2 ^ k + 1) := by
          rw [Nat.lt_clog_iff_pow_lt (by omega)]
          omega
        rw [Nat.clog_pow 2 k (by omega)] at ih
        simp only [Bool.toNat_true]
        omega

/-! ## What a poll queues -/

namespace Receiver

/-- The chunk in work is not received yet. -/
def Unmarked (r : Receiver) : Prop :=
  ∀ w, r.state = .WritingChunk w → r.bitmap.bit w.chunk.index = false

/-- The timer asks for an update. -/
def tick (r : Receiver) (ready : Bool) : Bool := ready && !r.congestionDone

variable {r r' : Receiver}

theorem pollWrite_tx {progress : Nat} {done : Bool} (h : r.pollWrite progress = .ok (done, r')) :
    (r'.bitmap = r.bitmap ∧ r'.tx = r.tx ∧
      (r'.state = r.state ∨ ∃ w w', r.state = .WritingChunk w ∧ r'.state = .WritingChunk w' ∧
        w'.chunk = w.chunk)) ∨
    ∃ w w' old, r.state = .WritingChunk w ∧ r'.state = .WaitForChunk w' ∧
      r.bitmap.set w.chunk.index true = .ok (old, r'.bitmap) ∧
      r'.tx = r.tx ++ List.replicate (due r'.bitmap.zeroes).toNat .UploadStatus := by
  unfold pollWrite at h
  cases hs : r.state with
  | WritingChunk w =>
    simp only [hs, Result.bind_eq_ok] at h
    obtain ⟨data, -, h⟩ := h
    split at h
    · simp only [Result.pure_def, Result.ok.injEq, Prod.mk.injEq] at h
      obtain ⟨-, rfl⟩ := h
      exact Or.inl ⟨rfl, rfl, Or.inr ⟨w, _, rfl, rfl, rfl⟩⟩
    · simp only [Result.bind_eq_ok] at h
      obtain ⟨⟨old, bitmap⟩, hset, h⟩ := h
      simp only [Result.pure_def, Result.ok.injEq, Prod.mk.injEq] at h
      obtain ⟨-, rfl⟩ := h
      refine Or.inr ⟨w, _, old, rfl, rfl, hset, ?_⟩
      change (if due bitmap.zeroes = true then _ else _) = _
      cases due bitmap.zeroes <;> simp
  | _ =>
    simp only [hs, Result.pure_def, Result.ok.injEq, Prod.mk.injEq] at h
    obtain ⟨-, rfl⟩ := h
    exact Or.inl ⟨rfl, rfl, Or.inl hs⟩

theorem pollRecv_unmarked {datagram : Option Bytes} (h : r.pollRecv datagram = .ok r')
    (hr : r.Unmarked) : r'.Unmarked ∧ r'.bitmap = r.bitmap ∧ r'.tx = r.tx := by
  rcases pollRecv_cases h with rfl | ⟨w, -, rfl⟩ | ⟨w, d, c, -, -, -, hcase⟩
  · exact ⟨hr, rfl, rfl⟩
  · exact ⟨by simp [Unmarked], rfl, rfl⟩
  rcases hcase with ⟨-, rfl⟩ | ⟨-, -, rfl⟩ | ⟨-, hget, rfl⟩
  · exact ⟨by simp [Unmarked], rfl, rfl⟩
  · exact ⟨hr, rfl, rfl⟩
  · refine ⟨?_, rfl, rfl⟩
    rintro _ ⟨⟩
    exact BitMap.bit_of_get hget

theorem poll_queue {ready : Bool} {progress : Nat} {datagram : Option Bytes}
    (h : r.poll ready progress datagram = .ok r') (hr : r.Unmarked) :
    r'.Unmarked ∧ ∃ n, r'.tx = r.tx ++ List.replicate ((r.tick ready).toNat + n) .UploadStatus ∧
      ((r'.bitmap = r.bitmap ∧ n = 0) ∨
        (r'.bitmap.zeroes + 1 = r.bitmap.zeroes ∧ n = (due r'.bitmap.zeroes).toNat)) := by
  obtain ⟨r₁, hr₁, htx₁⟩ : ∃ r₁, r.pollCongestion ready = r₁ ∧
      r₁ = { r with tx := r.tx ++ List.replicate (r.tick ready).toNat .UploadStatus } := by
    refine ⟨_, rfl, ?_⟩
    unfold pollCongestion tick
    cases ready && !r.congestionDone <;> simp
  simp only [poll, hr₁, Result.bind_eq_ok] at h
  obtain ⟨⟨done, q⟩, hwrite, h⟩ := h
  have hq : q.Unmarked ∧ ∃ n,
      q.tx = r.tx ++ List.replicate ((r.tick ready).toNat + n) .UploadStatus ∧
      ((q.bitmap = r.bitmap ∧ n = 0) ∨
        (q.bitmap.zeroes + 1 = r.bitmap.zeroes ∧ n = (due q.bitmap.zeroes).toNat)) := by
    subst htx₁
    rcases pollWrite_tx hwrite with ⟨hbitmap, htx, hstate⟩ | ⟨w, w', old, hs, hs', hset, htx⟩
    · refine ⟨?_, 0, by simpa using htx, Or.inl ⟨hbitmap, rfl⟩⟩
      intro w hw
      rw [hbitmap]
      rcases hstate with hstate | ⟨v, v', hv, hv', hchunk⟩
      · exact hr w (hstate ▸ hw)
      · rw [hv', State.WritingChunk.injEq] at hw
        rw [← hw, hchunk]
        exact hr v hv
    · refine ⟨by simp [Unmarked, hs'], _, ?_,
        Or.inr ⟨BitMap.zeroes_of_set hset (hr w hs), rfl⟩⟩
      rw [htx, List.append_assoc, List.replicate_append_replicate]
  cases done with
  | false =>
    simp only [Result.pure_def, Result.ok.injEq] at h
    exact h ▸ hq
  | true =>
    obtain ⟨hmarked, hbitmap, htx⟩ := pollRecv_unmarked h hq.1
    rw [hbitmap, htx]
    exact ⟨hmarked, hq.2⟩

theorem poll_waiting {w : WaitForChunk} (hs : r.state = .WaitForChunk w)
    (ready : Bool) (progress : Nat) : r.poll ready progress none = .ok (r.pollCongestion ready) := by
  obtain ⟨tx, htx⟩ := pollCongestion_eq r ready
  rw [poll, htx]
  simp [pollWrite, pollRecv, hs]

end Receiver

/-! ## The channel in a session -/

/-- What the channel holds: the start of the upload, until the sender took it, then `n` updates. -/
def Server.Queues (s : Server) (n : Nat) : Prop :=
  s.receiver.tx = (if s.sender.bitmap then [] else [.UploadStart]) ++ List.replicate n .UploadStatus

theorem Server.Queues.count {s : Server} {n : Nat} (h : s.Queues n) :
    s.receiver.tx.count .UploadStatus = n := by
  rw [h, List.count_append, List.count_replicate_self]
  split <;> simp

/-- The datagram that says which chunks are missing, as far as there is room. -/
def statusOf [Varint] (m : BitMap) : Bytes := Varint.writeAll (sentRuns mtu m.toBools)

theorem Server.startSend_queue [Varint] {s : Server} {n : Nat} (hq : s.Queues n)
    (hv : s.receiver.bitmap.Valid) (h64 : s.receiver.bitmap.numBits < u64Size) :
    ((s.sender.sending = true ∨ n = 0 ∧ s.sender.bitmap = true) ∧ s.startSend = .ok s) ∨
    (s.sender.sending = false ∧ s.sender.bitmap = false ∧ s.startSend = .ok {
      receiver := { s.receiver with tx := List.replicate n .UploadStatus }
      sender := { s.sender with bitmap := true } }) ∨
    (s.sender.sending = false ∧ s.sender.bitmap = true ∧ ∃ k, n = k + 1 ∧ s.startSend = .ok {
      receiver := { s.receiver with tx := List.replicate k .UploadStatus }
      sender := { s.sender with vec := statusOf s.receiver.bitmap, sending := true } }) := by
  unfold startSend
  by_cases hsending : s.sender.sending = true
  · exact Or.inl ⟨Or.inl hsending, if_pos hsending⟩
  rw [if_neg hsending]
  rw [Bool.not_eq_true] at hsending
  unfold Queues at hq
  cases hbitmap : s.sender.bitmap with
  | false =>
    rw [hbitmap] at hq
    refine Or.inr (Or.inl ⟨hsending, rfl, ?_⟩)
    simp [hq, Result.assert_of]
  | true =>
    rw [hbitmap, if_pos rfl, List.nil_append] at hq
    cases n with
    | zero =>
      refine Or.inl ⟨Or.inr ⟨rfl, rfl⟩, ?_⟩
      simp [hq]
    | succ k =>
      obtain ⟨written, out, hwrite, -, htake⟩ :=
        writeRunlengthEncoded_spec hv.fits h64 (resize 0 s.sender.vec mtu)
      rw [resize_length] at htake
      refine Or.inr (Or.inr ⟨hsending, rfl, k, rfl, ?_⟩)
      simp [hq, List.replicate_succ, Result.assert_of, hwrite, htake, statusOf]

/-- The timer answers whether an update is due. -/
def Event.withReady (ready : Bool) : Event → Event
  | .serverPoll _ progress datagram => .serverPoll ready progress datagram
  | e => e

@[simp] theorem Session.delivered_withReady {s : Session} {e : Event} {ready : Bool} :
    s.Delivered (e.withReady ready) ↔ s.Delivered e := by
  cases e with
  | serverPoll _ _ datagram => cases datagram <;> rfl
  | _ => rfl

namespace Session

/-- All status updates that the receiver asked for: sent ones, the one that is being sent, and queued ones. -/
def statuses (s : Session) : Nat :=
  s.toClient.length + s.server.sender.sending.toNat + s.server.receiver.tx.count .UploadStatus

/-- The step polls the receiver, and the timer asks for an update. -/
def ticks (s : Session) : Event → Bool
  | .serverPoll ready _ _ => s.server.receiver.tick ready
  | _ => false

structure ChannelInv (s : Session) : Prop where
  queues : ∃ n, s.server.Queues n
  unmarked : s.server.receiver.Unmarked

end Session

section Runs

variable {file : Bytes} {info : ChunkInfo} {disk : Disk} {s₀ s s' : Session} {e : Event}

theorem start_channel (h : Session.start file disk = .ok s) : s.ChannelInv ∧ s.statuses = 1 := by
  simp only [Session.start, Server.new, Result.bind_eq_ok, Result.pure_def, Result.ok.injEq] at h
  obtain ⟨client, -, _, ⟨receiver, hreceiver, rfl⟩, rfl⟩ := h
  simp only [Receiver.new, Receiver.uploadRequest, Result.bind_eq_ok, Result.pure_def,
    Result.ok.injEq] at hreceiver
  obtain ⟨_, ⟨info, -, _, -, bitmap, -, rfl⟩, rfl⟩ := hreceiver
  exact ⟨⟨⟨1, rfl⟩, by simp [Receiver.Unmarked]⟩, rfl⟩

variable [Varint]

theorem Session.ChannelInv.step (hc : s.ChannelInv) (hs : SessionInv info file s)
    (h64 : info.numChunks < u64Size) (h : Session.Step s e s') :
    s'.ChannelInv ∧
      ((s'.server.receiver.bitmap.zeroes = s.server.receiver.bitmap.zeroes ∧
          s'.statuses = s.statuses + (s.ticks e).toNat) ∨
        (s'.server.receiver.bitmap.zeroes + 1 = s.server.receiver.bitmap.zeroes ∧
          s'.statuses = s.statuses + (s.ticks e).toNat +
            (due s'.server.receiver.bitmap.zeroes).toNat)) := by
  obtain ⟨-, hstep⟩ := h
  obtain ⟨n, hq⟩ := hc.queues
  cases e with
  | clientSent =>
    simp only [Session.step, Result.bind_eq_ok, Result.pure_def, Result.ok.injEq] at hstep
    obtain ⟨_, -, rfl⟩ := hstep
    exact ⟨⟨hc.queues, hc.unmarked⟩, Or.inl ⟨rfl, rfl⟩⟩
  | clientRecv update =>
    simp only [Session.step, Result.bind_eq_ok, Result.pure_def, Result.ok.injEq] at hstep
    obtain ⟨_, -, rfl⟩ := hstep
    exact ⟨⟨hc.queues, hc.unmarked⟩, Or.inl ⟨rfl, rfl⟩⟩
  | serverPoll ready progress datagram =>
    simp only [Session.step, Result.bind_eq_ok, Result.pure_def, Result.ok.injEq] at hstep
    obtain ⟨r', hpoll, rfl⟩ := hstep
    obtain ⟨hunmarked, k, htx, hcase⟩ := Receiver.poll_queue hpoll hc.unmarked
    have hq' : Server.Queues { s.server with receiver := r' }
        (n + ((s.server.receiver.tick ready).toNat + k)) := by
      unfold Server.Queues at hq ⊢
      simp only [htx, hq, List.append_assoc, List.replicate_append_replicate]
    refine ⟨⟨⟨_, hq'⟩, hunmarked⟩, ?_⟩
    simp only [Session.statuses, hq'.count, hq.count, Session.ticks]
    rcases hcase with ⟨hsame, rfl⟩ | ⟨hz, rfl⟩
    · exact Or.inl ⟨by rw [hsame], by omega⟩
    · exact Or.inr ⟨hz, by omega⟩
  | senderStart =>
    simp only [Session.step, Result.bind_eq_ok, Result.pure_def, Result.ok.injEq] at hstep
    obtain ⟨server, hserver, rfl⟩ := hstep
    rcases Server.startSend_queue hq hs.receiver.valid (by rw [hs.receiver.numBits]; exact h64) with
      ⟨-, hidle⟩ | ⟨hsending, hbitmap, htaken⟩ | ⟨hsending, hbitmap, k, rfl, htaken⟩
    · rw [hidle, Result.ok.injEq] at hserver
      exact hserver ▸ ⟨hc, Or.inl ⟨rfl, rfl⟩⟩
    · rw [htaken, Result.ok.injEq] at hserver
      subst hserver
      refine ⟨⟨⟨n, rfl⟩, hc.unmarked⟩, Or.inl ⟨rfl, ?_⟩⟩
      simp [Session.statuses, hq.count, Session.ticks]
    · rw [htaken, Result.ok.injEq] at hserver
      subst hserver
      refine ⟨⟨⟨k, by simp [Server.Queues, hbitmap]⟩, hc.unmarked⟩, Or.inl ⟨rfl, ?_⟩⟩
      simp [Session.statuses, hq.count, Session.ticks, hsending]
      omega
  | senderComplete =>
    simp only [Session.step, Server.pollComplete, Result.pure_def, Result.ok.injEq] at hstep
    subst hstep
    by_cases hsend : s.server.sender.sending = true
    · simp only [if_pos hsend]
      refine ⟨⟨⟨n, hq⟩, hc.unmarked⟩, Or.inl ⟨trivial, ?_⟩⟩
      simp [Session.statuses, hsend, Session.ticks]
    · simp only [if_neg hsend]
      exact ⟨hc, Or.inl ⟨trivial, rfl⟩⟩

theorem reachable_channel (h64 : file.length < u64Size) (h0 : Session.start file disk = .ok s₀)
    (hr : Reachable Session.Step s₀ s) :
    ∃ info, indexFieldSize file.length = .ok info ∧ Geometry file.length info ∧
      SessionInv info file s ∧ s.ChannelInv := by
  obtain ⟨info, hinfo, g⟩ := indexFieldSize_spec h64
  refine ⟨info, hinfo, g, ?_⟩
  apply hr.invariant ⟨start_inv g h64 hinfo h0, (start_channel h0).1⟩
  rintro t a u ⟨ht, hc⟩ hstep
  exact ⟨ht.step g h64 hstep, (hc.step ht (numChunks_lt_u64 g) hstep).1⟩

theorem run_statuses (h64 : file.length < u64Size) (h0 : Session.start file disk = .ok s₀)
    {l : List (Transition Session Event)} (hr : Run Session.Step s₀ l s) :
    s.server.receiver.bitmap.zeroes ≤ s₀.server.receiver.bitmap.zeroes ∧
      s.statuses = 1 + l.countP (fun r => r.source.ticks r.label) +
        dues s.server.receiver.bitmap.zeroes s₀.server.receiver.bitmap.zeroes := by
  induction hr with
  | nil => exact ⟨le_refl _, by rw [(start_channel h0).2, dues_self]; rfl⟩
  | @snoc l t a u hl ht ih =>
    obtain ⟨hle, ih⟩ := ih
    obtain ⟨info, -, g, hs, hc⟩ := reachable_channel h64 h0 ⟨l, hl⟩
    rw [List.countP_append, List.countP_singleton]
    rcases (hc.step hs (numChunks_lt_u64 g) ht).2 with ⟨hz, hn⟩ | ⟨hz, hn⟩
    · refine ⟨by omega, ?_⟩
      rw [hn, ih, hz]
      cases t.ticks a <;> simp
      omega
    · refine ⟨by omega, ?_⟩
      have hlt : u.server.receiver.bitmap.zeroes < s₀.server.receiver.bitmap.zeroes := by omega
      rw [hn, ih, dues_succ hlt, hz]
      cases t.ticks a <;> simp <;> omega

/-- In each run, the updates that were asked for are the first one, one for each tick of the timer, and
one for each power of two, and for zero, that the number of missing chunks came down to. -/
theorem status_updates_counted (h64 : file.length < u64Size)
    (h0 : Session.start file disk = .ok s₀) {l : List (Transition Session Event)}
    (hr : Run Session.Step s₀ l s) :
    s.statuses = 1 + l.countP (fun r => r.source.ticks r.label) +
        dues s.server.receiver.bitmap.zeroes s₀.server.receiver.bitmap.zeroes ∧
      s.statuses ≤ 2 + l.countP (fun r => r.source.ticks r.label) +
        Nat.clog 2 s₀.server.receiver.bitmap.zeroes := by
  obtain ⟨-, hcount⟩ := run_statuses h64 h0 hr
  refine ⟨hcount, ?_⟩
  have hle := dues_le s.server.receiver.bitmap.zeroes s₀.server.receiver.bitmap.zeroes
  omega

omit [Varint] in
/-- One byte in one chunk: the first update, and the one that says that nothing is missing. -/
theorem status_updates_counted_one_byte :
    letI := leb128
    ∃ s₀ l s, Session.start [7] { bitmap := none, file := none } = .ok s₀ ∧
      Run Session.Step s₀ l s ∧
      s.statuses = 1 + l.countP (fun r => r.source.ticks r.label) + dues 0 1 := by
  let _ := leb128
  let run : Result (Nat × Session) := do
    let s₀ ← Session.start [7] { bitmap := none, file := none }
    let s ← replay Session.tryStep s₀ [.senderStart, .senderStart, .senderComplete,
      .clientRecv [0, 1], .clientSent, .serverPoll false 0 (some [0, 7]), .serverPoll false 1 none]
    return (s₀.server.receiver.bitmap.zeroes, s)
  have hrun : (run >>= fun r => .ok (r.1, r.2.server.receiver.bitmap.zeroes)) = .ok (1, 0) := by
    decide +kernel
  obtain ⟨_, hboth, hend⟩ := Result.bind_eq_ok.mp hrun
  obtain ⟨s₀, h0, hrest⟩ := Result.bind_eq_ok.mp hboth
  obtain ⟨s, hreplay, hpair⟩ := Result.bind_eq_ok.mp hrest
  obtain rfl := Result.ok.inj hpair
  have hr : Reachable Session.Step s₀ s :=
    replay_reachable (fun _ _ _ => Session.step_of_tryStep) hreplay
  obtain ⟨l, hl⟩ := hr
  have hcount := (status_updates_counted (by decide) h0 hl).1
  simp only [Result.ok.injEq, Prod.mk.injEq] at hend
  rw [hend.1, hend.2] at hcount
  exact ⟨s₀, l, s, h0, hl, hcount⟩

/-! ## No panics -/

omit [Varint] in
theorem Client.next_total (g : Geometry file.length info) (h64 : file.length < u64Size) {c : Client}
    (hc : ClientInv info file c) : ∃ c', c.next = .ok c' := by
  unfold next
  rw [hc.info_eq, hc.file_eq]
  cases hf : Ranges.firstFrom c.missing.missing c.missing.cursor with
  | none => exact ⟨_, by rw [doChunk_none (MissingRanges.nextChunk_none hf)]; rfl⟩
  | some i =>
    obtain ⟨pre, r, post, hr, -, hlt, rfl⟩ := Ranges.firstFrom_eq_some hf
    have hrange := hc.missing r (by rw [hr]; simp)
    have hn := numChunks_lt_u64 g
    exact ⟨_, by
      rw [doChunk_some g h64 (MissingRanges.nextChunk_some hf (by omega)) (by omega)]; rfl⟩

theorem Client.recv_total (g : Geometry file.length info) (h64 : file.length < u64Size) {c : Client}
    (hc : ClientInv info file c) {m : BitMap} (hm : m.numBits = info.numChunks) {update : Bytes}
    (hu : IsStatus m update) : ∃ c' ds, c.recv update = .ok (c', ds) := by
  have hn := numChunks_lt_u64 g
  obtain ⟨full, missing, hparse, -, hmiss⟩ := hu.parse (by omega)
  obtain ⟨fin, hfin, -⟩ := Chunk.new_empty info.numChunks g.width_pos
    (by have := g.width_le; omega)
  have hnew : ClientInv info file { c with missing } :=
    ⟨hc.file_eq, hc.info_eq, by rw [← hm]; exact hmiss, hc.sending⟩
  obtain ⟨next, hnext⟩ := next_total g h64 hnew
  unfold recv
  cases hs : c.state with
  | finished => exact ⟨c, [], rfl⟩
  | sending d => cases full <;> simp [hparse, hfin, hc.info_eq]
  | waiting =>
    simp only [hs] at hnext
    cases full <;> simp [hparse, hfin, hc.info_eq] at hnext ⊢
    simp [hnext]

omit [Varint] in
theorem chunkIndex_wire {i : Nat} (data : Bytes) (hi : i < 256 ^ info.indexFieldSize)
    (hw : info.indexFieldSize ≤ mtu) : chunkIndex info (Chunk.wire info.indexFieldSize i data) = i := by
  rw [chunkIndex, Chunk.wire, List.take_take, Nat.min_eq_left hw,
    List.take_append_of_le_length (by simp), List.take_of_length_le (by simp),
    ofLeBytes_leBytes _ _ hi]

omit [Varint] in
theorem readable_of_sent (g : Geometry file.length info) {d : Bytes}
    (hd : IsData info file d ∨ d = finDatagram info) : Readable info d := by
  have hfits := g.index_fits
  have hw : info.indexFieldSize ≤ mtu := by
    have := g.width_le
    rw [mtu]
    omega
  rcases hd with ⟨i, hi, rfl⟩ | rfl
  · rw [Readable, chunkDatagram, chunkIndex_wire _ (by omega) hw, List.length_take, Chunk.wire_length]
    omega
  · rw [Readable, finDatagram, chunkIndex_wire _ hfits hw, List.length_take, Chunk.wire_length]
    omega

omit [Varint] in
theorem ReceiverInv.sound {r : Receiver} (h : ReceiverInv info file r) : r.Sound info := by
  refine ⟨h.valid, h.numBits, ?_⟩
  have hstate := h.state
  cases hs : r.state with
  | Invalid => simp [hs, StateOk] at hstate
  | WaitForAck w => simp [hs, StateOk] at hstate
  | WaitForChunk w => simpa [hs, StateOk, Receiver.Serving] using hstate
  | Shutdown => simp [Receiver.Serving]
  | WritingChunk w =>
    simp only [hs, StateOk] at hstate
    obtain ⟨hinfo, i, hi, hchunk⟩ := hstate
    refine ⟨hinfo, by rw [hchunk]; exact hi, ?_⟩
    simp only [hchunk, chunkDatagram, Chunk.wire_length]
    omega

theorem SessionInv.total (g : Geometry file.length info) (h64 : file.length < u64Size)
    (hs : SessionInv info file s) (hc : s.ChannelInv) (he : s.Delivered e) :
    ∃ s', Session.Step s e s' := by
  suffices h : ∃ s', s.step e = .ok s' from h.imp fun _ hs' => ⟨he, hs'⟩
  cases e with
  | clientSent =>
    unfold Session.step Client.sent
    obtain ⟨c, hnext⟩ := Client.next_total g h64 hs.client
    cases s.client.state <;> simp [hnext]
  | clientRecv update =>
    obtain ⟨c, ds, hrecv⟩ := Client.recv_total g h64 hs.client hs.receiver.numBits
      (hs.toClient update he)
    exact ⟨_, by rw [Session.step, hrecv]; rfl⟩
  | serverPoll ready progress datagram =>
    have hd : Receiver.Addressed info s.server.receiver ⟨ready, progress, datagram⟩ := by
      intro d hd _
      apply readable_of_sent g
      exact (hs.delivered he d hd).imp_right fun h => h.1
    obtain ⟨r, hpoll, -⟩ := Receiver.polled_addressed g h64 hs.receiver.sound hd
    rw [Receiver.polled] at hpoll
    exact ⟨_, by rw [Session.step, hpoll]; rfl⟩
  | senderStart =>
    obtain ⟨n, hq⟩ := hc.queues
    unfold Session.step
    rcases Server.startSend_queue hq hs.receiver.valid
        (by rw [hs.receiver.numBits]; exact numChunks_lt_u64 g) with
      ⟨-, hserver⟩ | ⟨-, -, hserver⟩ | ⟨-, -, _, -, hserver⟩
    all_goals exact ⟨_, by rw [hserver]; rfl⟩
  | senderComplete => exact ⟨_, rfl⟩

end Runs

end DasProtokoll.Csync
