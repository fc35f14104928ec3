import DasProtokoll.Lib.Strategy
import DasProtokoll.Csync.Channel

/-!
# Each upload can be completed

Wherever a session stands, the datagrams that were sent and the tasks of the two
nodes are enough to bring it to its end. The timer may ask for updates or not.
-/

namespace DasProtokoll.Csync

open DasProtokoll BitteEinBit

namespace Session

variable [Varint]

/-- The scheduler picks the event, and the timer answers. -/
def Play (s : Session) (e : Event) (ready : Bool) (s' : Session) : Prop :=
  Step s (e.withReady ready) s'

/-- The client is done, and the server has removed the bitmap file. -/
structure Completed (s : Session) : Prop where
  finished : s.client.state = .finished
  shutdown : s.server.receiver.state = .Shutdown
  removed : s.server.receiver.bitmapExists = false
  full : Full s.server.receiver.bitmap

end Session

/-! ## The client's answers -/

section Client

variable [Varint] {file : Bytes} {info : ChunkInfo} {c : Client}

theorem Client.recv_full (g : Geometry file.length info) (hc : ClientInv info file c)
    (hfin : c.state ≠ .finished) {update : Bytes} {missing : MissingRanges}
    (hparse : MissingRanges.parseStatusUpdate (update.take mtu) = .ok (true, missing)) :
    c.recv update = .ok ({ c with missing, state := .finished }, [finDatagram info]) := by
  obtain ⟨fin, hnew, hbuf⟩ := Chunk.new_empty info.numChunks g.width_pos
    (by have := g.width_le; omega)
  unfold recv
  cases hs : c.state with
  | finished => exact absurd hs hfin
  | _ => simp [hparse, hc.info_eq, hnew, hbuf, finDatagram]

theorem Client.recv_more (hfin : c.state ≠ .finished) {update : Bytes} {missing : MissingRanges}
    (hparse : MissingRanges.parseStatusUpdate (update.take mtu) = .ok (false, missing)) {c' : Client}
    {ds : List Bytes} (h : c.recv update = .ok (c', ds)) :
    ds = [] ∧ ((∃ d, c.state = .sending d ∧ c' = { c with missing }) ∨
      Client.next { c with missing } = .ok c') := by
  unfold recv at h
  cases hs : c.state with
  | finished => exact absurd hs hfin
  | sending d =>
    simp only [hs, hparse, Result.bind_ok, Bool.false_eq_true, if_false, Result.pure_def,
      Result.ok.injEq, Prod.mk.injEq] at h
    obtain ⟨rfl, rfl⟩ := h
    exact ⟨rfl, Or.inl ⟨d, rfl, rfl⟩⟩
  | waiting =>
    simp only [hs, hparse, Result.bind_ok, Bool.false_eq_true, if_false, Result.bind_eq_ok,
      Result.pure_def, Result.ok.injEq, Prod.mk.injEq] at h
    obtain ⟨next, hnext, rfl, rfl⟩ := h
    exact ⟨rfl, Or.inr hnext⟩

end Client

theorem parse_statusOf [Varint] {m : BitMap} (hm : m.Valid) (h64 : m.numBits < u64Size) :
    MissingRanges.parseStatusUpdate ((statusOf m).take mtu) =
      .ok ((rangesOf mtu m.toBools).missing.isEmpty, rangesOf mtu m.toBools) := by
  obtain ⟨written, out, hwrite, -, htake⟩ :=
    writeRunlengthEncoded_spec hm.fits h64 (List.replicate mtu 0)
  have hparse := parse_sent_status hm.fits h64 hwrite
  have hlen := written_status_length hm.fits h64 hwrite
  rw [List.length_replicate] at htake hparse hlen
  rw [htake] at hparse hlen
  rw [statusOf, List.take_of_length_le hlen, hparse]

theorem mem_rangesOf_fits [Varint] {m : BitMap} (hfits : Varint.lenAll (runs m.toBools) ≤ mtu) {i : Nat} :
    i ∈ Ranges.members (rangesOf mtu m.toBools).missing ↔ i < m.numBits ∧ m.bit i = false := by
  rw [mem_rangesOf, sentRuns_of_fits hfits, runs_sum, BitMap.toBools_length]

theorem toBools_of_zeroes {m : BitMap} (hm : m.Valid) (hz : m.zeroes = 0) :
    m.toBools = List.replicate m.numBits true := by
  have hall := hm.all_iff.mp (by simp [BitMap.all, hz])
  apply List.eq_replicate_iff.mpr
  refine ⟨BitMap.toBools_length m, ?_⟩
  simpa [BitMap.toBools] using hall

theorem full_iff_zeroes {m : BitMap} (hm : m.Valid) : Full m ↔ m.zeroes = 0 := by
  rw [Full, ← hm.all_iff, BitMap.all, beq_iff_eq]

/-! ## What holds wherever a session stands -/

/-- The update about a full bitmap. -/
def fullStatus [Varint] (n : Nat) : Bytes := Varint.writeAll (sentRuns mtu (List.replicate n true))

theorem statusOf_full [Varint] {m : BitMap} (hm : m.Valid) (hz : m.zeroes = 0) :
    statusOf m = fullStatus m.numBits := by
  rw [statusOf, fullStatus, toBools_of_zeroes hm hz]

section Invariant

variable [Varint] {file : Bytes} {info : ChunkInfo} {m₀ : BitMap} {disk : Disk} {s s' : Session}
  {e : Event}

/-- The client waits for the first update, and nothing has happened to the bitmap. -/
structure Untouched (m₀ : BitMap) (s : Session) : Prop where
  toClient : s.toClient = []
  toServer : s.toServer = []
  client : s.client.state = .waiting
  bitmap : s.server.receiver.bitmap = m₀
  state : ∃ w, s.server.receiver.state = .WaitForChunk w
  vec : s.server.sender.sending = true → s.server.sender.vec = statusOf m₀

/-- An update is on its way. -/
def Session.Sends (s : Session) (update : Bytes) : Prop :=
  update ∈ s.toClient ∨ (s.server.sender.sending = true ∧ s.server.sender.vec = update)

structure Lively (file : Bytes) (info : ChunkInfo) (m₀ : BitMap) (s : Session) : Prop where
  session : SessionInv info file s
  channel : s.ChannelInv
  asked : 1 ≤ s.statuses
  extends_start : Extends m₀ s.server.receiver.bitmap
  /-- The first update is about the bitmap at the start. -/
  first : Untouched m₀ s ∨ statusOf m₀ ∈ s.toClient
  /-- That nothing is missing was told the client, or it will be. -/
  last : s.server.receiver.bitmap.zeroes = 0 →
    s.Sends (fullStatus info.numChunks) ∨ 0 < s.server.receiver.tx.count .UploadStatus
  fin : s.client.state = .finished → finDatagram info ∈ s.toServer
  removed : s.server.receiver.state = .Shutdown → s.server.receiver.bitmapExists = false

theorem start_lively (g : Geometry file.length info) (h64 : file.length < u64Size)
    (hinfo : indexFieldSize file.length = .ok info) (h : Session.start file disk = .ok s) :
    Lively file info s.server.receiver.bitmap s := by
  obtain ⟨hc, hstatuses⟩ := start_channel h
  have hs := start_inv g h64 hinfo h
  simp only [Session.start, Client.start, Server.new, hinfo, Result.bind_ok, Result.bind_eq_ok,
    Result.pure_def, Result.ok.injEq] at h
  obtain ⟨client, hclient, _, ⟨receiver, hreceiver, rfl⟩, rfl⟩ := h
  have hwaiting : client.state = .waiting := by
    rw [Client.next, doChunk_none (MissingRanges.nextChunk_none rfl)] at hclient
    rw [← Result.ok.inj hclient]
  obtain ⟨hstate, -, -, hexists, -, htx, -⟩ := Receiver.new_ok hinfo hreceiver
  exact {
    session := hs
    channel := hc
    asked := by omega
    extends_start := Extends.refl _
    first := Or.inl ⟨rfl, rfl, hwaiting, rfl, ⟨_, hstate⟩, by simp⟩
    last := fun _ => Or.inr (by simp [htx])
    fin := by simp [hwaiting]
    removed := by simp [hstate] }

omit [Varint] in
theorem Receiver.poll_removed (g : Geometry file.length info) {r r' : Receiver}
    (hr : ReceiverInv info file r) {ready : Bool} {progress : Nat} {datagram : Option Bytes}
    (hd : ∀ d ∈ datagram, IsData info file d ∨ d = finDatagram info ∧ Full r.bitmap)
    (hremoved : r.state = .Shutdown → r.bitmapExists = false)
    (h : r.poll ready progress datagram = .ok r') (hs : r'.state = .Shutdown) :
    r'.bitmapExists = false := by
  have hall := poll_induct (P := fun q => (ReceiverInv info file q ∧ Extends r.bitmap q.bitmap ∧
    q.bitmap.numBits = r.bitmap.numBits) ∧ (q.state = .Shutdown → q.bitmapExists = false)) h
    ⟨⟨hr, Extends.refl _, rfl⟩, hremoved⟩
  refine (hall ?_ ?_ ?_).2 hs
  · rintro q ⟨⟨hq, hext⟩, hrem⟩
    obtain ⟨tx, htx⟩ := pollCongestion_eq q ready
    rw [htx]
    exact ⟨⟨⟨hq.valid, hq.numBits, hq.state, hq.removed⟩, hext⟩, hrem⟩
  · rintro q done q' ⟨⟨hq, hext, hnum⟩, hrem⟩ hw
    obtain ⟨hq', hext', hnum'⟩ := pollWrite_inv hq hw
    refine ⟨⟨hq', hext.trans hext', hnum'.trans hnum⟩, ?_⟩
    rcases pollWrite_cases hw with ⟨-, rfl, -⟩ | ⟨w, data, content, handle, -, -, -, hcase⟩
    · exact hrem
    · rcases hcase with ⟨-, -, rfl⟩ | ⟨-, -, old, bitmap, tx, -, rfl⟩ <;> simp
  · rintro q q' ⟨⟨hq, hext, hnum⟩, hrem⟩ hrecv
    have hd' : ∀ d ∈ datagram, IsData info file d ∨ d = finDatagram info ∧ Full q.bitmap :=
      fun d hmem => (hd d hmem).imp_right fun hfin => ⟨hfin.1, hfin.2.extends hext hnum⟩
    obtain ⟨hq', hbit⟩ := pollRecv_inv g hq hd' hrecv
    rw [hbit]
    refine ⟨⟨hq', hext, hnum⟩, ?_⟩
    rcases pollRecv_honest g hq hd' hrecv with rfl | ⟨w, i, -, -, rfl⟩ | ⟨hfull, rfl⟩
    · exact hrem
    · simp
    · simp [BitMap.all, (full_iff_zeroes hq.valid).mp hfull]

theorem Untouched.recv (hu : Untouched m₀ s) {update : Bytes} : ¬ s.Delivered (.clientRecv update) := by
  simp [hu.toClient]

theorem Untouched.poll (hu : Untouched m₀ s) {ready : Bool} {progress : Nat} {datagram : Option Bytes}
    (hd : s.Delivered (.serverPoll ready progress datagram)) {r : Receiver}
    (h : s.server.receiver.poll ready progress datagram = .ok r) :
    Untouched m₀ { s with server := { s.server with receiver := r } } := by
  obtain ⟨w, hs⟩ := hu.state
  cases datagram with
  | some d => simp [hu.toServer] at hd
  | none =>
    rw [Receiver.poll_waiting hs, Result.ok.injEq] at h
    obtain ⟨tx, htx⟩ := Receiver.pollCongestion_eq s.server.receiver ready
    rw [htx] at h
    subst h
    exact ⟨hu.toClient, hu.toServer, hu.client, hu.bitmap, ⟨w, hs⟩, hu.vec⟩

theorem Lively.step (g : Geometry file.length info) (h64 : file.length < u64Size)
    (hl : Lively file info m₀ s) (h : Session.Step s e s') : Lively file info m₀ s' := by
  have hn := numChunks_lt_u64 g
  have hs' := hl.session.step g h64 h
  obtain ⟨hc', hcount⟩ := hl.channel.step hl.session hn h
  have hasked : 1 ≤ s'.statuses := by
    have := hl.asked
    rcases hcount with ⟨-, hcount⟩ | ⟨-, hcount⟩ <;> omega
  obtain ⟨n, hq⟩ := hl.channel.queues
  obtain ⟨hd, hstep⟩ := h
  cases e with
  | clientSent =>
    simp only [Session.step, Result.bind_eq_ok, Result.pure_def, Result.ok.injEq] at hstep
    obtain ⟨⟨client, ds⟩, hsent, rfl⟩ := hstep
    obtain ⟨-, -, hfin⟩ := Client.sent_inv g h64 hl.session.client hsent
    refine ⟨hs', hc', hasked, hl.extends_start, ?_, hl.last, fun hf => ?_, hl.removed⟩
    · rcases hl.first with hu | hfirst
      · simp only [Client.sent, hu.client, Result.pure_def, Result.ok.injEq, Prod.mk.injEq] at hsent
        obtain ⟨rfl, rfl⟩ := hsent
        exact Or.inl ⟨hu.toClient, hu.toServer, hu.client, hu.bitmap, hu.state, hu.vec⟩
      · exact Or.inr hfirst
    · exact List.mem_append_right _ (hl.fin (hfin hf))
  | clientRecv update =>
    simp only [Session.step, Result.bind_eq_ok, Result.pure_def, Result.ok.injEq] at hstep
    obtain ⟨⟨client, ds⟩, hrecv, rfl⟩ := hstep
    refine ⟨hs', hc', hasked, hl.extends_start, ?_, hl.last, fun hf => ?_, hl.removed⟩
    · exact hl.first.elim (fun hu => absurd hd hu.recv) Or.inr
    · by_cases hfin : s.client.state = .finished
      · exact List.mem_append_right _ (hl.fin hfin)
      obtain ⟨full, missing, hparse, -, hmiss⟩ :=
        (hl.session.toClient update hd).parse (by rw [hl.session.receiver.numBits]; exact hn)
      rw [hl.session.receiver.numBits] at hmiss
      have hnew : ClientInv info file { s.client with missing } :=
        ⟨hl.session.client.file_eq, hl.session.client.info_eq, hmiss, hl.session.client.sending⟩
      cases full with
      | true =>
        rw [Client.recv_full g hl.session.client hfin hparse, Result.ok.injEq,
          Prod.mk.injEq] at hrecv
        simp [← hrecv.2]
      | false =>
        obtain ⟨-, ⟨d, hsending, rfl⟩ | hnext⟩ := Client.recv_more hfin hparse hrecv
        · exact absurd hf hfin
        · exact absurd hf (Client.next_inv g h64 hnew hnext).2
  | serverPoll ready progress datagram =>
    simp only [Session.step, Result.bind_eq_ok, Result.pure_def, Result.ok.injEq] at hstep
    obtain ⟨r, hpoll, rfl⟩ := hstep
    obtain ⟨-, hext, -⟩ := Receiver.poll_inv g hl.session.receiver (hl.session.delivered hd) hpoll
    refine ⟨hs', hc', hasked, hl.extends_start.trans hext, ?_, fun hz => ?_, hl.fin, ?_⟩
    · exact hl.first.imp_left fun hu => hu.poll hd hpoll
    · obtain ⟨-, k, htx, hcase⟩ := Receiver.poll_queue hpoll hl.channel.unmarked
      rcases hcase with ⟨hsame, -⟩ | ⟨-, hk⟩
      · rw [hsame] at hz
        rcases hl.last hz with hsends | hcount
        · exact Or.inl hsends
        · right
          rw [htx, List.count_append]
          omega
      · right
        have hdue : k = 1 := by rw [hk, hz]; rfl
        rw [htx, List.count_append, List.count_replicate_self]
        omega
    · exact Receiver.poll_removed g hl.session.receiver (hl.session.delivered hd) hl.removed hpoll
  | senderStart =>
    simp only [Session.step, Result.bind_eq_ok, Result.pure_def, Result.ok.injEq] at hstep
    obtain ⟨server, hserver, rfl⟩ := hstep
    have hv := hl.session.receiver.valid
    rcases Server.startSend_queue hq hv (by rw [hl.session.receiver.numBits]; exact hn) with
      ⟨-, hidle⟩ | ⟨hsending, hbitmap, htaken⟩ | ⟨hsending, hbitmap, k, rfl, htaken⟩
    · rw [hidle, Result.ok.injEq] at hserver
      exact hserver ▸ hl
    · rw [htaken, Result.ok.injEq] at hserver
      subst hserver
      refine ⟨hs', hc', hasked, hl.extends_start, ?_, fun hz => ?_, hl.fin, hl.removed⟩
      · exact hl.first.imp_left fun hu =>
          ⟨hu.toClient, hu.toServer, hu.client, hu.bitmap, hu.state, hu.vec⟩
      · exact (hl.last hz).imp_right fun hcount => by simpa [hq.count] using hcount
    · rw [htaken, Result.ok.injEq] at hserver
      subst hserver
      refine ⟨hs', hc', hasked, hl.extends_start, ?_, fun hz => ?_, hl.fin, hl.removed⟩
      · exact hl.first.imp_left fun hu => ⟨hu.toClient, hu.toServer, hu.client, hu.bitmap, hu.state,
          fun _ => by rw [hu.bitmap]⟩
      · refine Or.inl (Or.inr ⟨rfl, ?_⟩)
        rw [← hl.session.receiver.numBits]
        exact statusOf_full hv hz
  | senderComplete =>
    simp only [Session.step, Server.pollComplete, Result.pure_def, Result.ok.injEq] at hstep
    by_cases hsend : s.server.sender.sending = true
    · simp only [if_pos hsend] at hstep
      subst hstep
      refine ⟨hs', hc', hasked, hl.extends_start, Or.inr ?_, fun hz => ?_, hl.fin, hl.removed⟩
      · rcases hl.first with hu | hfirst
        · simp [hu.vec hsend]
        · exact List.mem_append_right _ hfirst
      · refine (hl.last hz).imp_left ?_
        rintro (hmem | ⟨-, hvec⟩)
        · exact Or.inl (List.mem_append_right _ hmem)
        · exact Or.inl (by simp [hvec])
    · simp only [if_neg hsend, List.nil_append] at hstep
      exact hstep ▸ hl

/-! ## Moves -/

theorem Lively.play (g : Geometry file.length info) (h64 : file.length < u64Size)
    (hl : Lively file info m₀ s) {goal : Session → Prop} (e : Event) (he : s.Delivered e)
    (h : ∀ ready t, s.step (e.withReady ready) = .ok t → Lively file info m₀ t →
      Forces Session.Play goal t) : Forces Session.Play goal s := by
  apply Forces.play e
  · intro ready
    exact hl.session.total g h64 hl.channel (Session.delivered_withReady.mpr he)
  · intro ready t ht
    exact h ready t ht.2 (hl.step g h64 ht)

/-- Only the sender has moved. -/
structure SenderMoved (s t : Session) : Prop where
  client : t.client = s.client
  toServer : t.toServer = s.toServer
  bitmap : t.server.receiver.bitmap = s.server.receiver.bitmap
  toClient : ∀ d ∈ s.toClient, d ∈ t.toClient

omit [Varint] in
theorem SenderMoved.trans {t u : Session} (h : SenderMoved s t) (h' : SenderMoved t u) :
    SenderMoved s u :=
  ⟨h'.client.trans h.client, h'.toServer.trans h.toServer, h'.bitmap.trans h.bitmap,
    fun d hd => h'.toClient d (h.toClient d hd)⟩

omit [Varint] in
theorem SenderMoved.refl (s : Session) : SenderMoved s s := ⟨rfl, rfl, rfl, fun _ h => h⟩

theorem Lively.flush (g : Geometry file.length info) (h64 : file.length < u64Size)
    (hl : Lively file info m₀ s) : Forces Session.Play (fun t => Lively file info m₀ t ∧
      SenderMoved s t ∧ t.server.sender.sending = false ∧ t.server.receiver.tx = s.server.receiver.tx ∧
      ∀ update, s.Sends update → update ∈ t.toClient) s := by
  cases hsending : s.server.sender.sending with
  | false =>
    refine .done ⟨hl, .refl s, hsending, rfl, ?_⟩
    rintro update (hmem | ⟨htrue, -⟩)
    · exact hmem
    · rw [hsending] at htrue
      cases htrue
  | true =>
    apply hl.play g h64 .senderComplete trivial
    intro ready t ht hl'
    simp only [Event.withReady, Session.step, Server.pollComplete, hsending, if_true,
      Result.pure_def, Result.ok.injEq] at ht
    subst ht
    refine .done ⟨hl', ⟨rfl, rfl, rfl, fun d hd => List.mem_append_right _ hd⟩, rfl, rfl, ?_⟩
    rintro update (hmem | ⟨-, rfl⟩)
    · exact List.mem_append_right _ hmem
    · simp

theorem Lively.pump (g : Geometry file.length info) (h64 : file.length < u64Size)
    (hl : Lively file info m₀ s) (hcount : 0 < s.server.receiver.tx.count .UploadStatus) :
    Forces Session.Play (fun t => Lively file info m₀ t ∧ SenderMoved s t ∧
      statusOf s.server.receiver.bitmap ∈ t.toClient) s := by
  have hn := numChunks_lt_u64 g
  have hnum (u : Session) (hu : Lively file info m₀ u) :
      u.server.receiver.bitmap.numBits < u64Size := by
    rw [hu.session.receiver.numBits]
    exact hn
  -- From a sender that has the bitmap, and does not send.
  have hready (u : Session) (hu : Lively file info m₀ u) (hmoved : SenderMoved s u)
      (hsending : u.server.sender.sending = false) (hbitmap : u.server.sender.bitmap = true)
      (hpos : 0 < u.server.receiver.tx.count .UploadStatus) :
      Forces Session.Play (fun t => Lively file info m₀ t ∧ SenderMoved s t ∧
        statusOf s.server.receiver.bitmap ∈ t.toClient) u := by
    apply hu.play g h64 .senderStart trivial
    intro ready t ht hl'
    obtain ⟨n, hq⟩ := hu.channel.queues
    rw [hq.count] at hpos
    rcases Server.startSend_queue hq hu.session.receiver.valid (hnum u hu) with
      ⟨hno, -⟩ | ⟨-, hno, -⟩ | ⟨-, -, k, -, htaken⟩
    · rcases hno with hno | ⟨rfl, -⟩
      · rw [hsending] at hno
        cases hno
      · omega
    · rw [hbitmap] at hno
      cases hno
    · simp only [Event.withReady, Session.step, htaken, Result.bind_ok, Result.pure_def,
        Result.ok.injEq] at ht
      subst ht
      apply (hl'.flush g h64).mono
      rintro v ⟨hv, hmoved', -, -, hsends⟩
      refine ⟨hv, ⟨hmoved'.client.trans hmoved.client, hmoved'.toServer.trans hmoved.toServer,
        hmoved'.bitmap.trans hmoved.bitmap, fun d hd => hmoved'.toClient d (hmoved.toClient d hd)⟩,
        hsends _ ?_⟩
      exact Or.inr ⟨rfl, by rw [hmoved.bitmap]⟩
  apply (hl.flush g h64).trans
  rintro u ⟨hu, hmoved, hsending, htx, -⟩
  rw [← htx] at hcount
  cases hbitmap : u.server.sender.bitmap with
  | true => exact hready u hu hmoved hsending hbitmap hcount
  | false =>
    apply hu.play g h64 .senderStart trivial
    intro ready t ht hl'
    obtain ⟨n, hq⟩ := hu.channel.queues
    rcases Server.startSend_queue hq hu.session.receiver.valid (hnum u hu) with
      ⟨hno, -⟩ | ⟨-, -, htaken⟩ | ⟨-, hno, -⟩
    · rcases hno with hno | ⟨-, hno⟩
      · rw [hsending] at hno
        cases hno
      · rw [hbitmap] at hno
        cases hno
    · simp only [Event.withReady, Session.step, htaken, Result.bind_ok, Result.pure_def,
        Result.ok.injEq] at ht
      subst ht
      refine hready _ hl' ⟨hmoved.client, hmoved.toServer, hmoved.bitmap, hmoved.toClient⟩ hsending rfl ?_
      rw [hq.count] at hcount
      simpa using hcount
    · rw [hbitmap] at hno
      cases hno

theorem Lively.first_update (g : Geometry file.length info) (h64 : file.length < u64Size)
    (hl : Lively file info m₀ s) : Forces Session.Play (fun t => Lively file info m₀ t ∧
      t.server.receiver.bitmap = s.server.receiver.bitmap ∧ statusOf m₀ ∈ t.toClient) s := by
  rcases hl.first with hu | hfirst
  · cases hsending : s.server.sender.sending with
    | true =>
      apply (hl.flush g h64).mono
      rintro t ⟨ht, hmoved, -, -, hsends⟩
      exact ⟨ht, hmoved.bitmap, hsends _ (Or.inr ⟨hsending, hu.vec hsending⟩)⟩
    | false =>
      have hcount : 0 < s.server.receiver.tx.count .UploadStatus := by
        have := hl.asked
        simpa [Session.statuses, hu.toClient, hsending] using this
      apply (hl.pump g h64 hcount).mono
      rintro t ⟨ht, hmoved, hmem⟩
      exact ⟨ht, hmoved.bitmap, by rw [← hu.bitmap]; exact hmem⟩
  · exact .done ⟨hl, rfl, hfirst⟩

theorem Lively.last_update (g : Geometry file.length info) (h64 : file.length < u64Size)
    (hl : Lively file info m₀ s) (hz : s.server.receiver.bitmap.zeroes = 0) :
    Forces Session.Play (fun t => Lively file info m₀ t ∧ t.server.receiver.bitmap.zeroes = 0 ∧
      fullStatus info.numChunks ∈ t.toClient) s := by
  have hfull := statusOf_full hl.session.receiver.valid hz
  rw [hl.session.receiver.numBits] at hfull
  rcases hl.last hz with hsends | hcount
  · apply (hl.flush g h64).mono
    rintro t ⟨ht, hmoved, -, -, hall⟩
    exact ⟨ht, by rw [hmoved.bitmap]; exact hz, hall _ hsends⟩
  · apply (hl.pump g h64 hcount).mono
    rintro t ⟨ht, hmoved, hmem⟩
    exact ⟨ht, by rw [hmoved.bitmap]; exact hz, hfull ▸ hmem⟩

/-! ## The client sends what was missing at the start -/

/-- The chunks before the cursor that were missing are in the network, up to the one that is being sent. -/
structure Sweeping (file : Bytes) (info : ChunkInfo) (m₀ : BitMap) (s : Session) : Prop where
  missing : s.client.missing.missing = (rangesOf mtu m₀.toBools).missing
  sent : ∀ i ∈ Ranges.members s.client.missing.missing, i < s.client.missing.cursor →
    chunkDatagram info file i ∈ s.toServer ∨ s.client.state = .sending (chunkDatagram info file i)
  waiting : s.client.state = .waiting →
    Ranges.firstFrom s.client.missing.missing s.client.missing.cursor = none
  unfinished : s.client.state ≠ .finished

/-- All chunks that were missing are in the network. -/
def Offered (file : Bytes) (info : ChunkInfo) (m₀ : BitMap) (s : Session) : Prop :=
  ∀ i < info.numChunks, m₀.bit i = false → chunkDatagram info file i ∈ s.toServer

omit [Varint] in
theorem Client.next_cases (g : Geometry file.length info) (h64 : file.length < u64Size) {c c' : Client}
    (hc : ClientInv info file c) (h : c.next = .ok c') :
    (Ranges.firstFrom c.missing.missing c.missing.cursor = none ∧
      c' = { c with state := .waiting }) ∨
    ∃ i, Ranges.firstFrom c.missing.missing c.missing.cursor = some i ∧
      c' = { c with
        missing := { c.missing with cursor := i + 1 }
        state := .sending (chunkDatagram info file i) } := by
  unfold next at h
  rw [hc.info_eq, hc.file_eq] at h
  cases hf : Ranges.firstFrom c.missing.missing c.missing.cursor with
  | none =>
    rw [doChunk_none (MissingRanges.nextChunk_none hf)] at h
    simp only [Result.bind_ok, Result.pure_def, Result.ok.injEq] at h
    exact Or.inl ⟨rfl, by rw [← h, hc.file_eq, hc.info_eq]⟩
  | some i =>
    obtain ⟨pre, r, post, hr, -, hlt, rfl⟩ := Ranges.firstFrom_eq_some hf
    have hrange := hc.missing r (by rw [hr]; simp)
    have hn := numChunks_lt_u64 g
    rw [doChunk_some g h64 (MissingRanges.nextChunk_some hf (by omega)) (by omega)] at h
    simp only [Result.bind_ok, Result.pure_def, Result.ok.injEq] at h
    exact Or.inr ⟨_, rfl, by rw [← h, hc.file_eq, hc.info_eq]⟩

theorem Sweeping.of_next (g : Geometry file.length info) (h64 : file.length < u64Size) {c c' : Client}
    (hc : ClientInv info file c) (hmissing : c.missing.missing = (rangesOf mtu m₀.toBools).missing)
    (hsent : ∀ i ∈ Ranges.members c.missing.missing, i < c.missing.cursor →
      chunkDatagram info file i ∈ s.toServer) (h : c.next = .ok c') (hs : s.client = c') :
    Sweeping file info m₀ s := by
  have hasc : Ranges.Ascending c.missing.missing := by
    rw [hmissing]
    exact rangesOf_ascending mtu m₀.toBools
  rcases c.next_cases g h64 hc h with ⟨hnone, rfl⟩ | ⟨i, hi, rfl⟩
  · exact ⟨by rw [hs]; exact hmissing, fun j hj hlt => by rw [hs] at hj hlt; exact Or.inl (hsent j hj hlt),
      fun _ => by rw [hs]; exact hnone, by simp [hs]⟩
  · refine ⟨by rw [hs]; exact hmissing, ?_, by simp [hs], by simp [hs]⟩
    intro j hj hlt
    simp only [hs] at hj hlt ⊢
    rcases Nat.lt_or_ge j c.missing.cursor with hbefore | hge
    · exact Or.inl (hsent j hj hbefore)
    · have hle := (hasc.firstFrom_least hi).2.2 j hj hge
      obtain rfl : j = i := by omega
      exact Or.inr rfl

theorem Sweeping.offered (hw : Sweeping file info m₀ s) (hwaiting : s.client.state = .waiting)
    (hfits : Varint.lenAll (runs m₀.toBools) ≤ mtu) (hnum : m₀.numBits = info.numChunks) :
    Offered file info m₀ s := by
  intro i hi hbit
  have hmem : i ∈ Ranges.members s.client.missing.missing := by
    rw [hw.missing]
    exact (mem_rangesOf_fits hfits).mpr ⟨by omega, hbit⟩
  have hlt : i < s.client.missing.cursor := by
    by_contra hge
    have hempty := Ranges.membersFrom_eq_empty (hw.waiting hwaiting)
    have hin : i ∈ Ranges.membersFrom s.client.missing.missing s.client.missing.cursor :=
      ⟨hmem, by omega⟩
    rw [hempty] at hin
    exact hin
  rcases hw.sent i hmem hlt with hsent | hsending
  · exact hsent
  · rw [hwaiting] at hsending
    cases hsending

theorem Lively.sweep (g : Geometry file.length info) (h64 : file.length < u64Size)
    (hfits : Varint.lenAll (runs m₀.toBools) ≤ mtu) (hnum : m₀.numBits = info.numChunks)
    (hl : Lively file info m₀ s) (hw : Sweeping file info m₀ s) :
    Forces Session.Play (fun t => Lively file info m₀ t ∧ Offered file info m₀ t) s := by
  apply Forces.of_progress (I := fun t => Lively file info m₀ t ∧ Sweeping file info m₀ t)
    (fun t => ((Ranges.members t.client.missing.missing).filter
      (t.client.missing.cursor ≤ ·)).length) ?_ ⟨hl, hw⟩
  rintro s ⟨hl, hw⟩
  cases hstate : s.client.state with
  | finished => exact absurd hstate hw.unfinished
  | waiting => exact .done (Or.inl ⟨hl, hw.offered hstate hfits hnum⟩)
  | sending d =>
    apply hl.play g h64 .clientSent trivial
    intro ready t ht hl'
    simp only [Event.withReady, Session.step, Client.sent, hstate, Result.bind_eq_ok, Result.pure_def,
      Result.ok.injEq] at ht
    obtain ⟨_, ⟨c', hnext, rfl⟩, rfl⟩ := ht
    have hsweeping : Sweeping file info m₀ { s with client := c', toServer := [d] ++ s.toServer } := by
      apply Sweeping.of_next g h64 hl.session.client hw.missing ?_ hnext rfl
      intro i hi hlt
      rcases hw.sent i hi hlt with hsent | hsending
      · simp [hsent]
      · rw [hstate, ClientState.sending.injEq] at hsending
        simp [hsending]
    rcases s.client.next_cases g h64 hl.session.client hnext with ⟨-, rfl⟩ | ⟨i, hi, rfl⟩
    · exact .done (Or.inl ⟨hl', hsweeping.offered rfl hfits hnum⟩)
    · refine .done (Or.inr ⟨⟨hl', hsweeping⟩, ?_⟩)
      have hasc : Ranges.Ascending s.client.missing.missing := by
        rw [hw.missing]
        exact rangesOf_ascending mtu m₀.toBools
      rw [hasc.filter_of_some hi]
      simp

theorem Lively.offers (g : Geometry file.length info) (h64 : file.length < u64Size)
    (hfits : Varint.lenAll (runs m₀.toBools) ≤ mtu) (hm₀ : m₀.Valid) (hnum : m₀.numBits = info.numChunks)
    (hl : Lively file info m₀ s) (hz : s.server.receiver.bitmap.zeroes ≠ 0) :
    Forces Session.Play (fun t => Lively file info m₀ t ∧ Offered file info m₀ t) s := by
  apply (hl.first_update g h64).trans
  rintro u ⟨hu, hbitmap, hmem⟩
  rw [← hbitmap] at hz
  have hnotfull : ¬ Full u.server.receiver.bitmap := by
    rw [full_iff_zeroes hu.session.receiver.valid]
    exact hz
  have hunfinished : u.client.state ≠ .finished := fun hfin => hnotfull (hu.session.finished hfin)
  have hn := numChunks_lt_u64 g
  have hparse := parse_statusOf hm₀ (by omega)
  have hmore : (rangesOf mtu m₀.toBools).missing.isEmpty = false := by
    rw [Bool.eq_false_iff, ne_eq, rangesOf_isEmpty]
    intro hfull
    exact hnotfull (Full.extends hfull hu.extends_start
      (by rw [hu.session.receiver.numBits, hnum]))
  rw [hmore] at hparse
  apply hu.play g h64 (.clientRecv (statusOf m₀)) hmem
  intro ready t ht hl'
  simp only [Event.withReady, Session.step, Result.bind_eq_ok, Result.pure_def, Result.ok.injEq] at ht
  obtain ⟨⟨c', ds⟩, hrecv, rfl⟩ := ht
  apply hl'.sweep g h64 hfits hnum
  obtain ⟨rfl, ⟨d, hstate, rfl⟩ | hnext⟩ := Client.recv_more hunfinished hparse hrecv
  · refine ⟨rfl, fun i _ hlt => absurd hlt (by simp [rangesOf]), fun hwaiting => ?_, hunfinished⟩
    rw [hstate] at hwaiting
    cases hwaiting
  · have hmiss : ∀ r ∈ (rangesOf mtu m₀.toBools).missing, r.1 < r.2 ∧ r.2 ≤ info.numChunks := by
      have hparsed := (hu.session.toClient _ hmem).parse (by rw [hu.session.receiver.numBits]; exact hn)
      obtain ⟨full, missing, hsame, -, hall⟩ := hparsed
      rw [hparse, Result.ok.injEq, Prod.mk.injEq] at hsame
      rw [hu.session.receiver.numBits] at hall
      rw [← hsame.2] at hall
      exact hall
    have hnew : ClientInv info file { u.client with missing := rangesOf mtu m₀.toBools } :=
      ⟨hu.session.client.file_eq, hu.session.client.info_eq, hmiss, hu.session.client.sending⟩
    exact Sweeping.of_next g h64 hnew rfl (fun i _ hlt => absurd hlt (by simp [rangesOf])) hnext rfl

/-! ## The server takes the chunks -/

theorem Lively.writes (g : Geometry file.length info) (h64 : file.length < u64Size)
    (hl : Lively file info m₀ s) (ho : Offered file info m₀ s) {w : WritingChunk}
    (hs : s.server.receiver.state = .WritingChunk w) :
    Forces Session.Play (fun t => (Lively file info m₀ t ∧ Offered file info m₀ t) ∧
      t.server.receiver.bitmap.zeroes < s.server.receiver.bitmap.zeroes) s := by
  apply hl.play g h64 (.serverPoll false w.rest.length none) trivial
  intro ready t ht hl'
  simp only [Event.withReady, Session.step, Result.bind_eq_ok, Result.pure_def, Result.ok.injEq] at ht
  obtain ⟨r, hpoll, rfl⟩ := ht
  refine .done ⟨⟨hl', ho⟩, ?_⟩
  have htakes : s.server.receiver.Takes w.rest.length := by simp [Receiver.Takes, hs]
  obtain ⟨q, state, -, -, hmarked, hnone, -⟩ :=
    Receiver.poll_taken hl.session.receiver.sound htakes ready
  rw [hpoll, Result.ok.injEq] at hnone
  subst hnone
  have hset := (hmarked w.chunk.index).mpr (Or.inr ⟨w, hs, rfl⟩)
  obtain ⟨-, k, -, ⟨hsame, -⟩ | ⟨hless, -⟩⟩ := Receiver.poll_queue hpoll hl.channel.unmarked
  · rw [hsame, hl.channel.unmarked w hs] at hset
    cases hset
  · simp only
    omega

theorem Lively.fill (g : Geometry file.length info) (h64 : file.length < u64Size)
    (hl : Lively file info m₀ s) (ho : Offered file info m₀ s) :
    Forces Session.Play (fun t => Lively file info m₀ t ∧ t.server.receiver.bitmap.zeroes = 0) s := by
  apply Forces.of_progress (I := fun t => Lively file info m₀ t ∧ Offered file info m₀ t)
    (fun t => t.server.receiver.bitmap.zeroes) ?_ ⟨hl, ho⟩
  rintro s ⟨hl, ho⟩
  by_cases hz : s.server.receiver.bitmap.zeroes = 0
  · exact .done (Or.inl ⟨hl, hz⟩)
  have hvalid := hl.session.receiver.valid
  have hnum := hl.session.receiver.numBits
  have hnotfull : ¬ Full s.server.receiver.bitmap := by
    rw [full_iff_zeroes hvalid]
    exact hz
  have hstate := hl.session.receiver.state
  cases hs : s.server.receiver.state with
  | Invalid => simp [hs, StateOk] at hstate
  | WaitForAck w => simp [hs, StateOk] at hstate
  | Shutdown => exact absurd (by simpa [hs, StateOk] using hstate) hnotfull
  | WritingChunk w => exact (hl.writes g h64 ho hs).mono fun t ht => Or.inr ht
  | WaitForChunk w =>
    obtain ⟨i, hi, hbit⟩ : ∃ i < info.numChunks, s.server.receiver.bitmap.bit i = false := by
      unfold Full at hnotfull
      push Not at hnotfull
      obtain ⟨i, hi, hbit⟩ := hnotfull
      exact ⟨i, by omega, by simpa using hbit⟩
    have hbit₀ : m₀.bit i = false := by
      rw [Bool.eq_false_iff]
      intro htrue
      rw [hl.extends_start i htrue] at hbit
      cases hbit
    apply hl.play g h64 (.serverPoll false 0 (some (chunkDatagram info file i))) (ho i hi hbit₀)
    intro ready t ht hl'
    simp only [Event.withReady, Session.step, Result.bind_eq_ok, Result.pure_def, Result.ok.injEq] at ht
    obtain ⟨r, hpoll, rfl⟩ := ht
    have hless : r.bitmap.zeroes ≤ s.server.receiver.bitmap.zeroes := by
      obtain ⟨-, k, -, ⟨hsame, -⟩ | ⟨hless, -⟩⟩ := Receiver.poll_queue hpoll hl.channel.unmarked
      · rw [hsame]
      · omega
    have htakes : s.server.receiver.Takes 0 := by simp [Receiver.Takes, hs]
    obtain ⟨q, state, hsound, hwait, hmarked, -, htaken⟩ :=
      Receiver.poll_taken hl.session.receiver.sound htakes ready
    have hq : q.bitmap.bit i = false := by
      rw [Bool.eq_false_iff, ne_eq, hmarked i]
      rintro (htrue | ⟨w', hw', -⟩)
      · rw [htrue] at hbit
        cases hbit
      · rw [hs] at hw'
        cases hw'
    have hfits := g.index_fits
    have hwidth : info.indexFieldSize ≤ mtu := by
      have := g.width_le
      rw [mtu]
      omega
    have hindex : chunkIndex info (chunkDatagram info file i) = i :=
      chunkIndex_wire _ (by omega) hwidth
    have hreadable := readable_of_sent g (Or.inl ⟨i, hi, rfl⟩ : IsData info file _ ∨ _)
    rw [htaken, Receiver.pollRecv_new g hsound hwait h64 hreadable.1 (by rw [hindex]; exact hi)
      (by rw [hindex]; exact hq), Result.ok.injEq] at hpoll
    apply (hl'.writes g h64 ho (by rw [← hpoll])).mono
    rintro u ⟨hu, hlt⟩
    exact Or.inr ⟨hu, lt_of_lt_of_le hlt hless⟩

/-! ## The end -/

theorem Lively.finishes (g : Geometry file.length info) (h64 : file.length < u64Size)
    (hl : Lively file info m₀ s) (hz : s.server.receiver.bitmap.zeroes = 0) :
    Forces Session.Play (fun t => Lively file info m₀ t ∧ t.server.receiver.bitmap.zeroes = 0 ∧
      t.client.state = .finished) s := by
  apply (hl.last_update g h64 hz).trans
  rintro u ⟨hu, hz, hmem⟩
  by_cases hfin : u.client.state = .finished
  · exact .done ⟨hu, hz, hfin⟩
  have hn := numChunks_lt_u64 g
  have hvalid := hu.session.receiver.valid
  have hnum := hu.session.receiver.numBits
  have hparse := parse_statusOf hvalid (by omega)
  have hempty : (rangesOf mtu u.server.receiver.bitmap.toBools).missing.isEmpty = true :=
    rangesOf_isEmpty.mpr ((full_iff_zeroes hvalid).mpr hz)
  rw [statusOf_full hvalid hz, hnum, hempty] at hparse
  apply hu.play g h64 (.clientRecv (fullStatus info.numChunks)) hmem
  intro ready t ht hl'
  simp only [Event.withReady, Session.step, Client.recv_full g hu.session.client hfin hparse,
    Result.bind_ok, Result.pure_def, Result.ok.injEq] at ht
  subst ht
  exact .done ⟨hl', hz, rfl⟩

theorem Lively.completes (g : Geometry file.length info) (h64 : file.length < u64Size)
    (hl : Lively file info m₀ s) (hz : s.server.receiver.bitmap.zeroes = 0)
    (hfin : s.client.state = .finished) : Forces Session.Play Session.Completed s := by
  have hfull := (full_iff_zeroes hl.session.receiver.valid).mpr hz
  have hstate := hl.session.receiver.state
  cases hs : s.server.receiver.state with
  | Invalid => simp [hs, StateOk] at hstate
  | WaitForAck w => simp [hs, StateOk] at hstate
  | Shutdown => exact .done ⟨hfin, hs, hl.removed hs, hfull⟩
  | WritingChunk w =>
    have hbit := hl.channel.unmarked w hs
    simp only [hs, StateOk] at hstate
    obtain ⟨-, i, hi, hchunk⟩ := hstate
    rw [hfull _ (by rw [hchunk, hl.session.receiver.numBits]; exact hi)] at hbit
    cases hbit
  | WaitForChunk w =>
    apply hl.play g h64 (.serverPoll false 0 (some (finDatagram info))) (hl.fin hfin)
    intro ready t ht hl'
    simp only [Event.withReady, Session.step, Result.bind_eq_ok, Result.pure_def, Result.ok.injEq] at ht
    obtain ⟨r, hpoll, rfl⟩ := ht
    have htakes : s.server.receiver.Takes 0 := by simp [Receiver.Takes, hs]
    obtain ⟨q, state, hsound, hwait, hmarked, -, htaken⟩ :=
      Receiver.poll_taken hl.session.receiver.sound htakes ready
    have hreadable : Readable info (finDatagram info) := @readable_of_sent file info g _ (Or.inr rfl)
    have hwidth : info.indexFieldSize ≤ mtu := by
      have := g.width_le
      rw [mtu]
      omega
    have hindex : chunkIndex info (finDatagram info) = info.numChunks :=
      chunkIndex_wire _ g.index_fits hwidth
    rw [htaken, Receiver.pollRecv_fin g hsound hwait hreadable.1 hindex, Result.ok.injEq] at hpoll
    have hshut : r.state = .Shutdown := by rw [← hpoll]
    have hshut' := hl'.session.receiver.state
    simp only [hshut, StateOk] at hshut'
    exact .done ⟨hfin, hshut, hl'.removed hshut, hshut'⟩

theorem Lively.forces_completed (g : Geometry file.length info) (h64 : file.length < u64Size)
    (hl : Lively file info m₀ s) (hvalid : m₀.Valid) (hnum : m₀.numBits = info.numChunks)
    (hfits : Varint.lenAll (runs m₀.toBools) ≤ mtu) : Forces Session.Play Session.Completed s := by
  have hfill : Forces Session.Play (fun t => Lively file info m₀ t ∧
      t.server.receiver.bitmap.zeroes = 0) s := by
    by_cases hz : s.server.receiver.bitmap.zeroes = 0
    · exact .done ⟨hl, hz⟩
    · apply (hl.offers g h64 hfits hvalid hnum hz).trans
      rintro t ⟨ht, ho⟩
      exact ht.fill g h64 ho
  apply hfill.trans
  rintro t ⟨ht, hz⟩
  apply (ht.finishes g h64 hz).trans
  rintro u ⟨hu, hz, hfin⟩
  exact hu.completes g h64 hz hfin

end Invariant

theorem reachable_lively [Varint] {file : Bytes} (h64 : file.length < u64Size) {disk : Disk} {s₀ s : Session}
    (h0 : Session.start file disk = .ok s₀) (hr : Reachable Session.Step s₀ s) :
    ∃ info, Geometry file.length info ∧ SessionInv info file s₀ ∧
      Lively file info s₀.server.receiver.bitmap s := by
  obtain ⟨info, hinfo, g⟩ := indexFieldSize_spec h64
  have h0' := start_lively g h64 hinfo h0
  exact ⟨info, g, h0'.session, hr.invariant h0' fun _ _ _ ht hstep => ht.step g h64 hstep⟩

end DasProtokoll.Csync
