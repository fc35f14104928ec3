import DasProtokoll.Csync.Completion
import DasProtokoll.Csync.PacedReceiver

/-!
# Sessions in time

The updates that the timer asks for depend on the chunks that came in before, and
a chunk that comes too early after the others stops the server.
-/

namespace DasProtokoll.Csync

open DasProtokoll BitteEinBit

structure PacedSession extends Pace where
  session : Session
  now : Nat
  deriving Repr, DecidableEq

namespace PacedSession

/-- The login arrives once. -/
def start (file : Bytes) (disk : Disk) (now : Nat) : Result PacedSession := do
  let session ← Session.start file disk
  let pace ← Pace.start now
  return { pace with session, now }

variable [Varint] (numPackets : Nat → Nat)

/-- The flag of a poll says that the timer has fired. Whether an update is due is for the congestion
control to say. -/
def next (s : PacedSession) (e : Event) (now : Nat) : Result PacedSession := do
  Result.assert (s.now ≤ now)
  match e with
  | .serverPoll fired progress datagram => do
    let (ready, pace) ← s.toPace.poll numPackets s.session.server.receiver fired progress datagram now
    let session ← s.session.step (.serverPoll ready progress datagram)
    return { pace with session, now }
  | e => do
    let session ← s.session.step e
    return { s with session, now }

def Step (s : PacedSession) (e : Event × Nat) (s' : PacedSession) : Prop :=
  s.session.Delivered e.1 ∧ s.next numPackets e.1 e.2 = .ok s'

/-- The step reads a chunk from the socket. -/
def takesChunk (s : PacedSession) : Event → Bool
  | .serverPoll _ progress datagram => s.session.server.receiver.taken progress datagram == .chunk
  | _ => false

end PacedSession

/-! ## The delay -/

/-- After `k` chunks, the first of which starts a clock and the second of which starts the delay. -/
structure CongestionInfo.Started (k : Nat) (c : CongestionInfo) : Prop where
  lastIpt : k = 0 → c.lastIpt = none
  delay : k ≤ 1 → c.delay = none

namespace CongestionInfo

variable {numPackets : Nat → Nat} {c c' : CongestionInfo} {k now : Nat}

theorem Started.poll (h : c.Started k) (done fired : Bool) (now : Nat) :
    (c.poll numPackets done fired now).2.Started k ∧
      (k ≤ 1 → (c.poll numPackets done fired now).1 = false) := by
  unfold CongestionInfo.poll
  split
  · exact ⟨h, fun _ => rfl⟩
  split
  · exact ⟨h, fun _ => rfl⟩
  rename_i hdelay
  have hk : ¬ k ≤ 1 := fun hk => hdelay (by simp [h.delay hk])
  split
  · exact ⟨⟨h.lastIpt, fun hle => absurd hle hk⟩, fun hle => absurd hle hk⟩
  · exact ⟨h, fun _ => rfl⟩

theorem Started.nextPacket (h : c.Started k) (hn : c.nextPacket numPackets now = .ok c') :
    c'.Started (k + 1) := by
  refine ⟨fun hk => by omega, fun hk => ?_⟩
  obtain rfl : k = 0 := by omega
  rw [CongestionInfo.nextPacket, iptPacket, h.lastIpt rfl] at hn
  simp only [Result.pure_def, Result.bind_ok, Result.ok.injEq] at hn
  rw [← hn]
  exact h.delay (by omega)

theorem poll_rtt (done fired : Bool) : (c.poll numPackets done fired now).2.rtt = c.rtt := by
  obtain ⟨_, _, _, h⟩ := poll_eq numPackets c done fired now
  rw [h]

end CongestionInfo

/-! ## Steps -/

namespace PacedSession

variable [Varint] {numPackets : Nat → Nat} {s s' p p₀ : PacedSession} {e : Event} {now : Nat}
  {file : Bytes} {info : ChunkInfo} {disk : Disk}

theorem step_cases (hs : SessionInv info file s.session) (h : Step numPackets s (e, now) s') :
    ∃ done fired, Session.Step s.session (e.withReady (s.congestion.poll numPackets done fired now).1)
        s'.session ∧ s'.trips = s.trips ∧
      if s.takesChunk e then
        (s.congestion.poll numPackets done fired now).2.nextPacket numPackets now = .ok s'.congestion
      else s'.congestion = (s.congestion.poll numPackets done fired now).2 := by
  obtain ⟨hd, h⟩ := h
  obtain ⟨_, -, h⟩ := Result.bind_eq_ok.mp h
  cases e with
  | serverPoll fired progress datagram =>
    simp only [Result.bind_eq_ok, Result.pure_def, Result.ok.injEq] at h
    obtain ⟨⟨ready, pace⟩, hpace, session, hsession, rfl⟩ := h
    obtain ⟨rfl, htrips, hcongestion⟩ := Pace.poll_ok hs.receiver.sound hpace
    refine ⟨s.session.server.receiver.congestionDone, fired,
      ⟨Session.delivered_withReady.mpr hd, hsession⟩, htrips, ?_⟩
    simpa only [takesChunk, beq_iff_eq] using hcongestion
  | _ =>
    simp only [Result.bind_eq_ok, Result.pure_def, Result.ok.injEq] at h
    obtain ⟨session, hsession, rfl⟩ := h
    exact ⟨true, false, ⟨hd, hsession⟩, rfl, rfl⟩

theorem next_now (h : s.next numPackets e now = .ok s') : s.now ≤ now ∧ s'.now = now := by
  obtain ⟨_, hle, h⟩ := Result.bind_eq_ok.mp h
  refine ⟨Result.assert_eq_ok.mp hle, ?_⟩
  cases e <;> simp only [Result.bind_eq_ok, Result.pure_def, Result.ok.injEq] at h
  case serverPoll =>
    obtain ⟨_, -, _, -, rfl⟩ := h
    rfl
  all_goals
    obtain ⟨_, -, rfl⟩ := h
    rfl

/-- What the session invariants and the congestion control say together, after `k` chunks. -/
structure Inv (file : Bytes) (info : ChunkInfo) (k : Nat) (s : PacedSession) : Prop where
  session : SessionInv info file s.session
  channel : s.session.ChannelInv
  started : s.congestion.Started k
  clock : s.congestion.Clocked s.now

theorem Inv.step (g : Geometry file.length info) (h64 : file.length < u64Size) {k : Nat}
    (hi : Inv file info k s) (h : Step numPackets s (e, now) s') :
    Inv file info (k + (s.takesChunk e).toNat) s' ∧ s'.trips = s.trips ∧
      s'.congestion.rtt = s.congestion.rtt ∧
      ∃ ready, Session.Step s.session (e.withReady ready) s'.session ∧ (k ≤ 1 → ready = false) := by
  obtain ⟨done, fired, hstep, htrips, hcongestion⟩ := step_cases hi.session h
  obtain ⟨hstarted, hready⟩ : (s.congestion.poll numPackets done fired now).2.Started k ∧
      (k ≤ 1 → (s.congestion.poll numPackets done fired now).1 = false) := hi.started.poll done fired now
  have hs' := hi.session.step g h64 hstep
  have hc' := (hi.channel.step hi.session (numChunks_lt_u64 g) hstep).1
  have hrtt : (s.congestion.poll numPackets done fired now).2.rtt = s.congestion.rtt :=
    CongestionInfo.poll_rtt done fired
  obtain ⟨hle, hnow⟩ := next_now h.2
  have hclock := (hi.clock.mono hle).poll numPackets done fired now
  cases htakes : s.takesChunk e with
  | false =>
    rw [htakes, if_neg (by simp)] at hcongestion
    rw [← hcongestion] at hstarted hrtt hclock
    exact ⟨⟨hs', hc', hstarted, hnow ▸ hclock⟩, htrips, hrtt, _, hstep, hready⟩
  | true =>
    rw [htakes, if_pos rfl] at hcongestion
    refine ⟨⟨hs', hc', hstarted.nextPacket hcongestion, hnow ▸ hclock.nextPacket hcongestion⟩, htrips,
      ?_, _, hstep, hready⟩
    rw [CongestionInfo.nextPacket_rtt hcongestion, hrtt]

theorem start_inv (g : Geometry file.length info) (h64 : file.length < u64Size)
    (hinfo : indexFieldSize file.length = .ok info) (h : start file disk now = .ok p) :
    Inv file info 0 p ∧ p.session.statuses = 1 ∧ p.congestion = .new now ∧
      p.trips = { start := some now, rtts := [] } ∧ Session.start file disk = .ok p.session := by
  simp only [start, Pace.start, CongestionInfo.startRtt, RoundTrips.new, Result.bind_eq_ok,
    Result.assert_eq_ok, Result.pure_def, Result.ok.injEq] at h
  obtain ⟨session, h0, _, ⟨_, ⟨_, -, rfl⟩, rfl⟩, rfl⟩ := h
  obtain ⟨hc, hstatuses⟩ := start_channel h0
  exact ⟨⟨Csync.start_inv g h64 hinfo h0, hc, ⟨fun _ => rfl, fun _ => rfl⟩, .new now⟩, hstatuses, rfl, rfl, h0⟩

/-- The client sleeps until its first update, and nothing is in the network for the server. -/
structure Asleep (zeroes : Nat) (s : Session) : Prop where
  toServer : s.toServer = []
  client : s.client.state = .waiting
  state : ∃ w, s.server.receiver.state = .WaitForChunk w
  bitmap : s.server.receiver.bitmap.zeroes = zeroes

theorem Asleep.step {zeroes : Nat} {s s' : Session} (ha : Asleep zeroes s)
    (hrecv : ∀ update, e ≠ .clientRecv update) (hc : s.ChannelInv) (hs : SessionInv info file s)
    (h : Session.Step s e s') : Asleep zeroes s' := by
  obtain ⟨hd, hstep⟩ := h
  cases e with
  | clientSent =>
    simp only [Session.step, Client.sent, ha.client, Result.pure_def, Result.bind_ok,
      Result.ok.injEq] at hstep
    exact hstep ▸ ⟨ha.toServer, ha.client, ha.state, ha.bitmap⟩
  | clientRecv update => exact absurd rfl (hrecv update)
  | serverPoll ready progress datagram =>
    cases datagram with
    | some d => simp [ha.toServer] at hd
    | none =>
      obtain ⟨w, hw⟩ := ha.state
      obtain ⟨tx, htx⟩ := Receiver.pollCongestion_eq s.server.receiver ready
      simp only [Session.step, Receiver.poll_waiting hw, htx, Result.bind_ok, Result.pure_def,
        Result.ok.injEq] at hstep
      exact hstep ▸ ⟨ha.toServer, ha.client, ⟨w, hw⟩, ha.bitmap⟩
  | senderStart =>
    obtain ⟨n, hq⟩ := hc.queues
    simp only [Session.step, Result.bind_eq_ok, Result.pure_def, Result.ok.injEq] at hstep
    obtain ⟨server, hserver, rfl⟩ := hstep
    obtain ⟨tx, hreceiver, -⟩ := Server.startSend_cases hs.receiver.valid hserver
    exact ⟨ha.toServer, ha.client, by rw [hreceiver]; exact ha.state, by rw [hreceiver]; exact ha.bitmap⟩
  | senderComplete =>
    simp only [Session.step, Server.pollComplete, Result.pure_def, Result.ok.injEq] at hstep
    split at hstep <;> exact hstep ▸ ⟨ha.toServer, ha.client, ha.state, ha.bitmap⟩

theorem run_session (h64 : file.length < u64Size) (h0 : start file disk now = .ok p₀)
    {l : List (Transition PacedSession (Event × Nat))} (hr : Run (Step numPackets) p₀ l p) :
    ∃ info, indexFieldSize file.length = .ok info ∧ Geometry file.length info ∧
      Inv file info (l.countP fun r => r.source.takesChunk r.label.1) p ∧
      ∃ m, Run Session.Step p₀.session m p.session ∧
        (l.countP (fun r => r.source.takesChunk r.label.1) ≤ 1 →
          m.countP (fun r => r.source.ticks r.label) = 0) := by
  obtain ⟨info, hinfo, g⟩ := indexFieldSize_spec h64
  refine ⟨info, hinfo, g, ?_⟩
  induction hr with
  | nil => exact ⟨(start_inv g h64 hinfo h0).1, [], .nil, fun _ => rfl⟩
  | @snoc l t a u hl ht ih =>
    obtain ⟨hi, m, hm, hticks⟩ := ih
    obtain ⟨hi', -, -, ready, hstep, hready⟩ := hi.step g h64 ht
    rw [List.countP_append, List.countP_singleton]
    refine ⟨?_, _, hm.snoc hstep, fun hk => ?_⟩
    · cases htakes : t.takesChunk a.1 <;> simpa [htakes] using hi'
    · have hk' : l.countP (fun r => r.source.takesChunk r.label.1) ≤ 1 := by omega
      rw [List.countP_append, List.countP_singleton, hticks hk', hready hk']
      have hno : t.session.ticks (a.1.withReady false) = false := by
        cases a.1 <;> simp [Event.withReady, Session.ticks, Receiver.tick]
      simp [hno]

omit [Varint] in
theorem asleep_start {s : Session} (h : Session.start file disk = .ok s) :
    Asleep s.server.receiver.bitmap.zeroes s := by
  simp only [Session.start, Client.start, Server.new, Result.bind_eq_ok, Result.pure_def,
    Result.ok.injEq] at h
  obtain ⟨client, ⟨info, hinfo, hclient⟩, _, ⟨receiver, hreceiver, rfl⟩, rfl⟩ := h
  rw [Client.next, doChunk_none (MissingRanges.nextChunk_none rfl)] at hclient
  obtain ⟨hstate, -⟩ := Receiver.new_ok hinfo hreceiver
  exact ⟨rfl, by rw [← Result.ok.inj hclient], ⟨_, hstate⟩, rfl⟩

theorem asleep_run (h64 : file.length < u64Size) (h0 : start file disk now = .ok p₀)
    {l : List (Transition PacedSession (Event × Nat))} (hr : Run (Step numPackets) p₀ l p)
    (hrecv : ∀ r ∈ l, ∀ update, r.label.1 ≠ .clientRecv update) :
    Asleep p₀.session.server.receiver.bitmap.zeroes p.session ∧
      l.countP (fun r => r.source.takesChunk r.label.1) = 0 := by
  obtain ⟨info₀, hinfo₀, g⟩ := indexFieldSize_spec h64
  induction hr with
  | nil =>
    obtain ⟨-, -, -, -, hsession⟩ := start_inv g h64 hinfo₀ h0
    exact ⟨asleep_start hsession, rfl⟩
  | @snoc l t a u hl ht ih =>
    obtain ⟨ha, hcount⟩ := ih fun r hr => hrecv r (by simp [hr])
    obtain ⟨info, -, g', hi, -⟩ := run_session h64 h0 hl
    obtain ⟨-, -, -, ready, hstep, -⟩ := hi.step g' h64 ht
    have hlast := hrecv ⟨t, a, u⟩ (by simp)
    refine ⟨ha.step ?_ hi.channel hi.session hstep, ?_⟩
    · intro update heq
      cases hevent : a.1 with
      | clientRecv update' => exact hlast update' hevent
      | _ => rw [hevent] at heq; cases heq
    · have hno : t.takesChunk a.1 = false := by
        have hd := ht.1
        cases hevent : a.1 with
        | serverPoll fired progress datagram =>
          rw [hevent] at hd
          cases datagram with
          | none => simp [takesChunk, Receiver.taken]
          | some d => simp [ha.toServer] at hd
        | _ => rfl
      rw [List.countP_append, List.countP_singleton, hcount, hno]
      rfl

/-- Before the second chunk comes in, the timer asks for nothing. So an upload whose first update does
not reach the client stands still: no other one is sent, and no chunk is. -/
theorem timer_needs_two_chunks (h64 : file.length < u64Size) (h0 : start file disk now = .ok p₀)
    {l : List (Transition PacedSession (Event × Nat))} (hr : Run (Step numPackets) p₀ l p) :
    (l.countP (fun r => r.source.takesChunk r.label.1) ≤ 1 →
      p.session.statuses = 1 + dues p.session.server.receiver.bitmap.zeroes
        p₀.session.server.receiver.bitmap.zeroes) ∧
    ((∀ r ∈ l, ∀ update, r.label.1 ≠ .clientRecv update) →
      p.session.toServer = [] ∧ p.session.client.state = .waiting ∧ p.session.statuses = 1) := by
  obtain ⟨info, hinfo, g, hi, m, hm, hticks⟩ := run_session h64 h0 hr
  obtain ⟨-, -, -, -, hsession⟩ := start_inv g h64 hinfo h0
  have hcount : l.countP (fun r => r.source.takesChunk r.label.1) ≤ 1 →
      p.session.statuses = 1 + dues p.session.server.receiver.bitmap.zeroes
        p₀.session.server.receiver.bitmap.zeroes := by
    intro hk
    obtain ⟨-, hstatuses⟩ := run_statuses h64 hsession hm
    rw [hstatuses, hticks hk]
  refine ⟨hcount, fun hrecv => ?_⟩
  obtain ⟨ha, hnone⟩ := asleep_run h64 h0 hr hrecv
  refine ⟨ha.toServer, ha.client, ?_⟩
  rw [hcount (by omega), ha.bitmap, dues_self]

omit [Varint] in
/-- The server of a one byte upload has sent the first update, which got lost. -/
theorem timer_needs_two_chunks_lost :
    letI := leb128
    ∃ p₀ p, start [7] { bitmap := none, file := none } 0 = .ok p₀ ∧
      Step (fun _ => 0) p₀ (.senderStart, 5) p ∧ p.session.statuses = 1 := by
  let _ := leb128
  let run : Result PacedSession := do
    let p ← start [7] { bitmap := none, file := none } 0
    p.next (fun _ => 0) .senderStart 5
  have hrun : (run >>= fun _ => .ok ()) = .ok () := by decide +kernel
  obtain ⟨p, hboth, -⟩ := Result.bind_eq_ok.mp hrun
  obtain ⟨p₀, h0, hnext⟩ := Result.bind_eq_ok.mp hboth
  have hstep : Step (fun _ => 0) p₀ (.senderStart, 5) p := ⟨trivial, hnext⟩
  have hlost := (timer_needs_two_chunks (by decide) h0 (Run.nil.snoc hstep)).2
  exact ⟨p₀, p, h0, hstep, (hlost (by simp)).2.2⟩

/-- The round trip that starts with the login is never measured: nothing is ever waited for as an
acknowledgement, so the delay is computed without it. -/
theorem round_trip_never_measured (h64 : file.length < u64Size) (h0 : start file disk now = .ok p₀)
    (hr : Reachable (Step numPackets) p₀ p) :
    p.trips = { start := some now, rtts := [] } ∧ p.congestion.rtt = 0 ∧
      (∀ w, p.session.server.receiver.state ≠ .WaitForAck w) ∧
      p.congestion.roundTrip p.trips = .panic := by
  obtain ⟨info, hinfo, g⟩ := indexFieldSize_spec h64
  obtain ⟨hi₀, -, hcongestion, htrips₀, -⟩ := start_inv g h64 hinfo h0
  have hall : (∃ k, Inv file info k p) ∧ p.trips = { start := some now, rtts := [] } ∧
      p.congestion.rtt = 0 := by
    apply hr.invariant (I := fun p => (∃ k, Inv file info k p) ∧
      p.trips = { start := some now, rtts := [] } ∧ p.congestion.rtt = 0)
      ⟨⟨0, hi₀⟩, htrips₀, by rw [hcongestion]; rfl⟩
    rintro t ⟨e, time⟩ u ⟨⟨k, hi⟩, htrips, hrtt⟩ hstep
    obtain ⟨hi', htrips', hrtt', -⟩ := hi.step g h64 hstep
    exact ⟨⟨_, hi'⟩, htrips'.trans htrips, hrtt'.trans hrtt⟩
  obtain ⟨⟨k, hi⟩, htrips, hrtt⟩ := hall
  refine ⟨htrips, hrtt, ?_, by rw [CongestionInfo.roundTrip, htrips]; rfl⟩
  intro w hs
  have hstate := hi.session.receiver.state
  simp [hs, StateOk] at hstate

omit [Varint] in
theorem round_trip_never_measured_start :
    letI := leb128
    ∃ p, start [7] { bitmap := none, file := none } 3 = .ok p ∧
      p.trips = { start := some 3, rtts := [] } ∧ p.congestion.roundTrip p.trips = .panic := by
  let _ := leb128
  have hrun : (start [7] { bitmap := none, file := none } 3 >>= fun _ => .ok ()) = .ok () := by
    decide +kernel
  obtain ⟨p, h0, -⟩ := Result.bind_eq_ok.mp hrun
  obtain ⟨htrips, -, -, hpanic⟩ :=
    round_trip_never_measured (by decide) h0 (.refl : Reachable (Step fun _ => 0) p p)
  exact ⟨p, h0, htrips, hpanic⟩

/-! ## What can stop a session -/

/-- The scheduler picks the event and how long it waits, and the timer answers. -/
def Play (numPackets : Nat → Nat) (s : PacedSession) (a : Event × Nat) (fired : Bool) (s' : PacedSession) :
    Prop :=
  Step numPackets s (a.1.withReady fired, s.now + a.2) s'

end PacedSession

end DasProtokoll.Csync
