import DasProtokoll.Csync.Congestion
import DasProtokoll.Csync.Datagrams

/-!
# The receiver with its congestion control

The receiver polls its congestion control before anything else, and it reports
each chunk to it before it looks at the bitmap. So a session depends on the times of
its datagrams, too.
-/

namespace DasProtokoll.Csync

open DasProtokoll BitteEinBit

/-! ## The timer -/

structure RoundTrips where
  start : Option Nat
  rtts : List Nat
  deriving Repr, DecidableEq

def RoundTrips.new : RoundTrips := { start := none, rtts := [] }

namespace CongestionInfo

def startRtt (t : RoundTrips) (now : Nat) : Result RoundTrips := do
  Result.assert (t.start = none)
  return { t with start := some now }

def stopRtt (c : CongestionInfo) (t : RoundTrips) (now : Nat) : Result (CongestionInfo × RoundTrips) := do
  let start ← Result.unwrap t.start
  let rtt := now - start
  return ({ c with rtt }, { start := none, rtts := t.rtts ++ [rtt] })

def roundTrip (c : CongestionInfo) (t : RoundTrips) : Result Nat := do
  Result.assert (t.rtts ≠ [])
  return c.rtt

variable (numPackets : Nat → Nat)

/-- `fired` tells whether the timer of the delay, if there is one, has come to its end. -/
def poll (c : CongestionInfo) (done fired : Bool) (now : Nat) : Bool × CongestionInfo :=
  if done then (false, c)
  else if c.delay.isNone then (false, c)
  else if fired || numPackets c.ipt ≤ c.packetsSinceLastNotify then
    (true, updateDelay numPackets { c with packetsSinceLastNotify := 0, lastNotify := now })
  else (false, c)

end CongestionInfo

/-! ## The receiver with it -/

inductive Taken where
  | nothing
  | ack
  | chunk
  deriving Repr, DecidableEq

/-- What a poll takes from the socket, once the chunk in work is written. -/
def Receiver.taken (r : Receiver) (progress : Nat) (datagram : Option Bytes) : Taken :=
  match r.pollWrite progress, datagram with
  | .ok (true, q), some d =>
    match q.state with
    | .WaitForAck _ => .ack
    | .WaitForChunk state =>
      match Chunk.decode (d.take mtu) state.chunkInfo.indexFieldSize with
      | .ok c => if c.index = state.chunkInfo.numChunks then .nothing else .chunk
      | _ => .nothing
    | _ => .nothing
  | _, _ => .nothing

/-- The congestion control of one receiver. -/
structure Pace where
  congestion : CongestionInfo
  trips : RoundTrips
  deriving Repr, DecidableEq

namespace Pace

def start (now : Nat) : Result Pace := do
  let trips ← CongestionInfo.startRtt .new now
  return { congestion := .new now, trips }

/-- Its part of a poll of the receiver, and whether the timer asks for an update. -/
def poll (numPackets : Nat → Nat) (p : Pace) (r : Receiver) (fired : Bool) (progress : Nat)
    (datagram : Option Bytes) (now : Nat) : Result (Bool × Pace) :=
  let (ready, congestion) := p.congestion.poll numPackets r.congestionDone fired now
  match r.taken progress datagram with
  | .nothing => return (ready, { p with congestion })
  | .ack => do
    let (congestion, trips) ← congestion.stopRtt p.trips now
    let _ ← congestion.roundTrip trips
    return (ready, { congestion, trips })
  | .chunk => do
    let congestion ← congestion.nextPacket numPackets now
    return (ready, { p with congestion })

end Pace

structure PacedReceiver extends Pace where
  receiver : Receiver
  now : Nat
  deriving Repr, DecidableEq

/-- A poll some time after the last one. Its flag says that the timer has fired. -/
structure TimedPoll extends Poll where
  wait : Nat
  deriving Repr, DecidableEq

namespace PacedReceiver

def start (receiver : Receiver) (now : Nat) : Result PacedReceiver := do
  let pace ← Pace.start now
  return { pace with receiver, now }

variable (numPackets : Nat → Nat)

def polled (s : PacedReceiver) (p : TimedPoll) : Result PacedReceiver := do
  let now := s.now + p.wait
  let (ready, pace) ← s.toPace.poll numPackets s.receiver p.ready p.progress p.datagram now
  let receiver ← s.receiver.poll ready p.progress p.datagram
  return { pace with receiver, now }

/-- The poll does not panic and leaves a state, and a datagram without a proper index changes
neither the bitmap nor the file. -/
def Tolerates (info : ChunkInfo) (s : PacedReceiver) (p : TimedPoll) : Prop :=
  ∃ s', s.polled numPackets p = .ok s' ∧ s'.receiver.state ≠ .Invalid ∧
    ∀ d ∈ p.datagram, ¬ Readable info d → ∀ t, s.polled numPackets { p with datagram := none } = .ok t →
      s'.receiver.bitmap = t.receiver.bitmap ∧ s'.receiver.file = t.receiver.file

/-- A datagram that is taken can be read, and if it is a chunk, the congestion control can take off the
share of its oldest entry. -/
def Addressed (info : ChunkInfo) (s : PacedReceiver) (p : TimedPoll) : Prop :=
  ∀ d ∈ p.datagram, s.receiver.Takes p.progress →
    Readable info d ∧ (chunkIndex info d < info.numChunks → s.congestion.Covered)

instance (info : ChunkInfo) (s : PacedReceiver) : DecidablePred (s.Addressed info) := fun p => by
  unfold Addressed
  infer_instance

end PacedReceiver

/-! ## The clock -/

namespace CongestionInfo

variable {numPackets : Nat → Nat} {c c' : CongestionInfo} {now later : Nat}

/-- The last chunk was not later, and without one there is no window. -/
structure Clocked (now : Nat) (c : CongestionInfo) : Prop where
  last : ∀ old ∈ c.lastIpt, old ≤ now
  window : c.lastIpt = none → c.ipts = []

theorem Clocked.new (start : Nat) : (new start).Clocked now := ⟨by simp [CongestionInfo.new], fun _ => rfl⟩

theorem Clocked.mono (h : c.Clocked now) (hle : now ≤ later) : c.Clocked later :=
  ⟨fun old hold => (h.last old hold).trans hle, h.window⟩

theorem poll_eq (numPackets : Nat → Nat) (c : CongestionInfo) (done fired : Bool) (now : Nat) :
    ∃ lastNotify packetsSinceLastNotify delay, (c.poll numPackets done fired now).2 =
      { c with lastNotify, packetsSinceLastNotify, delay } := by
  unfold poll
  split
  · exact ⟨_, _, _, rfl⟩
  split
  · exact ⟨_, _, _, rfl⟩
  split
  · exact ⟨_, _, _, rfl⟩
  · exact ⟨_, _, _, rfl⟩

theorem poll_covered (done fired : Bool) :
    (c.poll numPackets done fired now).2.Covered ↔ c.Covered := by
  obtain ⟨_, _, _, h⟩ := poll_eq numPackets c done fired now
  rw [h]
  exact Iff.rfl

theorem Clocked.poll (numPackets : Nat → Nat) (h : c.Clocked later) (done fired : Bool) (now : Nat) :
    (c.poll numPackets done fired now).2.Clocked later := by
  obtain ⟨_, _, _, heq⟩ := poll_eq numPackets c done fired now
  rw [heq]
  exact ⟨h.last, h.window⟩

theorem Clocked.nextPacket_iff (numPackets : Nat → Nat) (h : c.Clocked now) :
    (∃ c', c.nextPacket numPackets now = .ok c') ↔ c.Covered := by
  cases hlast : c.lastIpt with
  | none =>
    refine ⟨fun _ hfull => ?_, fun _ => ⟨{ c with lastIpt := some now }, ?_⟩⟩
    · rw [h.window hlast] at hfull
      cases hfull
    · simp [nextPacket, iptPacket, hlast]
  | some old =>
    have hle : old ≤ now := h.last old hlast
    constructor
    · rintro ⟨c', hnext⟩
      exact MovingAverage.covers_of_push (push_of_nextPacket numPackets hlast hle hnext).2
    · intro hcovered
      obtain ⟨ipt, ipts, hroom⟩ := makeRoom_of_covered hcovered
      obtain ⟨c', hnext, -⟩ := nextPacket_of_makeRoom numPackets hlast hle hroom
      exact ⟨c', hnext⟩

theorem Clocked.nextPacket (h : c.Clocked now) (hnext : c.nextPacket numPackets now = .ok c') :
    c'.Clocked now := by
  cases hlast : c.lastIpt with
  | none =>
    rw [CongestionInfo.nextPacket, iptPacket, hlast] at hnext
    simp only [Result.pure_def, Result.bind_ok, Result.ok.injEq] at hnext
    subst hnext
    exact ⟨by simp, by simp⟩
  | some old =>
    obtain ⟨hlast', -⟩ := push_of_nextPacket numPackets hlast (h.last old hlast) hnext
    exact ⟨by simp [hlast'], by simp [hlast']⟩

theorem Clocked.covered_of_long (h : c.Clocked now) (hlong : ∀ old ∈ c.lastIpt, ∀ d ∈ c.ipts, old + d ≤ now)
    (hnext : c.nextPacket numPackets now = .ok c') : c'.Covered := by
  cases hlast : c.lastIpt with
  | none =>
    rw [CongestionInfo.nextPacket, iptPacket, hlast] at hnext
    simp only [Result.pure_def, Result.bind_ok, Result.ok.injEq] at hnext
    subst hnext
    intro hfull
    rw [h.window hlast] at hfull
    cases hfull
  | some old =>
    have hpush := (push_of_nextPacket numPackets hlast (h.last old hlast) hnext).2
    refine MovingAverage.covers_of_large hpush fun d hd => ?_
    have := hlong old hlast d hd
    omega

theorem nextPacket_rtt (hnext : c.nextPacket numPackets now = .ok c') : c'.rtt = c.rtt := by
  unfold CongestionInfo.nextPacket iptPacket at hnext
  split at hnext
  · simp only [Result.pure_def, Result.bind_ok, Result.ok.injEq] at hnext
    rw [← hnext]
  · simp only [Result.bind_eq_ok, Result.pure_def, Result.ok.injEq] at hnext
    obtain ⟨_, ⟨_, -, _, -, rfl⟩, rfl⟩ := hnext
    rfl

end CongestionInfo

/-! ## What is taken -/

namespace Receiver

variable {length : Nat} {info : ChunkInfo} {r r' : Receiver} {progress : Nat} {d : Bytes}

theorem taken_none (r : Receiver) (progress : Nat) : r.taken progress none = .nothing := by
  unfold taken
  split <;> simp_all

theorem Sound.taken_untaken (h : r.Sound info) (ht : ¬ r.Takes progress) (datagram : Option Bytes) :
    r.taken progress datagram = .nothing := by
  obtain ⟨done, q, hq, -, ⟨htakes, -⟩ | ⟨-, rfl⟩ | ⟨-, rfl, hshut⟩⟩ := h.pollWrite progress
  · exact absurd htakes ht
  · cases datagram <;> simp [taken, hq]
  · cases datagram <;> simp [taken, hq, hshut]

theorem Sound.taken_readable (g : Geometry length info) (h : r.Sound info) (ht : r.Takes progress)
    (hd : Readable info d) :
    r.taken progress (some d) = if chunkIndex info d = info.numChunks then .nothing else .chunk := by
  obtain ⟨done, q, hq, hsound, ⟨-, rfl, ⟨w, hw⟩, -⟩ | ⟨hno, -⟩ | ⟨hno, -⟩⟩ := h.pollWrite progress
  · have hinfo := hsound.state
    simp only [hw, Serving] at hinfo
    simp only [taken, hq, hw, hinfo, decode_readable g hd.1]
  · exact absurd ht hno
  · exact absurd ht hno

theorem Sound.taken_ne_ack (h : r.Sound info) (progress : Nat) (datagram : Option Bytes) :
    r.taken progress datagram ≠ .ack := by
  unfold taken
  split
  · rename_i q d hq
    obtain ⟨done, q', hq', hsound, -⟩ := h.pollWrite progress
    rw [hq', Result.ok.injEq, Prod.mk.injEq] at hq
    have hstate := hsound.state
    rw [hq.2] at hstate
    split
    · rename_i hack
      simp [hack, Serving] at hstate
    · split
      · split <;> simp
      · simp
    · simp
  · simp

end Receiver

/-! ## One poll -/

namespace Pace

variable {numPackets : Nat → Nat} {p : Pace} {r : Receiver} {progress now : Nat} {datagram : Option Bytes}
  {info : ChunkInfo}

theorem poll_nothing (h : r.taken progress datagram = .nothing) (fired : Bool) :
    p.poll numPackets r fired progress datagram now =
      .ok ((p.congestion.poll numPackets r.congestionDone fired now).1,
        { p with congestion := (p.congestion.poll numPackets r.congestionDone fired now).2 }) := by
  simp [poll, h]

theorem poll_chunk (h : r.taken progress datagram = .chunk) (fired : Bool) :
    p.poll numPackets r fired progress datagram now = do
      let c ← (p.congestion.poll numPackets r.congestionDone fired now).2.nextPacket numPackets now
      return ((p.congestion.poll numPackets r.congestionDone fired now).1, { p with congestion := c }) := by
  simp [poll, h]

/-- A poll goes through unless it takes a chunk that cannot be counted. -/
theorem poll_iff (numPackets : Nat → Nat) (hr : r.Sound info) (hp : p.congestion.Clocked now) (fired : Bool)
    (progress : Nat) (datagram : Option Bytes) :
    (∃ q, p.poll numPackets r fired progress datagram now = .ok q) ↔
      (r.taken progress datagram = .chunk → p.congestion.Covered) := by
  cases htaken : r.taken progress datagram with
  | nothing => simp [poll_nothing htaken]
  | ack => exact absurd htaken (hr.taken_ne_ack progress datagram)
  | chunk =>
    have hiff := (hp.poll numPackets r.congestionDone fired now).nextPacket_iff numPackets
    rw [CongestionInfo.poll_covered] at hiff
    simp [poll_chunk htaken, Result.bind_eq_ok, ← hiff]

theorem poll_ok (hr : r.Sound info) {fired ready : Bool} {q : Pace}
    (h : p.poll numPackets r fired progress datagram now = .ok (ready, q)) :
    ready = (p.congestion.poll numPackets r.congestionDone fired now).1 ∧ q.trips = p.trips ∧
      if r.taken progress datagram = .chunk then
        (p.congestion.poll numPackets r.congestionDone fired now).2.nextPacket numPackets now =
          .ok q.congestion
      else q.congestion = (p.congestion.poll numPackets r.congestionDone fired now).2 := by
  cases htaken : r.taken progress datagram with
  | nothing =>
    rw [poll_nothing htaken, Result.ok.injEq, Prod.mk.injEq] at h
    exact ⟨h.1.symm, h.2 ▸ rfl, by rw [if_neg (by simp), ← h.2]⟩
  | ack => exact absurd htaken (hr.taken_ne_ack progress datagram)
  | chunk =>
    simp only [poll_chunk htaken, Result.bind_eq_ok, Result.pure_def, Result.ok.injEq, Prod.mk.injEq] at h
    obtain ⟨c, hc, rfl, rfl⟩ := h
    exact ⟨rfl, rfl, by rw [if_pos rfl, hc]⟩

theorem poll_clocked (hr : r.Sound info) (hp : p.congestion.Clocked now) {fired ready : Bool} {q : Pace}
    (h : p.poll numPackets r fired progress datagram now = .ok (ready, q)) : q.congestion.Clocked now := by
  have hpoll := hp.poll numPackets r.congestionDone fired now
  obtain ⟨-, -, hcongestion⟩ := poll_ok hr h
  split at hcongestion
  · exact hpoll.nextPacket hcongestion
  · exact hcongestion ▸ hpoll

theorem poll_covered (hr : r.Sound info) (hp : p.congestion.Clocked now) (hcovered : p.congestion.Covered)
    (hlong : ∀ old ∈ p.congestion.lastIpt, ∀ d ∈ p.congestion.ipts, old + d ≤ now) {fired ready : Bool}
    {q : Pace} (h : p.poll numPackets r fired progress datagram now = .ok (ready, q)) :
    q.congestion.Covered := by
  have hpoll := hp.poll numPackets r.congestionDone fired now
  obtain ⟨-, -, hcongestion⟩ := poll_ok hr h
  split at hcongestion
  · obtain ⟨_, _, _, heq⟩ :=
      CongestionInfo.poll_eq numPackets p.congestion r.congestionDone fired now
    refine hpoll.covered_of_long ?_ hcongestion
    rw [heq]
    exact hlong
  · rw [hcongestion, CongestionInfo.poll_covered]
    exact hcovered

end Pace

namespace PacedReceiver

variable {numPackets : Nat → Nat} {length : Nat} {info : ChunkInfo} {s s' : PacedReceiver} {p : TimedPoll}

/-- The states of a session with its clock. -/
structure Sound (info : ChunkInfo) (s : PacedReceiver) : Prop where
  receiver : s.receiver.Sound info
  clock : s.congestion.Clocked s.now

theorem start_ok {r : Receiver} {now : Nat} (h : start r now = .ok s) :
    s = { congestion := .new now, trips := { start := some now, rtts := [] }, receiver := r, now } := by
  simp only [start, Pace.start, CongestionInfo.startRtt, RoundTrips.new, Result.bind_eq_ok, Result.assert_eq_ok,
    Result.pure_def, Result.ok.injEq] at h
  obtain ⟨_, ⟨_, ⟨_, -, rfl⟩, rfl⟩, rfl⟩ := h
  rfl

theorem Sound.start {r : Receiver} {now : Nat} (hr : r.Sound info) (h : start r now = .ok s) :
    s.Sound info := by
  rw [start_ok h]
  exact ⟨hr, .new now⟩

theorem polled_ok (h : s.polled numPackets p = .ok s') :
    ∃ ready pace, s.toPace.poll numPackets s.receiver p.ready p.progress p.datagram (s.now + p.wait) =
        .ok (ready, pace) ∧ s.receiver.polled { p.toPoll with ready } = .ok s'.receiver ∧
      s'.toPace = pace ∧ s'.now = s.now + p.wait := by
  simp only [polled, Result.bind_eq_ok, Result.pure_def, Result.ok.injEq] at h
  obtain ⟨⟨ready, pace⟩, hpace, receiver, hreceiver, rfl⟩ := h
  exact ⟨ready, pace, hpace, hreceiver, rfl, rfl⟩

theorem Sound.polled (g : Geometry length info) (h64 : length < u64Size) (h : s.Sound info)
    (hp : s.polled numPackets p = .ok s') : s'.Sound info := by
  obtain ⟨ready, pace, hpace, hreceiver, rfl, hnow⟩ := polled_ok hp
  refine ⟨h.receiver.polled g h64 hreceiver, ?_⟩
  rw [hnow]
  exact Pace.poll_clocked h.receiver (h.clock.mono (Nat.le_add_right _ _)) hpace

theorem Sound.addressed_iff (g : Geometry length info) (h : s.Sound info) :
    s.Addressed info p ↔ s.receiver.Addressed info p.toPoll ∧
      (s.receiver.taken p.progress p.datagram = .chunk → s.congestion.Covered) := by
  unfold Addressed Receiver.Addressed
  by_cases ht : s.receiver.Takes p.progress
  · cases hdatagram : p.datagram with
    | none => simp [Receiver.taken_none]
    | some d =>
      simp only [Option.mem_def, Option.some.injEq, forall_eq', ht, true_imp_iff]
      apply and_congr_right
      intro hd
      rw [h.receiver.taken_readable g ht hd]
      have hle := hd.2
      by_cases hfin : chunkIndex info d = info.numChunks
      · simp [hfin]
      · simp [hfin, Nat.lt_of_le_of_ne hle hfin]
  · simp [ht, h.receiver.taken_untaken ht]

theorem Sound.polled_total_iff (numPackets : Nat → Nat) (g : Geometry length info) (h64 : length < u64Size)
    (h : s.Sound info) (p : TimedPoll) :
    (∃ s', s.polled numPackets p = .ok s') ↔ s.Addressed info p := by
  rw [h.addressed_iff g]
  have hpace := Pace.poll_iff numPackets h.receiver (h.clock.mono (Nat.le_add_right s.now p.wait)) p.ready
    p.progress p.datagram
  constructor
  · rintro ⟨s', hs'⟩
    obtain ⟨ready, pace, hpoll, hreceiver, -⟩ := polled_ok hs'
    refine ⟨?_, hpace.mp ⟨_, hpoll⟩⟩
    by_contra hno
    rw [Receiver.polled_not_addressed g h.receiver (p := { p.toPoll with ready }) hno] at hreceiver
    cases hreceiver
  · rintro ⟨hd, hcovered⟩
    obtain ⟨⟨ready, pace⟩, hpoll⟩ := hpace.mpr hcovered
    obtain ⟨r, hr, -⟩ := Receiver.polled_addressed g h64 h.receiver (p := { p.toPoll with ready }) hd
    have hr : s.receiver.poll ready p.progress p.datagram = .ok r := hr
    simp [PacedReceiver.polled, hpoll, hr]

theorem Sound.tolerates_iff (g : Geometry length info) (h64 : length < u64Size) (h : s.Sound info)
    (p : TimedPoll) : s.Tolerates numPackets info p ↔ s.Addressed info p := by
  constructor
  · rintro ⟨s', hs', -⟩
    exact (h.polled_total_iff numPackets g h64 p).mp ⟨s', hs'⟩
  · intro hd
    obtain ⟨s', hs'⟩ := (h.polled_total_iff numPackets g h64 p).mpr hd
    refine ⟨s', hs', (h.polled g h64 hs').receiver.ne_invalid, ?_⟩
    intro d hdatagram hno t ht
    -- The datagram stays where it is, since one that is taken can be read.
    have huntaken : ¬ s.receiver.Takes p.progress := fun htakes => hno (hd d hdatagram htakes).1
    obtain ⟨ready, pace, hpoll, hreceiver, -, -⟩ := polled_ok hs'
    obtain ⟨ready', pace', hpoll', hreceiver', -, -⟩ := polled_ok ht
    rw [Pace.poll_nothing (h.receiver.taken_untaken huntaken _), Result.ok.injEq, Prod.mk.injEq] at hpoll hpoll'
    obtain ⟨rfl, -⟩ := hpoll
    obtain ⟨rfl, -⟩ := hpoll'
    obtain ⟨r, hr, -, hnone⟩ := Receiver.poll_untaken h.receiver huntaken _ p.datagram
    rw [Receiver.polled, hr, Result.ok.injEq] at hreceiver
    rw [Receiver.polled, hnone, Result.ok.injEq] at hreceiver'
    rw [← hreceiver, ← hreceiver']
    exact ⟨rfl, rfl⟩

/-- All datagrams of a session are tolerated if and only if each one that is taken holds an index, which is
at most the number of chunks, and no chunk comes in when the average is less than what is taken off. -/
theorem any_datagram_iff {length : Nat} (h64 : length < u64Size) {disk : Disk} {r : Receiver}
    (h : Receiver.new disk length = .ok r) {now : Nat} {s : PacedReceiver} (h0 : start r now = .ok s)
    (polls : List TimedPoll) :
    ∃ info, indexFieldSize length = .ok info ∧
      (Along (polled numPackets) (Tolerates numPackets info) s polls ↔
        Along (polled numPackets) (Addressed info) s polls) := by
  obtain ⟨info, hinfo, g⟩ := indexFieldSize_spec h64
  refine ⟨info, hinfo, ?_⟩
  apply Along.congr (I := Sound info) (.start (.new hinfo h) h0)
  · intro t p ht
    exact ht.tolerates_iff g h64 p
  · intro t p t' ht hstep
    exact ht.polled g h64 hstep

/-- The session of a file with one byte, on a server that has nothing of it. -/
def oneByte : Result PacedReceiver := do
  let r ← Receiver.new { bitmap := none, file := none } 1
  start r 0

def untimed (progress : Nat) (datagram : Bytes) : TimedPoll :=
  { ready := false, progress, datagram := some datagram, wait := 1 }

/-- The only chunk of a file of one byte, with noise in between. -/
theorem any_datagram_iff_one_byte :
    ∃ info s, indexFieldSize 1 = .ok info ∧ oneByte = .ok s ∧
      Along (polled fun _ => 0) (Tolerates (fun _ => 0) info) s
        [untimed 0 [0, 7], untimed 0 [], untimed 1 [0, 9], untimed 0 [1], untimed 0 [2]] := by
  let info : ChunkInfo := ⟨1, 1459, 1, 1⟩
  have hone : indexFieldSize 1 = .ok info := by decide
  have hrun : (do
      let s ← oneByte
      return decide (Along (polled fun _ => 0) (Addressed info) s
        [untimed 0 [0, 7], untimed 0 [], untimed 1 [0, 9], untimed 0 [1], untimed 0 [2]])) = .ok true := by
    decide +kernel
  obtain ⟨s, hs, hall⟩ := Result.bind_eq_ok.mp hrun
  obtain ⟨r, hr, h0⟩ := Result.bind_eq_ok.mp hs
  obtain ⟨info', hinfo, hiff⟩ := any_datagram_iff (by decide) hr h0
    [untimed 0 [0, 7], untimed 0 [], untimed 1 [0, 9], untimed 0 [1], untimed 0 [2]]
  rw [hone, Result.ok.injEq] at hinfo
  subst hinfo
  exact ⟨info, s, hone, hs, hiff.mpr (by simpa using hall)⟩

/-- An index behind the one of the extension message stops the server, and so do a datagram that is too short
for an index and the right chunk at the wrong time: one millisecond after the first, and then ten at once. -/
theorem unknown_index_panics :
    ∃ info s, indexFieldSize 1 = .ok info ∧ oneByte = .ok s ∧
      s.polled (fun _ => 0) (untimed 0 [2]) = .panic ∧ s.polled (fun _ => 0) (untimed 0 []) = .panic ∧
      ¬ Along (polled fun _ => 0) (Tolerates (fun _ => 0) info) s [untimed 0 [2]] ∧
      replay (polled fun _ => 0) s (untimed 0 [0, 7] :: { untimed 1 [0, 7] with wait := 1000000 } ::
        List.replicate 10 { untimed 1 [0, 7] with wait := 0 }) = .panic := by
  have hrun : (do
      let s ← oneByte
      return (s.polled (fun _ => 0) (untimed 0 [2]), s.polled (fun _ => 0) (untimed 0 []),
        replay (polled fun _ => 0) s (untimed 0 [0, 7] :: { untimed 1 [0, 7] with wait := 1000000 } ::
          List.replicate 10 { untimed 1 [0, 7] with wait := 0 }))) = .ok (.panic, .panic, .panic) := by
    decide +kernel
  obtain ⟨s, hs, hpanic⟩ := Result.bind_eq_ok.mp hrun
  simp only [Result.pure_def, Result.ok.injEq, Prod.mk.injEq] at hpanic
  obtain ⟨hbehind, hshort, hgaps⟩ := hpanic
  refine ⟨⟨1, 1459, 1, 1⟩, s, by decide, hs, hbehind, hshort, ?_, hgaps⟩
  rintro ⟨⟨s', hs', -⟩, -⟩
  rw [hbehind] at hs'
  cases hs'

end PacedReceiver

end DasProtokoll.Csync
