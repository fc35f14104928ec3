import DasProtokoll.Lib.MovingAverage
import DasProtokoll.Lib.Run

/-!
# The time between packets

What the server measures of the chunks that come in. An instant and a duration are
whole nanoseconds, and the number of packets to wait for, which the code computes
in floating point, is a parameter.
-/

namespace DasProtokoll.Csync

open DasProtokoll

structure CongestionInfo where
  rtt : Nat
  lastIpt : Option Nat
  ipts : List Nat
  ipt : Nat
  lastNotify : Nat
  packetsSinceLastNotify : Nat
  delay : Option Nat
  deriving Repr, DecidableEq

namespace CongestionInfo

def new (now : Nat) : CongestionInfo :=
  { rtt := 0, lastIpt := none, ipts := [], ipt := 0, lastNotify := now,
    packetsSinceLastNotify := 0, delay := none }

variable (numPackets : Nat → Nat)

def updateDelay (c : CongestionInfo) : CongestionInfo :=
  let timeLeft := c.ipt * numPackets c.ipt + c.rtt
  { c with delay := some (c.lastNotify + timeLeft) }

/-- Takes the share of the oldest entry off, or scales down while the window fills. -/
def makeRoom (c : CongestionInfo) : Result (Nat × List Nat) :=
  if c.ipts.length = 10 then
    match c.ipts with
    | [] => .panic
    | oldest :: rest => do
      Result.assert (oldest / 10 ≤ c.ipt)
      return (c.ipt - oldest / 10, rest)
  else return (c.ipt * c.ipts.length / (c.ipts.length + 1), c.ipts)

/-- Whether the task is notified, and the new state. -/
def iptPacket (c : CongestionInfo) (now : Nat) : Result (Bool × CongestionInfo) :=
  match c.lastIpt with
  | none => return (false, { c with lastIpt := some now })
  | some old => do
    Result.assert (old ≤ now)
    let diff := now - old
    let (ipt, ipts) ← c.makeRoom
    let ipts := ipts ++ [diff]
    let ipt := ipt + diff / ipts.length
    let c := updateDelay numPackets { c with lastIpt := some now, ipts, ipt }
    let packets := c.packetsSinceLastNotify + 1
    return (decide (numPackets c.ipt < packets), { c with packetsSinceLastNotify := packets })

def nextPacket (c : CongestionInfo) (now : Nat) : Result CongestionInfo := do
  let (_, c) ← c.iptPacket numPackets now
  return c

/-- A full window, and a share of its oldest entry that can be taken off. -/
def Covered (c : CongestionInfo) : Prop :=
  c.ipts.length = 10 → ∀ oldest ∈ c.ipts.head?, oldest / 10 ≤ c.ipt

instance : DecidablePred Covered := fun c => by
  unfold Covered
  infer_instance

/-! ## As a moving average -/

def movingAverage (c : CongestionInfo) : MovingAverage := { average := c.ipt, window := c.ipts }

theorem push_of_makeRoom {c : CongestionInfo} {ipt : Nat} {ipts : List Nat}
    (h : c.makeRoom = .ok (ipt, ipts)) (d : Nat) :
    c.movingAverage.push 10 d =
      some { average := ipt + d / (ipts.length + 1), window := ipts ++ [d] } := by
  unfold makeRoom at h
  split at h
  · rename_i hfull
    split at h
    · cases h
    · rename_i oldest rest hipts
      obtain ⟨_, hle, hret⟩ := Result.bind_eq_ok.mp h
      cases hret
      rw [hipts] at hfull
      rw [movingAverage, hipts, MovingAverage.push_full hfull (Result.assert_eq_ok.mp hle)]
      rw [List.length_cons] at hfull
      rw [hfull]
  · rename_i hfilling
    cases h
    exact MovingAverage.push_filling hfilling d

theorem makeRoom_of_covered {c : CongestionInfo} (h : c.Covered) :
    ∃ ipt ipts, c.makeRoom = .ok (ipt, ipts) := by
  unfold makeRoom
  split
  · rename_i hfull
    split
    · rename_i hnil
      simp [hnil] at hfull
    · rename_i oldest rest hipts
      have hle := h hfull oldest (by simp [hipts])
      exact ⟨_, _, by rw [Result.assert_of hle]; rfl⟩
  · exact ⟨_, _, rfl⟩

theorem nextPacket_of_makeRoom {c : CongestionInfo} {old now ipt : Nat} {ipts : List Nat}
    (hold : c.lastIpt = some old) (hle : old ≤ now) (hroom : c.makeRoom = .ok (ipt, ipts)) :
    ∃ c', c.nextPacket numPackets now = .ok c' ∧ c'.lastIpt = some now ∧
      c.movingAverage.push 10 (now - old) = some c'.movingAverage := by
  unfold nextPacket iptPacket
  rw [hold, push_of_makeRoom hroom]
  simp only [Result.assert_of hle, hroom, Result.bind_ok, Result.pure_def, Result.ok.injEq,
    exists_eq_left']
  exact ⟨rfl, by simp [movingAverage, updateDelay]⟩

theorem nextPacket_push {c : CongestionInfo} {old now : Nat} {m : MovingAverage}
    (hold : c.lastIpt = some old) (hle : old ≤ now)
    (h : c.movingAverage.push 10 (now - old) = some m) :
    ∃ c', c.nextPacket numPackets now = .ok c' ∧ c'.lastIpt = some now ∧ c'.movingAverage = m := by
  have hcovers : c.Covered := MovingAverage.covers_of_push h
  obtain ⟨ipt, ipts, hroom⟩ := makeRoom_of_covered hcovers
  obtain ⟨c', hnext, hlast, hpush⟩ := nextPacket_of_makeRoom numPackets hold hle hroom
  exact ⟨c', hnext, hlast, Option.some.inj (hpush.symm.trans h)⟩

theorem push_of_nextPacket {c c' : CongestionInfo} {old now : Nat} (hold : c.lastIpt = some old)
    (hle : old ≤ now) (h : c.nextPacket numPackets now = .ok c') :
    c'.lastIpt = some now ∧ c.movingAverage.push 10 (now - old) = some c'.movingAverage := by
  have hroom : ∃ room, c.makeRoom = .ok room := by
    obtain ⟨_, hpacket, -⟩ := Result.bind_eq_ok.mp h
    rw [iptPacket, hold] at hpacket
    obtain ⟨_, -, hrest⟩ := Result.bind_eq_ok.mp hpacket
    obtain ⟨room, hroom, -⟩ := Result.bind_eq_ok.mp hrest
    exact ⟨room, hroom⟩
  obtain ⟨⟨ipt, ipts⟩, hroom⟩ := hroom
  obtain ⟨d, hnext, hlast, hpush⟩ := nextPacket_of_makeRoom numPackets hold hle hroom
  rw [hnext, Result.ok.injEq] at h
  exact h ▸ ⟨hlast, hpush⟩

/-! ## Sequences of packets -/

def gapsFrom : Nat → List Nat → List Nat
  | _, [] => []
  | old, now :: ts => (now - old) :: gapsFrom now ts

def gaps : List Nat → List Nat
  | [] => []
  | first :: ts => gapsFrom first ts

theorem gapsFrom_take (old k : Nat) (ts : List Nat) :
    gapsFrom old (ts.take k) = (gapsFrom old ts).take k := by
  induction ts generalizing old k with
  | nil => simp [gapsFrom]
  | cons now ts ih =>
    cases k with
    | zero => rfl
    | succ k => rw [List.take_succ_cons, gapsFrom, gapsFrom, List.take_succ_cons, ih]

theorem gaps_take (k : Nat) (ts : List Nat) : gaps (ts.take (k + 1)) = (gaps ts).take k := by
  cases ts with
  | nil => simp [gaps]
  | cons first ts => exact gapsFrom_take first k ts

theorem gaps_of_isPrefix {p ts : List Nat} (h : p <+: ts) : gaps p <+: gaps ts := by
  rw [List.prefix_iff_eq_take.mp h]
  cases p.length with
  | zero => exact List.nil_prefix
  | succ k => exact gaps_take k ts ▸ List.take_prefix k _

theorem prefix_gaps {q ts : List Nat} (h : q <+: gaps ts) : ∃ p, p <+: ts ∧ gaps p = q :=
  ⟨ts.take (q.length + 1), List.take_prefix _ _,
    (gaps_take _ ts).trans (List.prefix_iff_eq_take.mp h).symm⟩

theorem replay_packets {c : CongestionInfo} {old : Nat} {ts : List Nat}
    (hold : c.lastIpt = some old) (hs : (old :: ts).Pairwise (· ≤ ·)) (P : MovingAverage → Prop) :
    (∃ c', replay (nextPacket numPackets) c ts = .ok c' ∧ P c'.movingAverage) ↔
      ∃ m, (gapsFrom old ts).foldlM (MovingAverage.push 10) c.movingAverage = some m ∧ P m := by
  induction ts generalizing c old with
  | nil => simp [replay, gapsFrom]
  | cons now ts ih =>
    obtain ⟨hall, hrest⟩ := List.pairwise_cons.mp hs
    have hle : old ≤ now := hall now (by simp)
    simp only [replay, gapsFrom, List.foldlM_cons, Option.bind_eq_bind]
    constructor
    · rintro ⟨c', hrun, hp⟩
      obtain ⟨d, hnext, hrun⟩ := Result.bind_eq_ok.mp hrun
      obtain ⟨hlast, hpush⟩ := push_of_nextPacket numPackets hold hle hnext
      rw [hpush, Option.bind_some]
      exact (ih hlast hrest).mp ⟨c', hrun, hp⟩
    · rintro ⟨m, hrun, hp⟩
      obtain ⟨m', hpush, hrun⟩ := Option.bind_eq_some_iff.mp hrun
      obtain ⟨d, hnext, hlast, rfl⟩ := nextPacket_push numPackets hold hle hpush
      rw [hnext, Result.bind_ok]
      exact (ih hlast hrest).mpr ⟨m, hrun, hp⟩

def NeverUnderflows (start : Nat) (ts : List Nat) : Prop :=
  ∀ p, p <+: ts → ∃ c, replay (nextPacket numPackets) (new start) p = .ok c ∧ c.Covered

/-- After the first ten gaps, the shares of any nine gaps in a row make up for what rounding took
from the average while the window filled. -/
def MakesUp (ts : List Nat) : Prop :=
  ∀ v, v <:+: gaps ts → v.length = 10 →
    MovingAverage.shares 10 ((gaps ts).take 10) ≤
      MovingAverage.fill ((gaps ts).take 10) + MovingAverage.shares 10 v.tail

theorem replay_covered_iff (start : Nat) {p : List Nat} (hs : p.Pairwise (· ≤ ·)) :
    (∃ c, replay (nextPacket numPackets) (new start) p = .ok c ∧ c.Covered) ↔
      ∃ m, (gaps p).foldlM (MovingAverage.push 10) .empty = some m ∧ m.Covers 10 := by
  cases p with
  | nil =>
    have hnew : (new start).Covered := fun h => absurd h (by simp [new])
    have hempty : MovingAverage.empty.Covers 10 := fun h => absurd h (by simp [MovingAverage.empty])
    exact ⟨fun _ => ⟨_, rfl, hempty⟩, fun _ => ⟨_, rfl, hnew⟩⟩
  | cons first p =>
    -- the first packet only starts the clock
    have hfirst : nextPacket numPackets (new start) first =
      .ok { new start with lastIpt := some first } := rfl
    rw [replay, hfirst, Result.bind_ok]
    exact replay_packets numPackets rfl hs (MovingAverage.Covers 10)

/-- Packets that are at least ten nanoseconds apart are far enough apart. -/
theorem makesUp_of_spaced {ts : List Nat} (h : ∀ d ∈ gaps ts, 10 ≤ d) : MakesUp ts := by
  intro v hv hlen
  have hten : ((gaps ts).take 10).length = 10 := by
    rw [List.length_take]
    have := hv.length_le
    omega
  have hlost := MovingAverage.shares_le_fill (by decide) hten
  have hmade := MovingAverage.length_le_shares (by decide) (l := v.tail) fun d hd =>
    h d (hv.subset (List.mem_of_mem_tail hd))
  rw [List.length_tail, hlen] at hmade
  omega

/-- The average never underflows exactly when what the filling lost is always made up for. -/
theorem ipt_never_underflows_iff (start : Nat) {ts : List Nat} (hs : ts.Pairwise (· ≤ ·)) :
    NeverUnderflows numPackets start ts ↔ MakesUp ts := by
  refine Iff.trans ?_ (MovingAverage.never_underflows_iff (by decide) (gaps ts))
  constructor
  · intro hall q hq
    obtain ⟨p, hp, rfl⟩ := prefix_gaps hq
    exact (replay_covered_iff numPackets start (hs.sublist hp.sublist)).mp (hall p hp)
  · intro hall p hp
    exact (replay_covered_iff numPackets start (hs.sublist hp.sublist)).mpr
      (hall _ (gaps_of_isPrefix hp))

/-- Packets that are 20 nanoseconds apart. -/
theorem ipt_never_underflows_steady :
    NeverUnderflows (fun _ => 0) 0 [0, 20, 40, 60, 80, 100, 120, 140, 160, 180, 200, 220] :=
  (ipt_never_underflows_iff (fun _ => 0) 0 (by decide)).mpr (makesUp_of_spaced (by decide))

/-- One millisecond between the first two packets, then ten packets in the same instant. -/
theorem ipt_underflows :
    (0 :: List.replicate 11 1000000).Pairwise (· ≤ ·) ∧
      replay (nextPacket fun _ => 0) (new 0) (0 :: List.replicate 11 1000000) = .panic ∧
      ¬ NeverUnderflows (fun _ => 0) 0 (0 :: List.replicate 11 1000000) := by
  have hpanic :
      replay (nextPacket fun _ => 0) (new 0) (0 :: List.replicate 11 1000000) = .panic := by decide
  refine ⟨by decide, hpanic, ?_⟩
  intro h
  obtain ⟨c, hc, -⟩ := h _ (List.prefix_refl _)
  rw [hpanic] at hc
  cases hc

end CongestionInfo

end DasProtokoll.Csync
