import DasProtokoll.Lib.Run
import DasProtokoll.Scsync.TransferStatus

/-!
# Pacing

The transfer loops of one client, with the statuses that start them and a clock.
A loop that has taken its last chunk is alive until its delay is over, but the
cursor says that the transfer is idle, so that a status can start a second loop.
-/

namespace DasProtokoll.Scsync

open DasProtokoll

/-- `sentAt` is when each payload was sent. -/
structure Pacing where
  handler : Handler
  now : Nat
  sentAt : List Nat

namespace Pacing

inductive Event where
  | tick
  | status (status : TransferStatus)
  | blockRequest (req : BlockRequest)
  /-- A round of one of the loops. -/
  | round (i : Nat)

def next (addr : SocketAddr) (p : Pacing) : Event → Result Pacing
  | .tick => return { p with now := p.now + 1 }
  | .status status => do
    let handler ← p.handler.transferStatus p.now addr status
    return { p with handler }
  | .blockRequest req => do
    let (handler, _) ← p.handler.blockRequest addr req
    return { p with handler }
  | .round i => do
    let (handler, sent) ← p.handler.transferLoop p.now i
    return { p with handler, sentAt := p.sentAt ++ sent.map fun _ => p.now }

def Step (addr : SocketAddr) (p : Pacing) (e : Event) (p' : Pacing) : Prop := next addr p e = .ok p'

/-- A node with no loop that has sent nothing. -/
def start (handler : Handler) (now : Nat) : Pacing := { handler, now, sentAt := [] }

/-- Each payload is sent at least the delay after the one before. -/
def Spaced (delay : Nat) (sentAt : List Nat) : Prop := sentAt.Pairwise fun a b => a + delay ≤ b

instance (delay : Nat) (sentAt : List Nat) : Decidable (Spaced delay sentAt) :=
  inferInstanceAs (Decidable (List.Pairwise _ _))

/-- What the source means to keep. -/
def Paced (p : Pacing) : Prop :=
  p.handler.transferLoops.length ≤ 1 ∧ Spaced p.handler.packetDelay p.sentAt

/-- A status with missing chunks comes while the transfer looks idle and a loop is still alive. -/
def Relaunches (addr : SocketAddr) (r : Transition Pacing Event) : Prop :=
  ∃ status c, r.label = .status status ∧ status.missingRanges ≠ [] ∧
    r.source.handler.clients.lookup addr = some c ∧ c.transferOut.cursor = none ∧
    r.source.handler.transferLoops ≠ []

/-- A loop sleeps until the delay after the last payload is over. -/
structure Inv (p : Pacing) : Prop where
  paced : Paced p
  asleep : ∀ loop ∈ p.handler.transferLoops, ∀ t ∈ p.sentAt, t + p.handler.packetDelay ≤ loop.2
  idle : p.handler.transferLoops = [] → ∀ t ∈ p.sentAt, t + p.handler.packetDelay ≤ p.now

theorem inv_start {handler : Handler} (h : handler.transferLoops = []) (now : Nat) :
    Inv (start handler now) :=
  ⟨⟨by simp [start, h], List.Pairwise.nil⟩, by simp [start], by simp [start]⟩

theorem Inv.congr {p p' : Pacing} (h : Inv p)
    (hloops : p'.handler.transferLoops = p.handler.transferLoops)
    (hdelay : p'.handler.packetDelay = p.handler.packetDelay) (hsent : p'.sentAt = p.sentAt)
    (hnow : p.now ≤ p'.now) : Inv p' := by
  refine ⟨⟨?_, ?_⟩, ?_, ?_⟩
  · rw [hloops]
    exact h.paced.1
  · rw [hdelay, hsent]
    exact h.paced.2
  · rw [hloops, hdelay, hsent]
    exact h.asleep
  · rw [hloops, hdelay, hsent]
    exact fun hnil t ht => (h.idle hnil t ht).trans hnow

theorem nextPayload_frame {h h' : Handler} {addr : SocketAddr} {payload : Option TransferPayload}
    (hn : h.nextPayload addr = .ok (payload, h')) :
    h'.transferLoops = h.transferLoops ∧ h'.packetDelay = h.packetDelay := by
  obtain ⟨c, -, ⟨-, -, rfl⟩ | ⟨_, _, _, _, _, _, _, _, _, rfl⟩⟩ := Handler.nextPayload_ok hn <;>
    exact ⟨rfl, rfl⟩

theorem Inv.round {p p' : Pacing} {addr : SocketAddr} {i : Nat} (h : Inv p)
    (hs : Step addr p (.round i) p') : Inv p' := by
  simp only [Step, next, Result.bind_eq_ok, Result.pure_def, Result.ok.injEq] at hs
  obtain ⟨⟨handler, sent⟩, hround, rfl⟩ := hs
  obtain ⟨a, wake, hloop, hwake, hcases⟩ := Handler.transferLoop_ok hround
  have hlen := h.paced.1
  have hi : i < p.handler.transferLoops.length := (List.getElem?_eq_some_iff.mp hloop).1
  obtain ⟨loop, hloops⟩ := List.length_eq_one_iff.mp (by omega : p.handler.transferLoops.length = 1)
  obtain rfl : i = 0 := by omega
  obtain rfl : loop = (a, wake) := by simpa [hloops] using hloop
  have hawake : ∀ t ∈ p.sentAt, t + p.handler.packetDelay ≤ p.now := fun t ht =>
    (h.asleep (a, wake) (by rw [hloops]; simp) t ht).trans hwake
  rcases hcases with ⟨payload, h₁, hnext, rfl, rfl⟩ | ⟨-, rfl, rfl⟩
  · obtain ⟨hl, hd⟩ := nextPayload_frame hnext
    refine ⟨⟨?_, ?_⟩, ?_, ?_⟩
    · simp [hl, hloops]
    · simp only [List.map_cons, List.map_nil, hd]
      refine List.pairwise_append.mpr ⟨h.paced.2, List.pairwise_singleton _ _, ?_⟩
      intro t ht t' ht'
      rw [List.mem_singleton.mp ht']
      exact hawake t ht
    · intro loop hmem t ht
      obtain rfl : loop = (a, p.now + h₁.packetDelay) := by simpa [hl, hloops] using hmem
      rcases List.mem_append.mp ht with ht | ht
      · have := hawake t ht
        simp only [hd]
        omega
      · obtain rfl : t = p.now := by simpa using ht
        exact le_rfl
    · intro hnil
      simp [hl, hloops] at hnil
  · refine ⟨⟨?_, ?_⟩, ?_, ?_⟩
    · simp [hloops]
    · simpa using h.paced.2
    · intro loop hmem
      simp [hloops] at hmem
    · simpa using fun _ => hawake

theorem status_ok {p p' : Pacing} {addr : SocketAddr} {status : TransferStatus}
    (hs : Step addr p (.status status) p') :
    p'.sentAt = p.sentAt ∧ p'.now = p.now ∧ p'.handler.packetDelay = p.handler.packetDelay ∧
      ∃ c, p.handler.clients.lookup addr = some c ∧
        p'.handler.transferLoops =
          if c.transferOut.cursor = none ∧ status.missingRanges ≠ [] then
            p.handler.transferLoops ++ [(addr, p.now)]
          else p.handler.transferLoops := by
  simp only [Step, next, Result.bind_eq_ok, Result.pure_def, Result.ok.injEq] at hs
  obtain ⟨handler, hstatus, rfl⟩ := hs
  obtain ⟨c, hc, rfl⟩ := Handler.transferStatus_ok hstatus
  exact ⟨rfl, rfl, rfl, c, hc, rfl⟩

theorem not_paced_of_relaunches {p p' : Pacing} {addr : SocketAddr} {e : Event}
    (hs : Step addr p e p') (hr : Relaunches addr ⟨p, e, p'⟩) : ¬ Paced p' := by
  obtain ⟨status, c, rfl, hne, hc, hcursor, halive⟩ := hr
  obtain ⟨-, -, -, c', hc', hloops⟩ := status_ok hs
  rw [hc, Option.some.injEq] at hc'
  subst hc'
  rw [if_pos ⟨hcursor, hne⟩] at hloops
  have hpos := List.length_pos_iff.mpr halive
  intro hpaced
  have := hpaced.1
  rw [hloops, List.length_append, List.length_singleton] at this
  simp only at hpos
  omega

theorem Inv.status {p p' : Pacing} {addr : SocketAddr} {status : TransferStatus} (h : Inv p)
    (hs : Step addr p (.status status) p') (hr : ¬ Relaunches addr ⟨p, .status status, p'⟩) :
    Inv p' := by
  obtain ⟨hsent, hnow, hdelay, c, hc, hloops⟩ := status_ok hs
  split at hloops
  · rename_i hlaunch
    have hnil : p.handler.transferLoops = [] := by
      by_contra hne
      exact hr ⟨status, c, rfl, hlaunch.2, hc, hlaunch.1, hne⟩
    rw [hnil, List.nil_append] at hloops
    refine ⟨⟨by rw [hloops]; simp, by rw [hdelay, hsent]; exact h.paced.2⟩, ?_, ?_⟩
    · intro loop hmem t ht
      rw [hloops, List.mem_singleton] at hmem
      rw [hsent] at ht
      rw [hmem, hdelay]
      exact h.idle hnil t ht
    · intro hnil'
      rw [hloops] at hnil'
      cases hnil'
  · exact h.congr hloops hdelay hsent hnow.ge

theorem Inv.step {p p' : Pacing} {addr : SocketAddr} {e : Event} (h : Inv p) (hs : Step addr p e p')
    (hr : ¬ Relaunches addr ⟨p, e, p'⟩) : Inv p' := by
  cases e with
  | tick =>
    obtain rfl := Result.ok.inj hs
    exact h.congr rfl rfl rfl (Nat.le_succ _)
  | status status => exact h.status hs hr
  | blockRequest req =>
    simp only [Step, next, Result.bind_eq_ok, Result.pure_def, Result.ok.injEq] at hs
    obtain ⟨⟨handler, sent⟩, hreq, rfl⟩ := hs
    obtain ⟨_, _, _, _, -, -, -, rfl, -⟩ := Handler.blockRequest_ok hreq
    exact h.congr rfl rfl rfl le_rfl
  | round i => exact h.round hs

end Pacing

/-- The payloads to a client are paced by a single loop exactly in those runs in which no status with
missing chunks comes while the cursor is cleared and a loop is still alive. -/
theorem single_loop_iff {addr : SocketAddr} {handler : Handler} (h : handler.transferLoops = [])
    (now : Nat) {l : List (Transition Pacing Pacing.Event)} {p : Pacing}
    (hrun : Run (Pacing.Step addr) (Pacing.start handler now) l p) :
    (∀ r ∈ l, Pacing.Paced r.target) ↔ ∀ r ∈ l, ¬ Pacing.Relaunches addr r := by
  refine hrun.guard_iff (I := Pacing.Inv) (Pacing.inv_start h now) ?_ ?_
  · intro p e p' hinv hs
    exact ⟨fun hpaced hr => Pacing.not_paced_of_relaunches hs hr hpaced,
      fun hr => (hinv.step hs hr).paced⟩
  · exact fun p e p' hinv hs hr => hinv.step hs hr

/-- The first status starts the first loop. -/
theorem single_loop_iff_first :
    ∃ p, Run (Pacing.Step peerAddr) (Pacing.start sendingNode 0)
        [⟨Pacing.start sendingNode 0, .status { missingRanges := [(5, 6)] }, p⟩] p ∧
      p.handler.transferLoops = [(peerAddr, 0)] ∧ Pacing.Paced p := by
  have hnext : (Pacing.next peerAddr (Pacing.start sendingNode 0) (.status { missingRanges := [(5, 6)] })
      >>= fun p => .ok p.handler.transferLoops) = .ok [(peerAddr, 0)] := by decide +kernel
  obtain ⟨p, hp, hloops⟩ := Result.bind_eq_ok.mp hnext
  have hrun : Run (Pacing.Step peerAddr) (Pacing.start sendingNode 0)
      [⟨Pacing.start sendingNode 0, .status { missingRanges := [(5, 6)] }, p⟩] p := Run.nil.snoc hp
  have hpaced := (single_loop_iff rfl 0 hrun).mpr (by
    intro r hr
    rw [List.mem_singleton] at hr
    rintro ⟨_, _, -, -, -, -, halive⟩
    rw [hr] at halive
    exact halive rfl)
  exact ⟨p, hrun, Result.ok.inj hloops, hpaced _ (List.mem_singleton_self _)⟩

/-- The same missing chunk is asked for twice, the second time before the delay is over: there are
two loops, and both send at the same time. -/
theorem second_loop_launched :
    ∃ p, Reachable (Pacing.Step peerAddr) (Pacing.start sendingNode 0) p ∧
      p.handler.packetDelay = 1 ∧ p.handler.transferLoops.length = 2 ∧ p.sentAt = [0, 0] ∧
      ¬ Pacing.Paced p := by
  have hrun : (replay (Pacing.next peerAddr) (Pacing.start sendingNode 0)
      [.status { missingRanges := [(5, 6)] }, .round 0, .status { missingRanges := [(5, 6)] },
        .round 1] >>= fun p =>
        .ok (p.handler.packetDelay, p.handler.transferLoops.length, p.sentAt)) =
      .ok (1, 2, [0, 0]) := by decide +kernel
  obtain ⟨p, hp, hend⟩ := Result.bind_eq_ok.mp hrun
  simp only [Result.ok.injEq, Prod.mk.injEq] at hend
  obtain ⟨hdelay, hloops, hsent⟩ := hend
  refine ⟨p, replay_reachable (fun _ _ _ h => h) hp, hdelay, hloops, hsent, ?_⟩
  intro hpaced
  have := hpaced.1
  omega

end DasProtokoll.Scsync
