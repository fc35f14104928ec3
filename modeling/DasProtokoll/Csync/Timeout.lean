import DasProtokoll.Lib.Run
import Mathlib.Tactic.Ring

/-!
# Idle timeout

A stream that fails when the stream inside of it yields nothing for a while. A
flag records that something came, and a tick of an interval clears the flag.
-/

namespace DasProtokoll.Csync

open DasProtokoll

/-! ## The interval -/

inductive Async (α : Type) where
  | ready (v : α)
  | notReady

/-- A timer that ticks first at `deadline` and then after every `duration`. Only a poll sees a
tick, and each poll sees at most one. -/
class Interval (ι : Type) (τ : outParam Type) where
  new : Nat → Nat → ι
  poll : ι → Nat → Except τ (Async (Option Nat)) × ι
  deadline : ι → Nat
  duration : ι → Nat
  deadline_new (first d : Nat) : deadline (new first d) = first
  duration_new (first d : Nat) : duration (new first d) = d
  duration_poll (i : ι) (now : Nat) : duration (poll i now).2 = duration i
  poll_early (i : ι) (now : Nat) : now < deadline i →
    (poll i now).1 = .ok .notReady ∧ deadline (poll i now).2 = deadline i
  poll_due (i : ι) (now : Nat) : deadline i ≤ now →
    (∃ tick, (poll i now).1 = .ok (.ready (some tick))) ∧
      deadline (poll i now).2 = deadline i + duration i

variable {ι τ α ε : Type} [Interval ι τ]

/-- Polls until there is no tick left. -/
def drain : Nat → ι → Nat → Result (Except τ Unit × ι)
  | 0, _, _ => .diverge
  | fuel + 1, i, now =>
    match Interval.poll i now with
    | (.ok .notReady, i) => .ok (.ok (), i)
    | (.ok (.ready _), i) => drain fuel i now
    | (.error e, i) => .ok (.error e, i)

/-- The next tick is the first one after `now`. -/
structure Drained (i : ι) (now : Nat) (i' : ι) : Prop where
  duration : Interval.duration i' = Interval.duration i
  late : now < Interval.deadline i'
  soon : Interval.deadline i' ≤ max (Interval.deadline i) (now + Interval.duration i)
  tick : ∃ k, Interval.deadline i' = Interval.deadline i + k * Interval.duration i

theorem drain_early {i : ι} {now : Nat} (h : now < Interval.deadline i) (fuel : Nat) :
    drain (fuel + 1) i now = .ok (.ok (), (Interval.poll i now).2) := by
  rw [drain, ← Prod.mk.eta (p := Interval.poll i now), (Interval.poll_early i now h).1]

theorem drain_due {i : ι} {now : Nat} (h : Interval.deadline i ≤ now) (fuel : Nat) :
    drain (fuel + 1) i now = drain fuel (Interval.poll i now).2 now := by
  obtain ⟨tick, htick⟩ := (Interval.poll_due i now h).1
  rw [drain, ← Prod.mk.eta (p := Interval.poll i now), htick]

theorem drain_spec {fuel : Nat} {i i' : ι} {now : Nat} {r : Except τ Unit}
    (h : drain fuel i now = .ok (r, i')) : r = .ok () ∧ Drained i now i' := by
  induction fuel generalizing i with
  | zero => cases h
  | succ fuel ih =>
    have hdur := Interval.duration_poll i now
    by_cases hnow : now < Interval.deadline i
    · have hsame := (Interval.poll_early i now hnow).2
      rw [drain_early hnow] at h
      cases h
      exact ⟨rfl, hdur, by omega, by omega, 0, by omega⟩
    · have hnext := (Interval.poll_due i now (by omega)).2
      rw [drain_due (by omega)] at h
      obtain ⟨hr, hdrained⟩ := ih h
      obtain ⟨k, hk⟩ := hdrained.tick
      have hsoon := hdrained.soon
      refine ⟨hr, hdrained.duration.trans hdur, hdrained.late, by omega, k + 1, ?_⟩
      rw [hk, hnext, hdur]
      ring

theorem drain_returns {i : ι} {now fuel : Nat} (hpos : 0 < Interval.duration i)
    (hfuel : now + 1 - Interval.deadline i < fuel) : ∃ i', drain fuel i now = .ok (.ok (), i') := by
  induction fuel generalizing i with
  | zero => omega
  | succ fuel ih =>
    by_cases hnow : now < Interval.deadline i
    · exact ⟨_, drain_early hnow fuel⟩
    · have hnext := (Interval.poll_due i now (by omega)).2
      rw [drain_due (by omega)]
      exact ih (by rw [Interval.duration_poll]; exact hpos) (by omega)

/-! ## The stream -/

inductive Error (τ ε : Type) where
  | timeout
  | timer (e : τ)
  | other (e : ε)

structure TimeoutStream (ι : Type) where
  gotSomething : Bool
  interval : ι

namespace TimeoutStream

def new (now timeout : Nat) : TimeoutStream ι :=
  { gotSomething := false, interval := Interval.new (now + timeout) timeout }

/-- One poll at `now`, where `polled` is what the poll of the stream inside returned. -/
def poll (fuel : Nat) (s : TimeoutStream ι) (now : Nat) (polled : Except ε (Async (Option α))) :
    Result (Except (Error τ ε) (Async (Option α)) × TimeoutStream ι) :=
  match polled with
  | .ok (.ready t) => .ok (.ok (.ready t), { s with gotSomething := true })
  | .error e => .ok (.error (.other e), s)
  | .ok .notReady =>
    match Interval.poll s.interval now with
    | (.ok (.ready (some _)), interval) =>
      if s.gotSomething then do
        let (drained, interval) ← drain fuel interval now
        match drained with
        | .ok () => return (.ok .notReady, { gotSomething := false, interval })
        | .error e => return (.error (.timer e), { gotSomething := false, interval })
      else .ok (.error .timeout, { s with interval })
    | (.ok (.ready none), _) => .panic
    | (.ok .notReady, interval) => .ok (.ok .notReady, { s with interval })
    | (.error e, interval) => .ok (.error (.timer e), { s with interval })

/-- The polls in which the stream inside yields nothing. -/
inductive QuietPoll (s : TimeoutStream ι) (now : Nat) :
    Except (Error τ ε) (Async (Option α)) → TimeoutStream ι → Prop
  | early {i : ι} (h : now < Interval.deadline s.interval)
      (hdeadline : Interval.deadline i = Interval.deadline s.interval)
      (hduration : Interval.duration i = Interval.duration s.interval) :
      QuietPoll s now (.ok .notReady) { s with interval := i }
  | idle {i : ι} (h : Interval.deadline s.interval ≤ now) (hgot : s.gotSomething = false)
      (hdeadline : Interval.deadline i =
        Interval.deadline s.interval + Interval.duration s.interval)
      (hduration : Interval.duration i = Interval.duration s.interval) :
      QuietPoll s now (.error .timeout) { s with interval := i }
  | clear {i : ι} (h : Interval.deadline s.interval ≤ now) (hgot : s.gotSomething = true)
      (hdrained : Drained s.interval now i) :
      QuietPoll s now (.ok .notReady) { gotSomething := false, interval := i }

variable {s : TimeoutStream ι} {now fuel : Nat}

theorem poll_early (h : now < Interval.deadline s.interval) :
    s.poll fuel now (.ok .notReady : Except ε (Async (Option α))) =
      .ok (.ok .notReady, { s with interval := (Interval.poll s.interval now).2 }) := by
  rw [poll, ← Prod.mk.eta (p := Interval.poll s.interval now), (Interval.poll_early _ now h).1]

theorem poll_idle (h : Interval.deadline s.interval ≤ now) (hgot : s.gotSomething = false) :
    s.poll fuel now (.ok .notReady : Except ε (Async (Option α))) =
      .ok (.error .timeout, { s with interval := (Interval.poll s.interval now).2 }) := by
  obtain ⟨tick, htick⟩ := (Interval.poll_due _ now h).1
  rw [poll, ← Prod.mk.eta (p := Interval.poll s.interval now), htick]
  simp [hgot]

theorem poll_clear (h : Interval.deadline s.interval ≤ now) (hgot : s.gotSomething = true) {i : ι}
    (hdrain : drain (fuel + 1) s.interval now = .ok (.ok (), i)) :
    s.poll fuel now (.ok .notReady : Except ε (Async (Option α))) =
      .ok (.ok .notReady, { gotSomething := false, interval := i }) := by
  obtain ⟨tick, htick⟩ := (Interval.poll_due _ now h).1
  rw [drain_due h] at hdrain
  rw [poll, ← Prod.mk.eta (p := Interval.poll s.interval now), htick]
  simp [hgot, hdrain]

theorem poll_quiet {r : Except (Error τ ε) (Async (Option α))} {s' : TimeoutStream ι}
    (h : s.poll fuel now (.ok .notReady) = .ok (r, s')) : QuietPoll s now r s' := by
  have hdur := Interval.duration_poll s.interval now
  by_cases hnow : now < Interval.deadline s.interval
  · rw [poll_early hnow] at h
    cases h
    exact .early hnow (Interval.poll_early _ now hnow).2 hdur
  · have hdue := Interval.poll_due s.interval now (by omega)
    cases hgot : s.gotSomething with
    | false =>
      rw [poll_idle (by omega) hgot] at h
      cases h
      exact .idle (by omega) hgot hdue.2 hdur
    | true =>
      obtain ⟨tick, htick⟩ := hdue.1
      rw [poll, ← Prod.mk.eta (p := Interval.poll s.interval now), htick] at h
      simp only [hgot, if_true] at h
      obtain ⟨⟨drained, i⟩, hdrain, hret⟩ := Result.bind_eq_ok.mp h
      rw [← drain_due (by omega)] at hdrain
      obtain ⟨rfl, hspec⟩ := drain_spec hdrain
      cases hret
      exact .clear (by omega) hgot hspec

theorem poll_returns (hpos : 0 < Interval.duration s.interval) (now : Nat)
    (polled : Except ε (Async (Option α))) : ∃ fuel r s', s.poll fuel now polled = .ok (r, s') := by
  rcases polled with e | t | _
  · exact ⟨0, _, _, rfl⟩
  · exact ⟨0, _, _, rfl⟩
  · by_cases hnow : now < Interval.deadline s.interval
    · exact ⟨0, _, _, poll_early hnow⟩
    · cases hgot : s.gotSomething with
      | false => exact ⟨0, _, _, poll_idle (by omega) hgot⟩
      | true =>
        obtain ⟨i, hi⟩ := drain_returns hpos (Nat.lt_succ_self (now + 1 - _))
        exact ⟨_, _, _, poll_clear (by omega) hgot hi⟩

end TimeoutStream

/-! ## The task -/

/-- A poll of the task, and what the stream inside returns to it. -/
structure Wakeup (α ε : Type) where
  now : Nat
  polled : Except ε (Async (Option α))

def Wakeup.items (e : Wakeup α ε) : List Nat :=
  match e.polled with
  | .ok (.ready (some _)) => [e.now]
  | _ => []

/-- A task is not polled after the end or an error. -/
def finishes (r : Except (Error τ ε) (Async (Option α))) : Bool :=
  match r with
  | .ok .notReady => false
  | .ok (.ready t) => t.isNone
  | .error _ => true

/-- `items` are the times at which the stream inside yielded an item. -/
structure Task (ι : Type) where
  stream : TimeoutStream ι
  now : Nat
  finished : Bool
  items : List Nat

namespace Task

def new (now timeout : Nat) : Task ι :=
  { stream := .new now timeout, now, finished := false, items := [] }

inductive Step : Task ι → Wakeup α ε → Task ι → Prop
  | poll {t : Task ι} {e : Wakeup α ε} {fuel : Nat} {r : Except (Error τ ε) (Async (Option α))}
      {stream : TimeoutStream ι} (hlive : t.finished = false) (hnow : t.now ≤ e.now)
      (hpoll : t.stream.poll fuel e.now e.polled = .ok (r, stream)) :
      Step t e { stream, now := e.now, finished := finishes r, items := e.items ++ t.items }

/-- The poll returns the error `Timeout`. -/
def TimesOut (t : Task ι) (e : Wakeup α ε) : Prop :=
  ∃ fuel stream, t.stream.poll fuel e.now e.polled = .ok (.error .timeout, stream)

def Timely (timeout : Nat) (r : Transition (Task ι) (Wakeup α ε)) : Prop :=
  r.source.TimesOut r.label → ∀ s ∈ r.source.items, s + timeout ≤ r.label.now

/-- An item comes before the next tick is due, or whole timeouts after it. -/
def Observed (timeout : Nat) (r : Transition (Task ι) (Wakeup α ε)) : Prop :=
  ∀ s ∈ r.label.items, s < Interval.deadline r.source.stream.interval ∨
    timeout ∣ s - Interval.deadline r.source.stream.interval

/-- Each item either keeps the next tick a whole timeout away, or keeps the flag up until then. -/
structure Inv (timeout : Nat) (t : Task ι) : Prop where
  duration : Interval.duration t.stream.interval = timeout
  past : ∀ s ∈ t.items, s ≤ t.now
  covered : ∀ s ∈ t.items, s + timeout ≤ Interval.deadline t.stream.interval ∨
    t.stream.gotSomething = true ∧ (s < Interval.deadline t.stream.interval ∨
      timeout ∣ s - Interval.deadline t.stream.interval)

theorem inv_new (now timeout : Nat) : Inv timeout (new now timeout : Task ι) :=
  ⟨Interval.duration_new _ _, by simp [new], by simp [new]⟩

theorem covered_drained {i i' : ι} {s now : Nat} (hdrained : Drained i now i')
    (hdue : Interval.deadline i ≤ now) (hs : s ≤ now)
    (h : s < Interval.deadline i ∨ Interval.duration i ∣ s - Interval.deadline i) :
    s + Interval.duration i ≤ Interval.deadline i' := by
  obtain ⟨k, hk⟩ := hdrained.tick
  have hlate := hdrained.late
  have htick : ∃ j, s ≤ Interval.deadline i + j * Interval.duration i ∧
      Interval.deadline i + j * Interval.duration i ≤ now := by
    by_cases hbefore : s ≤ Interval.deadline i
    · exact ⟨0, by omega, by omega⟩
    · obtain ⟨j, hj⟩ := h.resolve_left (by omega)
      rw [Nat.mul_comm] at hj
      exact ⟨j, by omega, by omega⟩
  obtain ⟨j, hsj, hjnow⟩ := htick
  have hjk : j < k := by
    by_contra hle
    have := Nat.mul_le_mul_right (Interval.duration i) (Nat.le_of_not_lt hle)
    omega
  have hnext : (j + 1) * Interval.duration i ≤ k * Interval.duration i := Nat.mul_le_mul_right _ hjk
  rw [Nat.succ_mul] at hnext
  omega

theorem Step.inv {timeout : Nat} {t u : Task ι} {e : Wakeup α ε} (h : Step t e u)
    (hinv : Inv timeout t) (hitems : Observed timeout ⟨t, e, u⟩) : Inv timeout u := by
  obtain ⟨hduration, hpast, hcovered⟩ := hinv
  obtain ⟨hlive, hnow, hpoll⟩ := h
  have hold : ∀ s ∈ t.items, s ≤ e.now := fun s hs => (hpast s hs).trans hnow
  obtain ⟨now, polled⟩ := e
  rcases polled with err | item | _
  · cases hpoll
    exact ⟨hduration, hold, hcovered⟩
  · cases hpoll
    have hup : ∀ s ∈ t.items, s + timeout ≤ Interval.deadline t.stream.interval ∨
        true = true ∧ (s < Interval.deadline t.stream.interval ∨
          timeout ∣ s - Interval.deadline t.stream.interval) :=
      fun s hs => (hcovered s hs).imp id fun h => ⟨rfl, h.2⟩
    cases item with
    | none => exact ⟨hduration, hold, hup⟩
    | some item =>
      refine ⟨hduration, ?_, ?_⟩
      · rintro s (_ | ⟨_, hs⟩)
        · exact le_rfl
        · exact hold s hs
      · rintro s (_ | ⟨_, hs⟩)
        · exact Or.inr ⟨rfl, hitems now (by simp [Wakeup.items])⟩
        · exact hup s hs
  · -- only here can the tick move
    cases TimeoutStream.poll_quiet hpoll with
    | early hbefore hdeadline hdur =>
      exact ⟨hdur.trans hduration, hold, by rwa [hdeadline]⟩
    | idle hdue hgot hdeadline hdur =>
      refine ⟨hdur.trans hduration, hold, fun s hs => Or.inl ?_⟩
      have := (hcovered s hs).resolve_right (by simp [hgot])
      rw [hdeadline]
      omega
    | clear hdue hgot hdrained =>
      refine ⟨hdrained.duration.trans hduration, hold, fun s hs => Or.inl ?_⟩
      rcases hcovered s hs with hfar | ⟨-, hseen⟩
      · exact hfar.trans (hdue.trans hdrained.late.le)
      · subst hduration
        exact covered_drained hdrained hdue (hold s hs) hseen

theorem timesOut_iff {t : Task ι} {e : Wakeup α ε} : t.TimesOut e ↔
    e.polled = .ok .notReady ∧ Interval.deadline t.stream.interval ≤ e.now ∧
      t.stream.gotSomething = false := by
  obtain ⟨now, polled⟩ := e
  constructor
  · rintro ⟨fuel, stream, hpoll⟩
    rcases polled with err | item | _
    · cases hpoll
    · cases hpoll
    · cases TimeoutStream.poll_quiet hpoll with
      | idle hdue hgot => exact ⟨rfl, hdue, hgot⟩
  · rintro ⟨hquiet, hdue, hgot⟩
    obtain rfl : polled = .ok .notReady := hquiet
    exact ⟨0, _, TimeoutStream.poll_idle hdue hgot⟩

theorem Inv.timely {timeout : Nat} {r : Transition (Task ι) (Wakeup α ε)}
    (h : Inv timeout r.source) : Timely timeout r := by
  intro hout s hs
  obtain ⟨-, hdue, hgot⟩ := timesOut_iff.mp hout
  have := (h.covered s hs).resolve_right (by simp [hgot])
  omega

/-! ## Silence after an item -/

/-- From `now` on the stream inside yields nothing, and the first poll is at once. -/
def Silent (now : Nat) (l : List (Transition (Task ι) (Wakeup α ε))) : Prop :=
  (∀ r ∈ l, r.label.polled = .ok .notReady) ∧ ∀ r ∈ l.head?, r.label.now = now

/-- No error `Timeout` comes early, neither now nor in a silence that follows. -/
def KeepsTime (timeout : Nat) (r : Transition (Task ι) (Wakeup α ε)) : Prop :=
  Timely timeout r ∧ ∀ (l : List (Transition (Task ι) (Wakeup α ε))) (u : Task ι),
    Run Step r.target l u → Silent r.label.now l → ∀ q ∈ l, Timely timeout q

theorem lt_add_of_drained {i i' : ι} {now : Nat} (hdrained : Drained i now i')
    (hdue : Interval.deadline i ≤ now)
    (hoff : ¬ Interval.duration i ∣ now - Interval.deadline i) :
    Interval.deadline i' < now + Interval.duration i := by
  obtain ⟨k, hk⟩ := hdrained.tick
  have hlate := hdrained.late
  have hsoon := hdrained.soon
  rw [max_eq_right (by omega)] at hsoon
  apply hsoon.lt_of_ne
  intro heq
  apply hoff
  cases k with
  | zero => omega
  | succ k =>
    rw [Nat.succ_mul] at hk
    exact ⟨k, by rw [Nat.mul_comm]; omega⟩

/-- An item after a tick that no poll saw: the flag falls at once, and the next tick is an error. -/
theorem early_after_missed_tick {timeout : Nat} (hpos : 0 < timeout) {t u : Task ι} {e : Wakeup α ε}
    (hinv : Inv timeout t) (h : Step t e u) {s : Nat} (hs : s ∈ e.items)
    (hdue : Interval.deadline t.stream.interval ≤ s)
    (hoff : ¬ timeout ∣ s - Interval.deadline t.stream.interval) :
    ∃ (l : List (Transition (Task ι) (Wakeup α ε))) (v : Task ι),
      Run Step u l v ∧ Silent e.now l ∧ ∃ q ∈ l, ¬ Timely timeout q := by
  obtain ⟨hlive, hnow, hpoll⟩ := h
  obtain ⟨now, polled⟩ := e
  rcases polled with err | (_ | item) | _
  · simp [Wakeup.items] at hs
  · simp [Wakeup.items] at hs
  · cases hpoll
    obtain rfl : s = now := by simpa [Wakeup.items] using hs
    obtain rfl := hinv.duration
    obtain ⟨i, hi⟩ := drain_returns hpos (Nat.lt_succ_self (s + 1 - _))
    have hdrained := (drain_spec hi).2
    let fresh : Task ι := ⟨⟨true, t.stream.interval⟩, s, false, s :: t.items⟩
    let cleared : Task ι := ⟨⟨false, i⟩, s, false, s :: t.items⟩
    have hclear : Step fresh (⟨s, .ok .notReady⟩ : Wakeup α ε) cleared :=
      .poll (r := .ok .notReady) rfl le_rfl
        (TimeoutStream.poll_clear (s := ⟨true, t.stream.interval⟩) hdue rfl hi)
    have hidle : Step cleared (⟨Interval.deadline i, .ok .notReady⟩ : Wakeup α ε) _ :=
      .poll rfl hdrained.late.le (@TimeoutStream.poll_idle _ _ _ _ _ ⟨false, i⟩ _ 0 le_rfl rfl)
    refine ⟨_, _, (Run.nil.snoc hclear).snoc hidle, ⟨by simp, by simp⟩, _,
      List.mem_append_right _ (List.mem_singleton_self _), ?_⟩
    intro htimely
    have hlate := htimely (timesOut_iff.mpr ⟨rfl, le_rfl, rfl⟩) s (by simp [cleared])
    exact absurd (lt_add_of_drained hdrained hdue hoff) hlate.not_gt
  · simp [Wakeup.items] at hs

theorem keepsTime_iff {timeout : Nat} (hpos : 0 < timeout) {t u : Task ι} {e : Wakeup α ε}
    (hinv : Inv timeout t) (h : Step t e u) :
    KeepsTime timeout ⟨t, e, u⟩ ↔ Observed timeout ⟨t, e, u⟩ := by
  constructor
  · rintro ⟨-, hsilent⟩ s hs
    by_contra hmissed
    rw [not_or, not_lt] at hmissed
    obtain ⟨l, v, hrun, hl, q, hq, hearly⟩ := early_after_missed_tick hpos hinv h hs hmissed.1 hmissed.2
    exact hearly (hsilent l v hrun hl q hq)
  · intro hitems
    refine ⟨hinv.timely, ?_⟩
    rintro l v hrun ⟨hquiet, -⟩ q hq
    have hguard : ∀ r ∈ l, Observed timeout r := by
      intro r hr
      simp [Observed, Wakeup.items, hquiet r hr]
    have hkept := hrun.guarded (h.inv hinv hitems) (fun _ _ _ hi hs hg => hs.inv hi hg) hguard
    exact (hkept.2 q hq).1.timely

/-- An error `Timeout` is never early as long as no item follows a tick that no poll saw. -/
theorem never_premature {now timeout : Nat} (hpos : 0 < timeout)
    {l : List (Transition (Task ι) (Wakeup α ε))} {t : Task ι}
    (h : Run Step (new now timeout) l t) :
    (∀ r ∈ l, KeepsTime timeout r) ↔ ∀ r ∈ l, Observed timeout r :=
  h.guard_iff (inv_new now timeout) (fun _ _ _ hinv hs => keepsTime_iff hpos hinv hs)
    fun _ _ _ hinv hs hg => hs.inv hinv hg

end Task

/-! ## Two tasks -/

/-- A timer that is never late. -/
structure Ticks where
  deadline : Nat
  duration : Nat

instance : Interval Ticks Unit where
  new first d := { deadline := first, duration := d }
  poll i now :=
    if i.deadline ≤ now then
      (.ok (.ready (some i.deadline)), { i with deadline := i.deadline + i.duration })
    else (.ok .notReady, i)
  deadline i := i.deadline
  duration i := i.duration
  deadline_new _ _ := rfl
  duration_new _ _ := rfl
  duration_poll i now := by split <;> rfl
  poll_early i now h := by rw [if_neg (by omega)]; exact ⟨rfl, rfl⟩
  poll_due i now h := by rw [if_pos h]; exact ⟨⟨_, rfl⟩, rfl⟩

namespace Task

/-- An item at 5 is forgotten at 10, and at 20 the stream has been idle for long enough. -/
theorem never_premature_idle :
    ∃ (l : List (Transition (Task Ticks) (Wakeup Unit Unit))) (t : Task Ticks),
      Run Step (new 0 10) l t ∧ l.length = 3 ∧ ∀ r ∈ l, KeepsTime 10 r := by
  have hitem : Step (new 0 10) (⟨5, .ok (.ready (some ()))⟩ : Wakeup Unit Unit)
      (⟨⟨true, ⟨10, 10⟩⟩, 5, false, [5]⟩ : Task Ticks) :=
    @Step.poll _ _ _ _ _ _ _ 0 (.ok (.ready (some ()))) _ rfl (by decide) rfl
  have hclear : Step (⟨⟨true, ⟨10, 10⟩⟩, 5, false, [5]⟩ : Task Ticks)
      (⟨10, .ok .notReady⟩ : Wakeup Unit Unit) ⟨⟨false, ⟨20, 10⟩⟩, 10, false, [5]⟩ :=
    @Step.poll _ _ _ _ _ _ _ 1 (.ok .notReady) _ rfl (by decide) rfl
  have hidle : Step (⟨⟨false, ⟨20, 10⟩⟩, 10, false, [5]⟩ : Task Ticks)
      (⟨20, .ok .notReady⟩ : Wakeup Unit Unit) ⟨⟨false, ⟨30, 10⟩⟩, 20, true, [5]⟩ :=
    @Step.poll _ _ _ _ _ _ _ 0 (.error .timeout) _ rfl (by decide) rfl
  have hrun := ((Run.nil.snoc hitem).snoc hclear).snoc hidle
  refine ⟨_, _, hrun, rfl, (never_premature (by decide) hrun).mpr ?_⟩
  intro r hr
  simp only [List.nil_append, List.cons_append, List.mem_cons, List.not_mem_nil, or_false] at hr
  rcases hr with rfl | rfl | rfl
  · intro s hs
    rw [List.mem_singleton.mp hs]
    exact Or.inl (by decide)
  · simp [Observed, Wakeup.items]
  · simp [Observed, Wakeup.items]

/-- The poll at 15 brings an item, and the one after it sees the tick of 10. At 20 the item is
five old, and the next tick is an error. -/
theorem premature_after_late_poll :
    ∃ (l : List (Transition (Task Ticks) (Wakeup Unit Unit))) (t : Task Ticks),
      Run Step (new 0 10) l t ∧
      l.map (fun r => (r.label.now, r.label.items)) = [(0, []), (15, [15]), (15, []), (20, [])] ∧
      ∃ r ∈ l, r.source.TimesOut r.label ∧ r.label.now = 20 ∧ 15 ∈ r.source.items ∧
        ¬ Timely 10 r := by
  have hfirst : Step (new 0 10) (⟨0, .ok .notReady⟩ : Wakeup Unit Unit)
      (⟨⟨false, ⟨10, 10⟩⟩, 0, false, []⟩ : Task Ticks) :=
    @Step.poll _ _ _ _ _ _ _ 0 (.ok .notReady) _ rfl le_rfl rfl
  have hitem : Step (⟨⟨false, ⟨10, 10⟩⟩, 0, false, []⟩ : Task Ticks)
      (⟨15, .ok (.ready (some ()))⟩ : Wakeup Unit Unit) ⟨⟨true, ⟨10, 10⟩⟩, 15, false, [15]⟩ :=
    @Step.poll _ _ _ _ _ _ _ 0 (.ok (.ready (some ()))) _ rfl (by decide) rfl
  have hclear : Step (⟨⟨true, ⟨10, 10⟩⟩, 15, false, [15]⟩ : Task Ticks)
      (⟨15, .ok .notReady⟩ : Wakeup Unit Unit) ⟨⟨false, ⟨20, 10⟩⟩, 15, false, [15]⟩ :=
    @Step.poll _ _ _ _ _ _ _ 1 (.ok .notReady) _ rfl (by decide) rfl
  have hidle : Step (⟨⟨false, ⟨20, 10⟩⟩, 15, false, [15]⟩ : Task Ticks)
      (⟨20, .ok .notReady⟩ : Wakeup Unit Unit) ⟨⟨false, ⟨30, 10⟩⟩, 20, true, [15]⟩ :=
    @Step.poll _ _ _ _ _ _ _ 0 (.error .timeout) _ rfl (by decide) rfl
  have hout : TimesOut (⟨⟨false, ⟨20, 10⟩⟩, 15, false, [15]⟩ : Task Ticks)
      (⟨20, .ok .notReady⟩ : Wakeup Unit Unit) := ⟨0, _, rfl⟩
  refine ⟨_, _, (((Run.nil.snoc hfirst).snoc hitem).snoc hclear).snoc hidle, rfl, _,
    List.mem_append_right _ (List.mem_singleton_self _), hout, rfl, by simp, ?_⟩
  intro htimely
  exact absurd (htimely hout 15 (by simp)) (by decide)

end Task

end DasProtokoll.Csync
