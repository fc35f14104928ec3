import DasProtokoll.Lib.Locks
import DasProtokoll.Lib.Run

/-!
# The two mutexes of the handler

The receive task runs the functions of the handler one after the other, and each
status loop is a task of its own. All of them take `clients` and `blockdb`, but not
all in the same order: two functions of the receive task take `blockdb` first, which
is safe only while there is no status loop.
-/

namespace DasProtokoll.Scsync

open DasProtokoll Locks

inductive Mutex where
  | clients
  | blockdb
  deriving Repr, DecidableEq

/-- What the receive task runs, with the branches that take other mutexes. -/
inductive EntryPoint where
  | clientState
  | needsUpdate
  | rootUpdateResponse
  /-- Whether the root of the update is the own one. -/
  | unconnectedRootUpdate (known : Bool)
  | blockRequest
  /-- Whether the transfer is the only one of the client. -/
  | blockRequestResponse (launch : Bool)
  | transferPayload
  | transferStatus
  /-- One round of the loop that sends payloads, and whether there is a cursor. -/
  | transferRound (sends : Bool)
  deriving Repr, DecidableEq

def EntryPoint.program : EntryPoint → List (Op Mutex)
  | clientState | rootUpdateResponse | transferStatus => [.lock .clients, .unlock .clients]
  | needsUpdate => [.lock .blockdb, .unlock .blockdb]
  | unconnectedRootUpdate true => [.lock .blockdb, .unlock .blockdb]
  | unconnectedRootUpdate false =>
    [.lock .blockdb, .lock .clients, .unlock .clients, .unlock .blockdb]
  | blockRequest => [.lock .blockdb, .lock .clients, .unlock .clients, .unlock .blockdb]
  | blockRequestResponse launch =>
    [.lock .clients, .lock .blockdb, .unlock .blockdb] ++
      if launch then [.spawn, .unlock .clients] else [.unlock .clients]
  | transferPayload => [.lock .clients, .lock .blockdb, .unlock .blockdb, .unlock .clients]
  | transferRound true => [.lock .clients, .lock .blockdb, .unlock .blockdb, .unlock .clients]
  | transferRound false => [.lock .clients, .unlock .clients]

/-- The loop reads one block after the other, and the client stays locked all the while. -/
def statusReads : Nat → List (Op Mutex)
  | 0 => [.unlock .clients]
  | transfers + 1 => .lock .blockdb :: .unlock .blockdb :: statusReads transfers

/-- One round of a status loop, for as many transfers as the client has. -/
def statusRound (transfers : Nat) : List (Op Mutex) := .lock .clients :: statusReads transfers

/-- The receive task has the number 0, and the others are the status loops. -/
structure LockState where
  tasks : Tasks Mutex
  /-- The loops whose channel was closed. -/
  ended : List Nat

def LockState.init : LockState := { tasks := .init, ended := [] }

/-- A loop that was launched and may still be sent an update. -/
def LockState.Alive (s : LockState) (i : Nat) : Prop :=
  i ≠ 0 ∧ i < s.tasks.rest.length ∧ i ∉ s.ended

inductive LockEvent where
  | receive (entry : EntryPoint)
  | status (task transfers : Nat)
  | ended (task : Nat)
  | next (task : Nat)
  deriving Repr, DecidableEq

def lockStep (s : LockState) : LockEvent → Option LockState
  | .receive entry => (s.tasks.start 0 entry.program).map ({ s with tasks := · })
  | .status task transfers =>
    if task = 0 ∨ task ∈ s.ended then none
    else (s.tasks.start task (statusRound transfers)).map ({ s with tasks := · })
  -- A loop looks at its channel between two rounds.
  | .ended task =>
    if task ≠ 0 ∧ s.tasks.rest[task]? = some [] then some { s with ended := task :: s.ended }
    else none
  | .next task => (s.tasks.next task).map ({ s with tasks := · })

def LockStep (s : LockState) (e : LockEvent) (s' : LockState) : Prop := lockStep s e = some s'

/-- One task holds `clients` and waits for `blockdb`, and another one the other way around. -/
def Deadlocked (s : LockState) : Prop :=
  ∃ i j, s.tasks.owner .clients = some i ∧ s.tasks.Wants i .blockdb ∧
    s.tasks.owner .blockdb = some j ∧ s.tasks.Wants j .clients

/-- The entries that take `clients` first, or only one of the two. -/
def EntryPoint.InOrder : EntryPoint → Prop
  | unconnectedRootUpdate false => False
  | blockRequest => False
  | _ => True

/-- Nothing that takes `blockdb` first is started while there is a status loop. -/
def Admissible (s : LockState) (e : LockEvent) : Prop :=
  ∀ entry, e = .receive entry → entry.InOrder ∨ ∀ i, ¬ s.Alive i

/-! ## The programs -/

def mutexRank : Mutex → Nat
  | .clients => 0
  | .blockdb => 1

/-- The receive task takes the mutexes as they come, and the loops in one order. -/
def taskOrder : Nat → Set Mutex → Mutex → Prop
  | 0, _, _ => True
  | _ + 1, H, m => Ranked mutexRank H m

theorem taskOrder_of_ne {i : Nat} (hi : i ≠ 0) : taskOrder i = Ranked mutexRank := by
  cases i with
  | zero => exact absurd rfl hi
  | succ i => rfl

theorem program_disciplined (e : EntryPoint) : Disciplined (taskOrder 0) ∅ e.program := by
  cases e with
  | unconnectedRootUpdate known => cases known <;> simp [EntryPoint.program, taskOrder]
  | blockRequestResponse launch => cases launch <;> simp [EntryPoint.program, taskOrder]
  | transferRound sends => cases sends <;> simp [EntryPoint.program, taskOrder]
  | _ => simp [EntryPoint.program, taskOrder]

theorem program_ranked {e : EntryPoint} (h : e.InOrder) :
    Disciplined (Ranked mutexRank) ∅ e.program := by
  cases e with
  | unconnectedRootUpdate known =>
    cases known with
    | true => simp [EntryPoint.program, Ranked]
    | false => exact absurd h id
  | blockRequest => exact absurd h id
  | blockRequestResponse launch => cases launch <;> simp [EntryPoint.program, Ranked, mutexRank]
  | transferRound sends => cases sends <;> simp [EntryPoint.program, Ranked, mutexRank]
  | _ => simp [EntryPoint.program, Ranked, mutexRank]

theorem program_of_not_inOrder {e : EntryPoint} (h : ¬ e.InOrder) :
    e.program = [.lock .blockdb, .lock .clients, .unlock .clients, .unlock .blockdb] := by
  cases e with
  | unconnectedRootUpdate known =>
    cases known with
    | true => exact absurd trivial h
    | false => rfl
  | blockRequest => rfl
  | _ => exact absurd trivial h

theorem statusReads_ranked (transfers : Nat) :
    Disciplined (Ranked mutexRank) {.clients} (statusReads transfers) := by
  induction transfers with
  | zero => simp [statusReads]
  | succ transfers ih => simpa [statusReads, Ranked, mutexRank] using ih

theorem statusRound_ranked (transfers : Nat) :
    Disciplined (Ranked mutexRank) ∅ (statusRound transfers) := by
  simpa [statusRound, Ranked] using statusReads_ranked transfers

/-! ## One step -/

variable {s s' : LockState} {e : LockEvent}

theorem lockStep_cases (h : LockStep s e s') :
    (∃ entry t, e = .receive entry ∧ s.tasks.start 0 entry.program = some t ∧
      s' = { s with tasks := t }) ∨
    (∃ i transfers t, e = .status i transfers ∧ i ≠ 0 ∧ i ∉ s.ended ∧
      s.tasks.start i (statusRound transfers) = some t ∧ s' = { s with tasks := t }) ∨
    (∃ i, e = .ended i ∧ i ≠ 0 ∧ s.tasks.rest[i]? = some [] ∧
      s' = { s with ended := i :: s.ended }) ∨
    ∃ i t, e = .next i ∧ s.tasks.next i = some t ∧ s' = { s with tasks := t } := by
  cases e with
  | receive entry =>
    obtain ⟨t, ht, rfl⟩ := Option.map_eq_some_iff.mp h
    exact Or.inl ⟨entry, t, rfl, ht, rfl⟩
  | status i transfers =>
    simp only [LockStep, lockStep] at h
    split at h
    · cases h
    · rename_i hi
      rw [not_or] at hi
      obtain ⟨t, ht, rfl⟩ := Option.map_eq_some_iff.mp h
      exact Or.inr (Or.inl ⟨i, transfers, t, rfl, hi.1, hi.2, ht, rfl⟩)
  | ended i =>
    simp only [LockStep, lockStep] at h
    split at h
    · rename_i hi
      exact Or.inr (Or.inr (Or.inl ⟨i, rfl, hi.1, hi.2, (Option.some.inj h).symm⟩))
    · cases h
  | next i =>
    obtain ⟨t, ht, rfl⟩ := Option.map_eq_some_iff.mp h
    exact Or.inr (Or.inr (Or.inr ⟨i, t, rfl, ht, rfl⟩))

/-- Every task keeps to its order, and the loops that ended do nothing. -/
structure LockState.Inv (s : LockState) : Prop where
  lawful : Lawful taskOrder s.tasks
  ended : ∀ i ∈ s.ended, i ≠ 0 ∧ s.tasks.rest[i]? = some []

theorem LockState.Inv.init : LockState.Inv .init where
  lawful := Lawful.init
  ended := by simp [LockState.init]

theorem LockState.Inv.step (h : s.Inv) (hs : LockStep s e s') : s'.Inv := by
  rcases lockStep_cases hs with ⟨entry, t, -, ht, rfl⟩ | ⟨i, transfers, t, -, hi, hnot, ht, rfl⟩ |
    ⟨i, -, hi, hidle, rfl⟩ | ⟨i, t, -, ht, rfl⟩
  · refine ⟨h.lawful.start (program_disciplined entry) ht, ?_⟩
    intro j hj
    obtain ⟨hne, hidle⟩ := h.ended j hj
    exact ⟨hne, (start_other hne.symm ht).trans hidle⟩
  · refine ⟨h.lawful.start (taskOrder_of_ne hi ▸ statusRound_ranked transfers) ht, ?_⟩
    intro j hj
    obtain ⟨hne, hidle⟩ := h.ended j hj
    have hij : i ≠ j := by
      rintro rfl
      exact hnot hj
    exact ⟨hne, (start_other hij ht).trans hidle⟩
  · refine ⟨h.lawful, ?_⟩
    rintro j (_ | ⟨_, hj⟩)
    · exact ⟨hi, hidle⟩
    · exact h.ended j hj
  · refine ⟨h.lawful.next ht, ?_⟩
    intro j hj
    obtain ⟨hne, hidle⟩ := h.ended j hj
    exact ⟨hne, next_idle hidle ht⟩

theorem LockState.Inv.ranked (h : s.Inv) (h0 : s.tasks.rest[0]? = some []) :
    Lawful (fun _ => Ranked mutexRank) s.tasks := by
  refine ⟨h.lawful.1, ?_⟩
  intro i p hp
  have hlawful := h.lawful.2 i p hp
  by_cases hi : i = 0
  · subst hi
    rw [h0, Option.some.injEq] at hp
    subst hp
    exact hlawful
  · rwa [taskOrder_of_ne hi] at hlawful

/-! ## Runs without a deadlock -/

theorem ranked_not_deadlocked (h : Lawful (fun _ => Ranked mutexRank) s.tasks) : ¬ Deadlocked s := by
  rintro ⟨i, j, hi, hiw, hj, hjw⟩
  have hwaits : s.tasks.WaitsFor i j := ⟨.blockdb, hiw, hj⟩
  have hback : s.tasks.WaitsFor j i := ⟨.clients, hjw, hi⟩
  exact no_circular_wait h i (.head hwaits (.single hback))

/-- The receive task is the only one, and launches no other one. -/
def Lone (s : LockState) : Prop :=
  (∀ i, ¬ s.Alive i) ∧ ∀ p, s.tasks.rest[0]? = some p → .spawn ∉ p

theorem LockState.Inv.lone_busy (h : s.Inv) (hlone : ∀ i, ¬ s.Alive i) {i : Nat} {p : List (Op Mutex)}
    (hp : s.tasks.rest[i]? = some p) (hne : p ≠ []) : i = 0 := by
  by_contra hi
  have hmem : i ∈ s.ended := by
    by_contra hmem
    exact hlone i ⟨hi, (List.getElem?_eq_some_iff.mp hp).1, hmem⟩
  rw [(h.ended i hmem).2, Option.some.injEq] at hp
  exact hne hp.symm

theorem LockState.Inv.lone_not_deadlocked (h : s.Inv) (hlone : ∀ i, ¬ s.Alive i) : ¬ Deadlocked s := by
  rintro ⟨i, j, -, ⟨p, hp⟩, -, q, hq⟩
  obtain rfl := h.lone_busy hlone hp (by simp)
  obtain rfl := h.lone_busy hlone hq (by simp)
  rw [hp] at hq
  cases hq

theorem lone_step (h : s.Inv) (hlone : Lone s) (hs : LockStep s e s')
    (hne : ∀ entry, e ≠ .receive entry) : Lone s' := by
  obtain ⟨hno, hspawn⟩ := hlone
  rcases lockStep_cases hs with ⟨entry, t, rfl, -⟩ | ⟨i, transfers, t, -, hi, hnot, ht, rfl⟩ |
    ⟨i, -, hi, hidle, rfl⟩ | ⟨i, t, -, ht, rfl⟩
  · exact absurd rfl (hne entry)
  · obtain ⟨hidle, -⟩ := start_cases ht
    exact absurd ⟨hi, (List.getElem?_eq_some_iff.mp hidle).1, hnot⟩ (hno i)
  · refine ⟨?_, hspawn⟩
    rintro j ⟨hj, hlt, hmem⟩
    exact hno j ⟨hj, hlt, fun hended => hmem (List.mem_cons_of_mem i hended)⟩
  · obtain ⟨op, p, hp, hrest⟩ := next_rest ht
    obtain rfl := h.lone_busy hno hp (by simp)
    have hmem := hspawn _ hp
    rw [List.mem_cons, not_or] at hmem
    have hset : t.rest = s.tasks.rest.set 0 p := by
      rcases hrest with hrest | ⟨rfl, -⟩
      · exact hrest
      · exact absurd rfl hmem.1
    constructor
    · rintro j ⟨hj, hlt, hended⟩
      rw [hset, List.length_set] at hlt
      exact hno j ⟨hj, hlt, hended⟩
    · intro q hq
      rw [hset] at hq
      rcases getElem?_set_cases hq with ⟨-, rfl⟩ | ⟨hne, -⟩
      · exact hmem.2
      · exact absurd rfl hne

/-- Either all tasks keep to one order, or only the receive task goes on. -/
def Safe (s : LockState) : Prop := Lawful (fun _ => Ranked mutexRank) s.tasks ∨ Lone s

theorem LockState.Inv.not_deadlocked (h : s.Inv) (hsafe : Safe s) : ¬ Deadlocked s := by
  rcases hsafe with hranked | hlone
  · exact ranked_not_deadlocked hranked
  · exact h.lone_not_deadlocked hlone.1

theorem LockState.Inv.receive_safe (h : s.Inv) {entry : EntryPoint}
    (hs : LockStep s (.receive entry) s') (he : entry.InOrder ∨ ∀ i, ¬ s.Alive i) : Safe s' := by
  obtain ⟨t, ht, rfl⟩ := Option.map_eq_some_iff.mp hs
  obtain ⟨hidle, heq⟩ := start_cases ht
  by_cases horder : entry.InOrder
  · exact Or.inl ((h.ranked hidle).start (program_ranked horder) ht)
  · have hno := he.resolve_left horder
    subst heq
    right
    constructor
    · rintro i ⟨hi, hlt, hended⟩
      rw [List.length_set] at hlt
      exact hno i ⟨hi, hlt, hended⟩
    · intro p hp
      rcases getElem?_set_cases hp with ⟨-, rfl⟩ | ⟨hne, -⟩
      · rw [program_of_not_inOrder horder]
        simp
      · exact absurd rfl hne

theorem LockState.Inv.step_safe (h : s.Inv) (hsafe : Safe s) (hs : LockStep s e s')
    (hg : Admissible s e) : Safe s' := by
  by_cases he : ∃ entry, e = .receive entry
  · obtain ⟨entry, rfl⟩ := he
    exact h.receive_safe hs (hg entry rfl)
  · push Not at he
    rcases hsafe with hranked | hlone
    · left
      rcases lockStep_cases hs with ⟨entry, t, rfl, -⟩ | ⟨i, transfers, t, -, -, -, ht, rfl⟩ |
        ⟨i, -, -, -, rfl⟩ | ⟨i, t, -, ht, rfl⟩
      · exact absurd rfl (he entry)
      · exact hranked.start (statusRound_ranked transfers) ht
      · exact hranked
      · exact hranked.next ht
    · exact Or.inr (lone_step h hlone hs he)

theorem admissible_run {l : List (Transition LockState LockEvent)} (h : Run LockStep s l s')
    (hs : s.Inv ∧ Safe s) (hl : ∀ t ∈ l, Admissible t.source t.label) :
    (s'.Inv ∧ Safe s') ∧ ∀ t ∈ l, t.target.Inv ∧ Safe t.target := by
  have hrun := h.guarded (I := fun s => s.Inv ∧ Safe s) hs
    (fun s e s' hinv hstep hg => ⟨hinv.1.step hstep, hinv.1.step_safe hinv.2 hstep hg⟩) hl
  exact ⟨hrun.1, fun t ht => (hrun.2 t ht).2.1⟩

/-- No run comes to a deadlock in which nothing that takes `blockdb` first is started while there is
a status loop. -/
theorem in_order_deadlock_free {l : List (Transition LockState LockEvent)}
    (h : Run LockStep .init l s) (hl : ∀ t ∈ l, Admissible t.source t.label) :
    ∀ t ∈ l, ¬ Deadlocked t.target := by
  have hinit : LockState.init.Inv ∧ Safe .init := ⟨.init, Or.inl Lawful.init⟩
  intro t ht
  obtain ⟨hinv, hsafe⟩ := (admissible_run h hinit hl).2 t ht
  exact hinv.not_deadlocked hsafe

instance : DecidablePred EntryPoint.InOrder
  | .unconnectedRootUpdate false => isFalse id
  | .blockRequest => isFalse id
  | .unconnectedRootUpdate true => isTrue trivial
  | .clientState => isTrue trivial
  | .needsUpdate => isTrue trivial
  | .rootUpdateResponse => isTrue trivial
  | .blockRequestResponse _ => isTrue trivial
  | .transferPayload => isTrue trivial
  | .transferStatus => isTrue trivial
  | .transferRound _ => isTrue trivial

theorem not_alive_iff : (∀ i, ¬ s.Alive i) ↔ ∀ i < s.tasks.rest.length, i = 0 ∨ i ∈ s.ended := by
  constructor
  · intro h i hi
    by_contra hnot
    rw [not_or] at hnot
    exact h i ⟨hnot.1, hi, hnot.2⟩
  · rintro h i ⟨hne, hi, hnot⟩
    exact (h i hi).elim hne hnot

instance (s : LockState) : (e : LockEvent) → Decidable (Admissible s e)
  | .receive entry =>
    decidable_of_iff (entry.InOrder ∨ ∀ i < s.tasks.rest.length, i = 0 ∨ i ∈ s.ended) (by
      simp [Admissible, not_alive_iff])
  | .status _ _ => isTrue (by rintro _ ⟨⟩)
  | .ended _ => isTrue (by rintro _ ⟨⟩)
  | .next _ => isTrue (by rintro _ ⟨⟩)

/-- Each event, if it can happen and is admissible. -/
def tryLock (s : LockState) (e : LockEvent) : Result LockState := do
  Result.assert (Admissible s e)
  Result.unwrap (lockStep s e)

theorem tryLock_ok (h : tryLock s e = .ok s') : LockStep s e s' ∧ Admissible s e := by
  obtain ⟨_, hcheck, h⟩ := Result.bind_eq_ok.mp h
  rw [Result.assert_eq_ok] at hcheck
  exact ⟨Result.unwrap_eq_ok.mp h, hcheck⟩

/-- A status loop is launched, reads a block while a payload comes in, and ends, and then a block
request is answered. -/
theorem in_order_deadlock_free_one_loop :
    ∃ l s, Run LockStep .init l s ∧ s.tasks.rest = [[], []] ∧ s.ended = [1] ∧
      ∀ t ∈ l, ¬ Deadlocked t.target := by
  have hrun : (do
      let s ← replay tryLock .init
        [.receive (.blockRequestResponse true), .next 0, .next 0, .next 0, .next 0, .status 1 1,
          .next 0, .next 1, .receive .transferPayload, .next 1, .next 1, .next 1, .next 0, .next 0,
          .next 0, .next 0, .ended 1, .receive .blockRequest, .next 0, .next 0, .next 0, .next 0]
      return (s.tasks.rest, s.ended)) = .ok ([[], []], [1]) := by decide +kernel
  obtain ⟨s, hs, hrun⟩ := Result.bind_eq_ok.mp hrun
  simp only [Result.pure_def, Result.ok.injEq, Prod.mk.injEq] at hrun
  obtain ⟨l, hl, hall⟩ : ∃ l, Run LockStep .init l s ∧ ∀ t ∈ l, Admissible t.source t.label :=
    replay_run (fun _ _ _ h => tryLock_ok h) hs
  exact ⟨l, s, hl, hrun.1, hrun.2, in_order_deadlock_free hl hall⟩

/-- While the status loop of one client is about to read its block, another client sends an update. -/
theorem second_client_deadlocks : ∃ l s, Run LockStep .init l s ∧ Deadlocked s := by
  have hrun : (do
      let s ← replay (fun s e => Result.unwrap (lockStep s e)) .init
        [.receive (.blockRequestResponse true), .next 0, .next 0, .next 0, .next 0, .next 0,
          .receive .clientState, .next 0, .next 0, .status 1 1, .next 1,
          .receive (.unconnectedRootUpdate false), .next 0]
      return (s.tasks.owner .clients, s.tasks.owner .blockdb, s.tasks.rest)) = .ok (some 1, some 0,
        [[.lock .clients, .unlock .clients, .unlock .blockdb],
          [.lock .blockdb, .unlock .blockdb, .unlock .clients]]) := by decide +kernel
  obtain ⟨s, hs, hrun⟩ := Result.bind_eq_ok.mp hrun
  simp only [Result.pure_def, Result.ok.injEq, Prod.mk.injEq] at hrun
  obtain ⟨hclients, hblockdb, hrest⟩ := hrun
  obtain ⟨l, hl⟩ : Reachable LockStep .init s :=
    replay_reachable (fun s e t h => Result.unwrap_eq_ok.mp h) hs
  exact ⟨l, s, hl, 1, 0, hclients, ⟨_, by rw [hrest]; rfl⟩, hblockdb, ⟨_, by rw [hrest]; rfl⟩⟩

/-! ## What is not admissible -/

/-- What the tasks are at can end in a deadlock before the receive task takes up anything else. -/
def Endangered (s : LockState) : Prop :=
  ∃ l t, Run LockStep s l t ∧ (∀ r ∈ l, ∀ entry, r.label ≠ .receive entry) ∧ Deadlocked t

theorem LockState.Inv.not_endangered (h : s.Inv) (hsafe : Safe s) : ¬ Endangered s := by
  rintro ⟨l, t, hl, hno, hdead⟩
  have hadmissible : ∀ r ∈ l, Admissible r.source r.label :=
    fun r hr entry he => absurd he (hno r hr entry)
  obtain ⟨⟨hinv, hsafe⟩, -⟩ := admissible_run hl ⟨h, hsafe⟩ hadmissible
  exact hinv.not_deadlocked hsafe hdead

theorem Endangered.of_step (h : Endangered s') (hs : LockStep s e s')
    (he : ∀ entry, e ≠ .receive entry) : Endangered s := by
  obtain ⟨l, t, hl, hno, hdead⟩ := h
  refine ⟨_, t, (Run.nil.snoc hs).trans hl, ?_, hdead⟩
  rw [List.forall_mem_append]
  exact ⟨by simpa using he, hno⟩

theorem Endangered.of_next {t : Tasks Mutex} {i : Nat} (ht : s.tasks.next i = some t)
    (h : Endangered { s with tasks := t }) : Endangered s :=
  h.of_step (e := .next i) (Option.map_eq_some_iff.mpr ⟨t, ht, rfl⟩) (by simp)

theorem Endangered.of_status {t : Tasks Mutex} {i transfers : Nat} (hi : i ≠ 0) (hended : i ∉ s.ended)
    (ht : s.tasks.start i (statusRound transfers) = some t) (h : Endangered { s with tasks := t }) :
    Endangered s := by
  refine h.of_step (e := .status i transfers) ?_ (by simp)
  rw [LockStep, lockStep, if_neg (by simp [hi, hended]), ht, Option.map_some]

theorem Endangered.of_reachable {t : Tasks Mutex} (h : Reachable Goes s.tasks t)
    (ht : Endangered { s with tasks := t }) : Endangered s := by
  obtain ⟨l, hl⟩ := h
  induction hl with
  | nil => exact ht
  | snoc _ hgoes ih => exact ih (.of_next hgoes ht)

theorem Endangered.of_deadlocked (h : Deadlocked s) : Endangered s := ⟨[], s, .nil, by simp, h⟩

theorem endangered_of_waiting {i : Nat} {p : List (Op Mutex)} (hfree : ∀ m, s.tasks.owner m = none)
    (h0 : s.tasks.rest[0]? = some (.lock .blockdb :: .lock .clients :: p)) (hi : s.Alive i)
    (hidle : s.tasks.rest[i]? = some []) : Endangered s := by
  obtain ⟨hne, hlt, hended⟩ := hi
  have hzero : 0 < s.tasks.rest.length := by omega
  let rest₁ := s.tasks.rest.set i (statusRound 1)
  let rest₂ := rest₁.set i (statusReads 1)
  let owner₂ := Function.update s.tasks.owner .clients (some i)
  have hround : s.tasks.start i (statusRound 1) = some { s.tasks with rest := rest₁ } :=
    start_of_idle hidle _
  have hclients : Tasks.next { s.tasks with rest := rest₁ } i = some ⟨owner₂, rest₂⟩ :=
    next_lock (List.getElem?_set_self hlt) (hfree .clients)
  have hblockdb : Tasks.next ⟨owner₂, rest₂⟩ 0 =
      some ⟨Function.update owner₂ .blockdb (some 0), rest₂.set 0 (.lock .clients :: p)⟩ := by
    refine next_lock ?_ (hfree .blockdb)
    rw [List.getElem?_set_ne hne, List.getElem?_set_ne hne, h0]
  refine .of_status hne hended hround (.of_next hclients (.of_next hblockdb ?_))
  refine .of_deadlocked ⟨i, 0, rfl, ⟨[.unlock .blockdb, .unlock .clients], ?_⟩, rfl, p, ?_⟩
  · rw [List.getElem?_set_ne hne.symm]
    exact List.getElem?_set_self (by simpa [rest₁] using hlt)
  · exact List.getElem?_set_self (by simpa [rest₂, rest₁] using hzero)

/-- The tasks can come to a deadlock over what the receive task takes up if and only if that takes
`blockdb` first and there is a status loop. -/
theorem endangered_receive_iff (h : Reachable LockStep .init s) {entry : EntryPoint}
    (hs : LockStep s (.receive entry) s') :
    Endangered s' ↔ ¬ entry.InOrder ∧ ∃ i, s.Alive i := by
  have hinv : s.Inv := h.invariant .init fun _ _ _ hinv hstep => hinv.step hstep
  constructor
  · intro hdanger
    by_contra hnot
    refine (hinv.step hs).not_endangered (hinv.receive_safe hs ?_) hdanger
    by_cases horder : entry.InOrder
    · exact Or.inl horder
    · exact Or.inr fun i hi => hnot ⟨horder, i, hi⟩
  · rintro ⟨horder, i, hi, hlt, hended⟩
    obtain ⟨u, hu, rfl⟩ := Option.map_eq_some_iff.mp hs
    obtain ⟨hidle, -⟩ := start_cases hu
    obtain ⟨t, ht, hdone⟩ := (hinv.ranked hidle).drains
    obtain ⟨v, hv, hreach⟩ := start_reachable hu ht
    obtain ⟨-, rfl⟩ := start_cases hv
    have hle := length_goes ht
    refine Endangered.of_reachable (s := { s with tasks := u }) hreach ?_
    have hready : ∀ j, j < t.rest.length → t.rest[j]? = some [] := by
      intro j hj
      rw [List.getElem?_eq_getElem hj, hdone _ (List.getElem_mem _)]
    have hwaiting : (t.rest.set 0 entry.program)[0]? =
        some (.lock .blockdb :: .lock .clients :: [.unlock .clients, .unlock .blockdb]) := by
      rw [List.getElem?_set_self (by omega), program_of_not_inOrder horder]
    refine endangered_of_waiting ((hinv.lawful.goes ht).free hdone) hwaiting
      ⟨hi, by simpa using hlt.trans_le hle, hended⟩ ?_
    rw [List.getElem?_set_ne hi.symm, hready i (hlt.trans_le hle)]

/-! ## One order -/

/-- Without the two functions that take `blockdb` first no tasks wait for each other, however many
status loops there are. -/
theorem in_order_no_circular_wait {l : List (Transition LockState LockEvent)}
    (h : Run LockStep .init l s) (hl : ∀ t ∈ l, ∀ e, t.label = .receive e → e.InOrder) (i : Nat) :
    ¬ Relation.TransGen s.tasks.WaitsFor i i := by
  suffices hlawful : Lawful (fun _ => Ranked mutexRank) s.tasks from no_circular_wait hlawful i
  refine (h.guarded (I := fun s => Lawful (fun _ => Ranked mutexRank) s.tasks) Lawful.init ?_ hl).1
  intro s e s' hinv hs hg
  rcases lockStep_cases hs with ⟨entry, t, rfl, ht, rfl⟩ | ⟨i, transfers, t, -, -, -, ht, rfl⟩ |
    ⟨i, -, -, -, rfl⟩ | ⟨i, t, -, ht, rfl⟩
  · exact hinv.start (program_ranked (hg entry rfl)) ht
  · exact hinv.start (statusRound_ranked transfers) ht
  · exact hinv
  · exact hinv.next ht

end DasProtokoll.Scsync
