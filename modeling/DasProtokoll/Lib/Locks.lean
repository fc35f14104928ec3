import DasProtokoll.Lib.Run
import Mathlib.Algebra.GroupWithZero.Nat
import Mathlib.Algebra.Order.BigOperators.Group.List
import Mathlib.Algebra.Order.Group.Nat
import Mathlib.Data.List.Basic
import Mathlib.Order.BooleanAlgebra.Set
import Mathlib.Logic.Function.Basic
import Mathlib.Logic.Relation

/-!
# Tasks that take mutexes

Each task runs one program of lock operations after the other. A task that wants a
mutex of another one waits, and a cycle of such tasks waits for ever. Tasks that take
their mutexes in one order form no cycle, and all of them come to their ends.
-/

namespace DasProtokoll.Locks

variable {M : Type*}

inductive Op (M : Type*) where
  | lock (m : M)
  | unlock (m : M)
  /-- A new task, which waits for its first program. -/
  | spawn
  deriving DecidableEq

/-- Who holds each mutex, and what each task has left of its program. -/
structure Tasks (M : Type*) where
  owner : M → Option Nat
  rest : List (List (Op M))

namespace Tasks

/-- One task, which holds nothing. -/
def init : Tasks M := { owner := fun _ => none, rest := [[]] }

def Wants (s : Tasks M) (i : Nat) (m : M) : Prop := ∃ p, s.rest[i]? = some (.lock m :: p)

/-- Task `i` waits for a mutex that task `j` holds. -/
def WaitsFor (s : Tasks M) (i j : Nat) : Prop := ∃ m, s.Wants i m ∧ s.owner m = some j

def held (s : Tasks M) (i : Nat) : Set M := { m | s.owner m = some i }

theorem Wants.unique {s : Tasks M} {i : Nat} {m m' : M} (h : s.Wants i m) (h' : s.Wants i m') :
    m = m' := by
  obtain ⟨p, hp⟩ := h
  obtain ⟨p', hp'⟩ := h'
  rw [hp, Option.some.injEq, List.cons.injEq, Op.lock.injEq] at hp'
  exact hp'.1

/-- No task has anything to do. -/
def Idle (s : Tasks M) : Prop := ∀ p ∈ s.rest, p = []

def remaining (s : Tasks M) : Nat := (s.rest.map List.length).sum

def start (s : Tasks M) (i : Nat) (program : List (Op M)) : Option (Tasks M) :=
  match s.rest[i]? with
  | some [] => some { s with rest := s.rest.set i program }
  | _ => none

variable [DecidableEq M]

def next (s : Tasks M) (i : Nat) : Option (Tasks M) :=
  match s.rest[i]? with
  | some (.lock m :: p) =>
    if s.owner m = none then
      some { owner := Function.update s.owner m (some i), rest := s.rest.set i p }
    else none
  | some (.unlock m :: p) =>
    some { owner := Function.update s.owner m none, rest := s.rest.set i p }
  | some (.spawn :: p) => some { s with rest := s.rest.set i p ++ [[]] }
  | _ => none

end Tasks

/-! ## Programs -/

/-- From the mutexes in `H` on, the program takes what it does not hold, and only where `R` lets it,
gives back what it holds, and ends with nothing. -/
def Disciplined (R : Set M → M → Prop) : Set M → List (Op M) → Prop
  | H, [] => H = ∅
  | H, .lock m :: p => m ∉ H ∧ R H m ∧ Disciplined R (insert m H) p
  | H, .unlock m :: p => m ∈ H ∧ Disciplined R (H \ {m}) p
  | H, .spawn :: p => Disciplined R H p

/-- Each task is in the middle of a program that is disciplined for this task. -/
def Lawful (R : Nat → Set M → M → Prop) (s : Tasks M) : Prop :=
  (∀ m i, s.owner m = some i → i < s.rest.length) ∧
    ∀ i p, s.rest[i]? = some p → Disciplined (R i) (s.held i) p

/-- Mutexes are taken in the order of their ranks. -/
def Ranked (rank : M → Nat) (H : Set M) (m : M) : Prop := ∀ h ∈ H, rank h < rank m

variable {R : Nat → Set M → M → Prop} {s s' : Tasks M} {i j : Nat} {m : M}

section Disciplined

variable {R : Set M → M → Prop} {H : Set M} {p : List (Op M)}

@[simp] theorem disciplined_nil : Disciplined R H [] ↔ H = ∅ := Iff.rfl

@[simp] theorem disciplined_lock :
    Disciplined R H (.lock m :: p) ↔ m ∉ H ∧ R H m ∧ Disciplined R (insert m H) p := Iff.rfl

@[simp] theorem disciplined_spawn :
    Disciplined R H (.spawn :: p) ↔ Disciplined R H p := Iff.rfl

@[simp] theorem disciplined_unlock (hm : m ∉ H) :
    Disciplined R (insert m H) (.unlock m :: p) ↔ Disciplined R H p := by
  rw [Disciplined, Set.insert_sdiff_self_of_notMem hm]
  simp

@[simp] theorem disciplined_unlock_only : Disciplined R {m} (.unlock m :: p) ↔ Disciplined R ∅ p := by
  rw [← insert_empty_eq, disciplined_unlock (Set.notMem_empty m)]

end Disciplined

theorem Lawful.init : Lawful R (Tasks.init : Tasks M) := by
  refine ⟨?_, ?_⟩
  · rintro m i ⟨⟩
  · intro i p hp
    have hi : i = 0 := by
      have := List.getElem?_eq_some_iff.mp hp
      obtain ⟨hlt, -⟩ := this
      simpa [Tasks.init] using hlt
    subst hi
    cases hp
    rw [Disciplined]
    ext m
    simp [Tasks.held, Tasks.init]

theorem Lawful.wants (h : Lawful R s) (hw : s.Wants i m) :
    R i (s.held i) m ∧ s.owner m ≠ some i := by
  obtain ⟨p, hp⟩ := hw
  obtain ⟨hnot, hR, -⟩ := h.2 i _ hp
  exact ⟨hR, hnot⟩

theorem Lawful.idle (h : Lawful R s) (hi : s.rest[i]? = some []) : s.owner m ≠ some i := by
  intro hm
  have hempty : s.held i = ∅ := h.2 i [] hi
  have hmem : m ∈ s.held i := hm
  rw [hempty] at hmem
  exact hmem

theorem Lawful.free (h : Lawful R s) (hidle : s.Idle) (m : M) : s.owner m = none := by
  cases howner : s.owner m with
  | none => rfl
  | some i =>
    have hp := List.getElem?_eq_getElem (h.1 m i howner)
    rw [hidle _ (List.getElem_mem _)] at hp
    exact absurd howner (h.idle hp)

theorem start_cases {program : List (Op M)} (h : s.start i program = some s') :
    s.rest[i]? = some [] ∧ s' = { s with rest := s.rest.set i program } := by
  unfold Tasks.start at h
  split at h
  · rename_i hp
    exact ⟨hp, (Option.some.inj h).symm⟩
  · cases h

theorem getElem?_set_cases {rest : List (List (Op M))} {p q : List (Op M)}
    (h : (rest.set i p)[j]? = some q) : j = i ∧ q = p ∨ j ≠ i ∧ rest[j]? = some q := by
  rw [List.getElem?_set] at h
  split at h
  · rename_i hij
    split at h
    · exact Or.inl ⟨hij.symm, (Option.some.inj h).symm⟩
    · cases h
  · rename_i hij
    exact Or.inr ⟨Ne.symm hij, h⟩

theorem start_other {program : List (Op M)} (hne : i ≠ j) (h : s.start i program = some s') :
    s'.rest[j]? = s.rest[j]? := by
  obtain ⟨-, rfl⟩ := start_cases h
  rw [List.getElem?_set_ne hne]

theorem start_of_idle (h : s.rest[i]? = some []) (program : List (Op M)) :
    s.start i program = some { s with rest := s.rest.set i program } := by
  simp only [Tasks.start, h]

theorem Lawful.start (h : Lawful R s) {program : List (Op M)} (hprogram : Disciplined (R i) ∅ program)
    (hs : s.start i program = some s') : Lawful R s' := by
  obtain ⟨hp, rfl⟩ := start_cases hs
  have hempty : s.held i = ∅ := h.2 i [] hp
  constructor
  · intro m j hm
    rw [List.length_set]
    exact h.1 m j hm
  · intro j q hq
    rcases getElem?_set_cases hq with ⟨rfl, rfl⟩ | ⟨-, hq⟩
    · exact hempty ▸ hprogram
    · exact h.2 j q hq

theorem new_task {rest : List (List (Op M))} {p q : List (Op M)} (hj : ¬ j < rest.length)
    (h : (rest.set i p ++ [[]])[j]? = some q) : q = [] := by
  rw [List.getElem?_append_right (by rw [List.length_set]; omega), List.length_set] at h
  cases hk : j - rest.length with
  | zero =>
    rw [hk] at h
    exact (Option.some.inj h).symm
  | succ k =>
    rw [hk] at h
    cases h

theorem held_sdiff {j : Nat} (hj : s.owner m ≠ some j) : s.held j \ {m} = s.held j :=
  Set.sdiff_singleton_eq_self hj

section Step

variable [DecidableEq M]

theorem held_update (o : Option Nat) (rest : List (List (Op M))) (j : Nat) :
    Tasks.held { owner := Function.update s.owner m o, rest } j =
      if o = some j then insert m (s.held j) else s.held j \ {m} := by
  ext m'
  simp only [Tasks.held, Function.update_apply, Set.mem_ofPred_eq]
  by_cases hm' : m' = m
  · subst hm'
    by_cases ho : o = some j <;> simp [ho]
  · by_cases ho : o = some j <;> simp [ho, hm']

theorem held_lock (hm : s.owner m = none) (rest : List (List (Op M))) (j : Nat) :
    Tasks.held { owner := Function.update s.owner m (some i), rest } j =
      if j = i then insert m (s.held j) else s.held j := by
  rw [held_update]
  by_cases hj : j = i
  · rw [if_pos hj, if_pos (by rw [hj])]
  · rw [if_neg hj, if_neg (by simpa using Ne.symm hj), held_sdiff (by simp [hm])]

theorem held_unlock (hm : s.owner m = some i) (rest : List (List (Op M))) (j : Nat) :
    Tasks.held { owner := Function.update s.owner m none, rest } j =
      if j = i then s.held j \ {m} else s.held j := by
  rw [held_update, if_neg (by simp)]
  by_cases hj : j = i
  · rw [if_pos hj]
  · rw [if_neg hj, held_sdiff (by simpa [hm] using Ne.symm hj)]

theorem next_cases (h : s.next i = some s') :
    (∃ m p, s.rest[i]? = some (.lock m :: p) ∧ s.owner m = none ∧
      s' = { owner := Function.update s.owner m (some i), rest := s.rest.set i p }) ∨
    (∃ m p, s.rest[i]? = some (.unlock m :: p) ∧
      s' = { owner := Function.update s.owner m none, rest := s.rest.set i p }) ∨
    ∃ p, s.rest[i]? = some (.spawn :: p) ∧ s' = { s with rest := s.rest.set i p ++ [[]] } := by
  unfold Tasks.next at h
  split at h
  · rename_i m p hp
    split at h
    · exact Or.inl ⟨m, p, hp, by assumption, (Option.some.inj h).symm⟩
    · cases h
  · rename_i m p hp
    exact Or.inr (Or.inl ⟨m, p, hp, (Option.some.inj h).symm⟩)
  · rename_i p hp
    exact Or.inr (Or.inr ⟨p, hp, (Option.some.inj h).symm⟩)
  · cases h

theorem next_rest (h : s.next i = some s') : ∃ op p, s.rest[i]? = some (op :: p) ∧
    (s'.rest = s.rest.set i p ∨ op = .spawn ∧ s'.rest = s.rest.set i p ++ [[]]) := by
  rcases next_cases h with ⟨m, p, hp, -, rfl⟩ | ⟨m, p, hp, rfl⟩ | ⟨p, hp, rfl⟩
  · exact ⟨_, p, hp, Or.inl rfl⟩
  · exact ⟨_, p, hp, Or.inl rfl⟩
  · exact ⟨_, p, hp, Or.inr ⟨rfl, rfl⟩⟩

theorem next_length (h : s.next i = some s') : s.rest.length ≤ s'.rest.length := by
  obtain ⟨op, p, -, hrest⟩ := next_rest h
  rcases hrest with hrest | ⟨-, hrest⟩ <;> simp [hrest]

theorem next_lock {p : List (Op M)} (hp : s.rest[i]? = some (.lock m :: p)) (hm : s.owner m = none) :
    s.next i = some { owner := Function.update s.owner m (some i), rest := s.rest.set i p } := by
  simp only [Tasks.next, hp, hm, if_true]

theorem next_idle (hj : s.rest[j]? = some []) (h : s.next i = some s') : s'.rest[j]? = some [] := by
  obtain ⟨op, p, hp, hrest⟩ := next_rest h
  have hne : i ≠ j := by
    rintro rfl
    cases hj.symm.trans hp
  have hset : (s.rest.set i p)[j]? = some [] := by rw [List.getElem?_set_ne hne, hj]
  rcases hrest with hrest | ⟨-, hrest⟩
  · rw [hrest, hset]
  · rw [hrest, List.getElem?_append_left (List.getElem?_eq_some_iff.mp hset).1, hset]

theorem Lawful.next (h : Lawful R s) (hs : s.next i = some s') : Lawful R s' := by
  rcases next_cases hs with ⟨m, p, hp, hm, rfl⟩ | ⟨m, p, hp, rfl⟩ | ⟨p, hp, rfl⟩
  · obtain ⟨hlt, -⟩ := List.getElem?_eq_some_iff.mp hp
    constructor
    · intro m' j hj
      simp only [Function.update_apply] at hj
      rw [List.length_set]
      split at hj
      · exact Option.some.inj hj ▸ hlt
      · exact h.1 m' j hj
    · intro j q hq
      rw [held_lock hm]
      rcases getElem?_set_cases hq with ⟨rfl, rfl⟩ | ⟨hne, hq⟩
      · rw [if_pos rfl]
        exact (h.2 j _ hp).2.2
      · rw [if_neg hne]
        exact h.2 j q hq
  · have hm : s.owner m = some i := (h.2 i _ hp).1
    constructor
    · intro m' j hj
      simp only [Function.update_apply] at hj
      rw [List.length_set]
      split at hj
      · cases hj
      · exact h.1 m' j hj
    · intro j q hq
      rw [held_unlock hm]
      rcases getElem?_set_cases hq with ⟨rfl, rfl⟩ | ⟨hne, hq⟩
      · rw [if_pos rfl]
        exact (h.2 j _ hp).2
      · rw [if_neg hne]
        exact h.2 j q hq
  · constructor
    · intro m j hj
      have := h.1 m j hj
      rw [List.length_append, List.length_set]
      omega
    · intro j q hq
      by_cases hj : j < s.rest.length
      · rw [List.getElem?_append_left (by rwa [List.length_set])] at hq
        rcases getElem?_set_cases hq with ⟨rfl, rfl⟩ | ⟨-, hq⟩
        · exact disciplined_spawn.mp (h.2 j _ hp)
        · exact h.2 j q hq
      · -- The new task holds nothing.
        have hempty : s.held j = ∅ := by
          ext m
          rw [Set.mem_empty_iff_false, iff_false]
          intro hm
          exact hj (h.1 m j hm)
        rw [new_task hj hq]
        exact hempty

end Step

/-! ## Cycles of waiting tasks -/

/-- The wanted ranks rise along a chain of waiting tasks, so no task waits for itself. -/
theorem no_circular_wait {rank : M → Nat} (h : Lawful (fun _ => Ranked rank) s) (i : Nat) :
    ¬ Relation.TransGen s.WaitsFor i i := by
  have hrise : ∀ j, Relation.TransGen s.WaitsFor i j →
      ∀ m m', s.Wants i m → s.Wants j m' → rank m < rank m' := by
    intro j hj
    induction hj with
    | single hij =>
      obtain ⟨m₀, hm₀, howner⟩ := hij
      intro m m' hm hm'
      rw [hm.unique hm₀]
      exact (h.wants hm').1 _ howner
    | tail _ hjk ih =>
      obtain ⟨m₁, hm₁, howner⟩ := hjk
      intro m m' hm hm'
      exact lt_trans (ih m m₁ hm hm₁) ((h.wants hm').1 _ howner)
  intro hcycle
  obtain ⟨j, ⟨m, hm, -⟩, -⟩ := Relation.TransGen.head'_iff.mp hcycle
  exact lt_irrefl _ (hrise i hcycle m m hm hm)

/-! ## Tasks that come to their ends -/

/-- The rank of the mutex that a task wants. -/
def wantedRank (rank : M → Nat) : List (Op M) → Nat
  | .lock m :: _ => rank m
  | _ => 0

theorem wants_bounded (rank : M → Nat) (s : Tasks M) : ∃ n, ∀ i m, s.Wants i m → rank m ≤ n := by
  refine ⟨(s.rest.map (wantedRank rank)).sum, ?_⟩
  rintro i m ⟨p, hp⟩
  have hmem : wantedRank rank (.lock m :: p) ∈ s.rest.map (wantedRank rank) :=
    List.mem_map_of_mem (List.mem_of_getElem? hp)
  exact List.single_le_sum (by simp) _ hmem

section Step

variable [DecidableEq M]

theorem waits_of_stuck {p : List (Op M)} (hp : s.rest[i]? = some p) (hne : p ≠ [])
    (hstuck : s.next i = none) : ∃ m j, s.Wants i m ∧ s.owner m = some j := by
  unfold Tasks.next at hstuck
  rw [hp] at hstuck
  cases p with
  | nil => exact absurd rfl hne
  | cons op p =>
    cases op with
    | lock m =>
      cases howner : s.owner m with
      | none => simp [howner] at hstuck
      | some j => exact ⟨m, j, ⟨p, hp⟩, howner⟩
    | unlock m => cases hstuck
    | spawn => cases hstuck

theorem Lawful.progress {rank : M → Nat} (h : Lawful (fun _ => Ranked rank) s) (hbusy : ¬ s.Idle) :
    ∃ i s', s.next i = some s' := by
  by_contra! hall
  have hstuck : ∀ i, s.next i = none := fun i => Option.eq_none_iff_forall_ne_some.mpr (hall i)
  have hrise : ∀ n, ∃ i m, s.Wants i m ∧ n ≤ rank m := by
    intro n
    induction n with
    | zero =>
      unfold Tasks.Idle at hbusy
      push Not at hbusy
      obtain ⟨p, hp, hne⟩ := hbusy
      obtain ⟨i, hi⟩ := List.getElem?_of_mem hp
      obtain ⟨m, -, hm, -⟩ := waits_of_stuck hi hne (hstuck i)
      exact ⟨i, m, hm, Nat.zero_le _⟩
    | succ n ih =>
      obtain ⟨i, m, hm, hn⟩ := ih
      obtain ⟨p, hp⟩ := hm
      obtain ⟨m₁, j, hm₁, howner⟩ := waits_of_stuck hp (by simp) (hstuck i)
      rw [hm₁.unique ⟨p, hp⟩] at howner
      -- The owner has to give the mutex back, so that it is not done.
      obtain ⟨q, hq⟩ : ∃ q, s.rest[j]? = some q := by
        have hlt := h.1 m j howner
        exact ⟨_, List.getElem?_eq_getElem hlt⟩
      have hne : q ≠ [] := by
        rintro rfl
        exact h.idle hq howner
      obtain ⟨m', -, hm', -⟩ := waits_of_stuck hq hne (hstuck j)
      exact ⟨j, m', hm', Nat.lt_of_le_of_lt hn ((h.wants hm').1 m howner)⟩
  obtain ⟨n, hn⟩ := wants_bounded rank s
  obtain ⟨i, m, hm, hlt⟩ := hrise (n + 1)
  exact absurd (hn i m hm) (by omega)

omit [DecidableEq M] in
theorem remaining_set {rest : List (List (Op M))} {op : Op M} {p : List (Op M)}
    (h : rest[i]? = some (op :: p)) :
    ((rest.set i p).map List.length).sum + 1 = (rest.map List.length).sum := by
  induction rest generalizing i with
  | nil => simp at h
  | cons q rest ih =>
    cases i with
    | zero =>
      obtain rfl : q = op :: p := by simpa using h
      simp
      omega
    | succ i =>
      have := ih (i := i) (by simpa using h)
      simp only [List.set_cons_succ, List.map_cons, List.sum_cons]
      omega

theorem remaining_next (h : s.next i = some s') : s'.remaining + 1 = s.remaining := by
  obtain ⟨op, p, hp, hrest⟩ := next_rest h
  have hset := remaining_set hp
  unfold Tasks.remaining
  rcases hrest with hrest | ⟨-, hrest⟩
  · rw [hrest, hset]
  · rw [hrest, ← hset]
    simp

/-- One operation after the other, of whichever task can go on. -/
def Goes (s : Tasks M) (i : Nat) (s' : Tasks M) : Prop := s.next i = some s'

theorem Lawful.goes {t : Tasks M} (h : Lawful R s) (ht : Reachable Goes s t) : Lawful R t :=
  ht.invariant h fun _ _ _ hlawful hs => hlawful.next hs

theorem length_goes {t : Tasks M} (ht : Reachable Goes s t) : s.rest.length ≤ t.rest.length :=
  ht.invariant (I := fun t => s.rest.length ≤ t.rest.length) le_rfl
    fun _ _ _ hle hs => hle.trans (next_length hs)

/-- Tasks that take their mutexes in one order all come to their ends. -/
theorem Lawful.drains {rank : M → Nat} (h : Lawful (fun _ => Ranked rank) s) :
    ∃ t, Reachable Goes s t ∧ t.Idle := by
  induction hn : s.remaining generalizing s with
  | zero =>
    refine ⟨s, .refl, ?_⟩
    intro p hp
    have hle : p.length ≤ s.remaining :=
      List.single_le_sum (by simp) _ (List.mem_map_of_mem hp)
    exact List.length_eq_zero_iff.mp (by omega)
  | succ n ih =>
    by_cases hidle : s.Idle
    · exact ⟨s, .refl, hidle⟩
    · obtain ⟨i, s', hs⟩ := h.progress hidle
      have hless := remaining_next hs
      obtain ⟨t, ht, hdone⟩ := ih (h.next hs) (by omega)
      exact ⟨t, (Reachable.refl.snoc (a := i) hs).trans ht, hdone⟩

theorem start_goes {program : List (Op M)} {u : Tasks M} (hstart : s.start j program = some u)
    (h : Goes s i s') : ∃ u', s'.start j program = some u' ∧ Goes u i u' := by
  obtain ⟨hj, rfl⟩ := start_cases hstart
  have hne : i ≠ j := by
    rintro rfl
    obtain ⟨op, p, hp, -⟩ := next_rest h
    cases hj.symm.trans hp
  have hother : ∀ p, s.rest[i]? = some p → (s.rest.set j program)[i]? = some p := by
    intro p hp
    rw [List.getElem?_set_ne hne.symm, hp]
  have hidle : ∀ p, (s.rest.set i p)[j]? = some [] := by
    intro p
    rw [List.getElem?_set_ne hne, hj]
  obtain ⟨hlt, -⟩ := List.getElem?_eq_some_iff.mp hj
  rcases next_cases h with ⟨m, p, hp, hm, rfl⟩ | ⟨m, p, hp, rfl⟩ | ⟨p, hp, rfl⟩
  · refine ⟨_, start_of_idle (hidle p) program, ?_⟩
    simp only [Goes, Tasks.next, hother _ hp, hm, if_true]
    rw [List.set_comm _ _ hne.symm]
  · refine ⟨_, start_of_idle (hidle p) program, ?_⟩
    simp only [Goes, Tasks.next, hother _ hp]
    rw [List.set_comm _ _ hne.symm]
  · have happend : (s.rest.set i p ++ [[]])[j]? = some [] := by
      rw [List.getElem?_append_left (by rwa [List.length_set]), hidle]
    refine ⟨_, start_of_idle happend program, ?_⟩
    simp only [Goes, Tasks.next, hother _ hp]
    rw [List.set_append_left _ _ (by rwa [List.length_set]), List.set_comm _ _ hne.symm]

theorem start_reachable {program : List (Op M)} {t u : Tasks M} (hstart : s.start j program = some u)
    (h : Reachable Goes s t) : ∃ v, t.start j program = some v ∧ Reachable Goes u v := by
  obtain ⟨l, hl⟩ := h
  induction hl with
  | nil => exact ⟨u, hstart, .refl⟩
  | snoc _ ht ih =>
    obtain ⟨v, hv, hreach⟩ := ih
    obtain ⟨v', hv', hgoes⟩ := start_goes hv ht
    exact ⟨v', hv', hreach.snoc hgoes⟩

end Step

end DasProtokoll.Locks
