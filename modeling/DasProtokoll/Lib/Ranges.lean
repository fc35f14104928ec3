import Mathlib.Data.List.Basic
import Mathlib.Data.List.Range
import Mathlib.Order.Bounds.Basic

/-!
# Sweeping over ascending ranges

A range `(a, b)` stands for the numbers from `a` up to, not including, `b`.
`firstFrom` is the search that a cursor makes for its next number: the first
range that ends behind the cursor. On ascending ranges it finds the least number
that is not below the cursor. Among ranges that are only ordered, an empty one can
be found in place of a number.
-/

namespace DasProtokoll

abbrev Ranges := List (Nat × Nat)

namespace Ranges

def members (rs : Ranges) : List Nat := rs.flatMap fun r => List.range' r.1 (r.2 - r.1)

/-- No range is empty, and each one ends before the next one starts. -/
structure Ascending (rs : Ranges) : Prop where
  nonempty : ∀ r ∈ rs, r.1 < r.2
  ordered : rs.Pairwise fun a b => a.2 ≤ b.1

structure Ordered (rs : Ranges) : Prop where
  le : ∀ r ∈ rs, r.1 ≤ r.2
  ordered : rs.Pairwise fun a b => a.2 ≤ b.1

def firstFrom (rs : Ranges) (c : Nat) : Option Nat :=
  (rs.find? fun r => c < r.2).map fun r => max c r.1

/-- What is searched for: the members that are not below the cursor. -/
def membersFrom (rs : Ranges) (c : Nat) : Set Nat := {i | i ∈ members rs ∧ c ≤ i}

def Exact (rs : Ranges) : Prop := ∀ c i, firstFrom rs c = some i → IsLeast (membersFrom rs c) i

/-- Every empty range is at zero, or a member is at its place or right before it. -/
def Bordered (rs : Ranges) : Prop :=
  ∀ r ∈ rs, r.1 = r.2 → r.1 = 0 ∨ r.1 ∈ members rs ∨ r.1 - 1 ∈ members rs

@[simp] theorem members_nil : members [] = [] := rfl

@[simp] theorem members_cons (r : Nat × Nat) (rs : Ranges) :
    members (r :: rs) = List.range' r.1 (r.2 - r.1) ++ members rs := rfl

theorem members_append (rs ss : Ranges) : members (rs ++ ss) = members rs ++ members ss := by
  simp [members]

theorem mem_members {rs : Ranges} {i : Nat} : i ∈ members rs ↔ ∃ r ∈ rs, r.1 ≤ i ∧ i < r.2 := by
  simp only [members, List.mem_flatMap, List.mem_range'_1]
  constructor
  · rintro ⟨r, hr, h1, h2⟩
    exact ⟨r, hr, h1, by omega⟩
  · rintro ⟨r, hr, h1, h2⟩
    exact ⟨r, hr, h1, by omega⟩

theorem ascending_nil : Ascending [] := ⟨by simp, List.Pairwise.nil⟩

theorem Ascending.tail {r : Nat × Nat} {rs : Ranges} (h : Ascending (r :: rs)) : Ascending rs :=
  ⟨fun x hx => h.nonempty x (List.mem_cons_of_mem _ hx), (List.pairwise_cons.mp h.ordered).2⟩

theorem Ascending.sublist {rs ss : Ranges} (h : Ascending rs) (hs : ss.Sublist rs) : Ascending ss :=
  ⟨fun r hr => h.nonempty r (hs.subset hr), h.ordered.sublist hs⟩

theorem Ascending.append {rs ss : Ranges} (hr : Ascending rs) (hs : Ascending ss)
    (h : ∀ r ∈ rs, ∀ s ∈ ss, r.2 ≤ s.1) : Ascending (rs ++ ss) := by
  refine ⟨?_, List.pairwise_append.mpr ⟨hr.ordered, hs.ordered, h⟩⟩
  intro r hm
  rcases List.mem_append.mp hm with hm | hm
  · exact hr.nonempty r hm
  · exact hs.nonempty r hm

theorem Ascending.weaken {rs : Ranges} (h : Ascending rs) : Ordered rs :=
  ⟨fun r hr => (h.nonempty r hr).le, h.ordered⟩

theorem Ordered.tail {r : Nat × Nat} {rs : Ranges} (h : Ordered (r :: rs)) : Ordered rs :=
  ⟨fun x hx => h.le x (List.mem_cons_of_mem _ hx), (List.pairwise_cons.mp h.ordered).2⟩

theorem Ordered.members_sorted {rs : Ranges} (h : Ordered rs) :
    (members rs).Pairwise (· < ·) := by
  induction rs with
  | nil => exact List.Pairwise.nil
  | cons r rs ih =>
    rw [members_cons, List.pairwise_append]
    refine ⟨List.pairwise_lt_range', ih h.tail, ?_⟩
    intro i hi j hj
    rw [List.mem_range'_1] at hi
    obtain ⟨s, hs, hs1, -⟩ := mem_members.mp hj
    have := (List.pairwise_cons.mp h.ordered).1 s hs
    omega

theorem Ascending.members_sorted {rs : Ranges} (h : Ascending rs) :
    (members rs).Pairwise (· < ·) := h.weaken.members_sorted

/-! ## The search -/

theorem firstFrom_eq_none {rs : Ranges} {c : Nat} :
    firstFrom rs c = none ↔ ∀ r ∈ rs, r.2 ≤ c := by
  simp [firstFrom, List.find?_eq_none]

theorem firstFrom_eq_some {rs : Ranges} {c i : Nat} (h : firstFrom rs c = some i) :
    ∃ pre r post, rs = pre ++ r :: post ∧ (∀ x ∈ pre, x.2 ≤ c) ∧ c < r.2 ∧ i = max c r.1 := by
  rw [firstFrom, Option.map_eq_some_iff] at h
  obtain ⟨r, hr, rfl⟩ := h
  obtain ⟨hc, pre, post, rfl, hpre⟩ := List.find?_eq_some_iff_append.mp hr
  refine ⟨pre, r, post, rfl, ?_, by simpa using hc, rfl⟩
  intro x hx
  simpa using hpre x hx

theorem Ordered.firstFrom_le {rs : Ranges} {r : Nat × Nat} {c : Nat} (h : Ordered rs) (hr : r ∈ rs)
    (hc : c < r.2) : ∃ i, firstFrom rs c = some i ∧ c ≤ i ∧ i ≤ max c r.1 := by
  cases hi : firstFrom rs c with
  | none =>
    have := firstFrom_eq_none.mp hi r hr
    omega
  | some i =>
    obtain ⟨pre, s, post, rfl, hpre, hs, rfl⟩ := firstFrom_eq_some hi
    refine ⟨_, rfl, le_max_left _ _, ?_⟩
    have hord := (List.pairwise_append.mp h.ordered).2.1
    rcases List.mem_append.mp hr with hr | hr
    · have := hpre r hr
      omega
    · rcases List.mem_cons.mp hr with rfl | hr
      · rfl
      · have := (List.pairwise_cons.mp hord).1 r hr
        have := h.le s (by simp)
        omega

theorem Ordered.firstFrom_le_member {rs : Ranges} {c i j : Nat} (h : Ordered rs)
    (hi : firstFrom rs c = some i) (hj : j ∈ membersFrom rs c) : i ≤ j := by
  obtain ⟨hmem, hcj⟩ := hj
  obtain ⟨r, hr, hr1, hr2⟩ := mem_members.mp hmem
  obtain ⟨i', hi', -, hle⟩ := h.firstFrom_le hr (lt_of_le_of_lt hcj hr2)
  rw [hi, Option.some.injEq] at hi'
  omega

theorem Ordered.exact {rs : Ranges} (h : Ordered rs) (hb : Bordered rs) : Exact rs := by
  intro c i hi
  refine ⟨?_, fun j hj => h.firstFrom_le_member hi hj⟩
  obtain ⟨pre, r, post, hrs, hpre, hc, rfl⟩ := firstFrom_eq_some hi
  have hr : r ∈ rs := by simp [hrs]
  refine ⟨?_, le_max_left _ _⟩
  rcases (h.le r hr).lt_or_eq with hlt | heq
  · exact mem_members.mpr ⟨r, hr, by omega, by omega⟩
  · rw [max_eq_right (by omega)]
    rcases hb r hr heq with hzero | hmem | hbefore
    · omega
    · exact hmem
    · -- the range of the member before `r` ends at `r`, so it would have been found
      have hle := h.firstFrom_le_member hi ⟨hbefore, by omega⟩
      omega

theorem membersFrom_eq_empty {rs : Ranges} {c : Nat} (h : firstFrom rs c = none) :
    membersFrom rs c = ∅ := by
  apply Set.eq_empty_of_forall_notMem
  rintro i ⟨hi, hci⟩
  obtain ⟨r, hr, -, h2⟩ := mem_members.mp hi
  have := firstFrom_eq_none.mp h r hr
  omega

theorem Exact.firstFrom_eq_some_iff {rs : Ranges} (h : Exact rs) {c i : Nat} :
    firstFrom rs c = some i ↔ IsLeast (membersFrom rs c) i := by
  constructor
  · exact h c i
  · intro hi
    cases hj : firstFrom rs c with
    | none =>
      have hmem := hi.1
      rw [membersFrom_eq_empty hj] at hmem
      exact absurd hmem (Set.notMem_empty i)
    | some j => rw [(h c j hj).unique hi]

theorem Exact.firstFrom_eq_none_iff {rs : Ranges} (h : Exact rs) {c : Nat} :
    firstFrom rs c = none ↔ membersFrom rs c = ∅ := by
  constructor
  · exact membersFrom_eq_empty
  · intro hempty
    cases hi : firstFrom rs c with
    | none => rfl
    | some i =>
      have hmem := (h c i hi).1
      rw [hempty] at hmem
      exact absurd hmem (Set.notMem_empty i)

theorem Ascending.exact {rs : Ranges} (h : Ascending rs) : Exact rs :=
  h.weaken.exact fun r hr heq => absurd heq (h.nonempty r hr).ne

theorem Ascending.firstFrom_least {rs : Ranges} {c i : Nat} (h : Ascending rs)
    (hi : firstFrom rs c = some i) :
    i ∈ members rs ∧ c ≤ i ∧ ∀ j ∈ members rs, c ≤ j → i ≤ j := by
  obtain ⟨⟨hmem, hc⟩, hleast⟩ := h.exact c i hi
  exact ⟨hmem, hc, fun j hj hcj => hleast ⟨hj, hcj⟩⟩

theorem filter_of_lt {l : List Nat} {a c : Nat} (h : ∀ x ∈ l, a < x) (hc : c ≤ a + 1) :
    l.filter (c ≤ ·) = l := by
  apply List.filter_eq_self.mpr
  intro x hx
  have := h x hx
  simp
  omega

theorem filter_eq_cons {l : List Nat} {c i : Nat} (hl : l.Pairwise (· < ·)) (hi : i ∈ l)
    (hc : c ≤ i) (hleast : ∀ j ∈ l, c ≤ j → i ≤ j) :
    l.filter (c ≤ ·) = i :: l.filter (i + 1 ≤ ·) := by
  induction l with
  | nil => simp at hi
  | cons a t ih =>
    obtain ⟨hat, ht⟩ := List.pairwise_cons.mp hl
    by_cases hca : c ≤ a
    · have hia : i = a := by
        have := hleast a (by simp) hca
        rcases List.mem_cons.mp hi with rfl | hit
        · rfl
        · have := hat i hit
          omega
      subst hia
      rw [List.filter_cons_of_pos (by simpa using hca), List.filter_cons_of_neg (by simp),
        filter_of_lt hat (by omega), filter_of_lt hat le_rfl]
    · have hit : i ∈ t := by
        rcases List.mem_cons.mp hi with rfl | hit
        · omega
        · exact hit
      rw [List.filter_cons_of_neg (by simpa using hca), List.filter_cons_of_neg (by simp; omega)]
      exact ih ht hit fun j hj hcj => hleast j (by simp [hj]) hcj

theorem Exact.filter_of_some {rs : Ranges} {c i : Nat} (h : Exact rs) (ho : Ordered rs)
    (hi : firstFrom rs c = some i) :
    (members rs).filter (c ≤ ·) = i :: (members rs).filter (i + 1 ≤ ·) := by
  obtain ⟨⟨hmem, hc⟩, hleast⟩ := h c i hi
  exact filter_eq_cons ho.members_sorted hmem hc fun j hj hcj => hleast ⟨hj, hcj⟩

theorem Ascending.filter_of_some {rs : Ranges} {c i : Nat} (h : Ascending rs)
    (hi : firstFrom rs c = some i) :
    (members rs).filter (c ≤ ·) = i :: (members rs).filter (i + 1 ≤ ·) :=
  h.exact.filter_of_some h.weaken hi

theorem filter_of_none {rs : Ranges} {c : Nat} (h : firstFrom rs c = none) :
    (members rs).filter (c ≤ ·) = [] := by
  apply List.filter_eq_nil_iff.mpr
  intro i hi hci
  have hmem : i ∈ membersFrom rs c := ⟨hi, by simpa using hci⟩
  rw [membersFrom_eq_empty h] at hmem
  exact Set.notMem_empty i hmem

end Ranges

end DasProtokoll
