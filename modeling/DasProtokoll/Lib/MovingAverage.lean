import Mathlib.Data.List.Basic
import Mathlib.Data.List.Infix
import Mathlib.Algebra.BigOperators.Group.List.Basic
import Mathlib.Tactic.Linarith

/-!
# Moving averages of whole numbers

The average over the last `w` numbers, kept without their sum. While the window
fills, the average is scaled. When it is full, the share of the oldest number goes
and the share of the new one comes, so what rounding took from the first `w`
numbers stays lost.
-/

namespace DasProtokoll

structure MovingAverage where
  average : Nat
  window : List Nat
  deriving Repr, DecidableEq

namespace MovingAverage

def empty : MovingAverage := { average := 0, window := [] }

/-- `none` is an underflow: the share of the oldest number exceeds the average. -/
def push (w : Nat) (m : MovingAverage) (d : Nat) : Option MovingAverage :=
  let n := m.window.length
  if n = w then
    match m.window with
    | [] => none
    | oldest :: rest =>
      if oldest / w ≤ m.average then
        some { average := m.average - oldest / w + d / w, window := rest ++ [d] }
      else none
  else some { average := m.average * n / (n + 1) + d / (n + 1), window := m.window ++ [d] }

/-- The next push does not underflow. -/
def Covers (w : Nat) (m : MovingAverage) : Prop :=
  m.window.length = w → ∀ oldest ∈ m.window.head?, oldest / w ≤ m.average

def shares (w : Nat) (l : List Nat) : Nat := (l.map (· / w)).sum

/-- The average of numbers that all fit into the window. -/
def fillFrom : Nat → Nat → List Nat → Nat
  | _, average, [] => average
  | n, average, d :: ds => fillFrom (n + 1) (average * n / (n + 1) + d / (n + 1)) ds

def fill (l : List Nat) : Nat := fillFrom 0 0 l

/-! ## Shares and filling -/

@[simp] theorem shares_nil (w : Nat) : shares w [] = 0 := rfl

@[simp] theorem shares_cons (w d : Nat) (l : List Nat) :
    shares w (d :: l) = d / w + shares w l := by
  simp [shares]

@[simp] theorem shares_append (w : Nat) (l k : List Nat) :
    shares w (l ++ k) = shares w l + shares w k := by
  simp [shares]

theorem mul_shares_le (w : Nat) (l : List Nat) : w * shares w l ≤ l.sum := by
  induction l with
  | nil => simp
  | cons d l ih =>
    have := Nat.mul_div_le d w
    rw [shares_cons, Nat.mul_add, List.sum_cons]
    omega

theorem length_le_shares {w : Nat} (hw : 0 < w) {l : List Nat} (h : ∀ d ∈ l, w ≤ d) :
    l.length ≤ shares w l := by
  induction l with
  | nil => simp
  | cons d l ih =>
    have hone : 1 ≤ d / w := (Nat.one_le_div_iff hw).mpr (h d (by simp))
    have hrest := ih fun x hx => h x (by simp [hx])
    rw [shares_cons, List.length_cons]
    omega

theorem fillFrom_snoc (n average : Nat) (l : List Nat) (d : Nat) :
    fillFrom n average (l ++ [d]) =
      fillFrom n average l * (n + l.length) / (n + l.length + 1) + d / (n + l.length + 1) := by
  induction l generalizing n average with
  | nil => rfl
  | cons x l ih =>
    rw [List.cons_append, fillFrom, ih, fillFrom, List.length_cons,
      show n + 1 + l.length = n + (l.length + 1) by omega]

theorem fill_snoc (l : List Nat) (d : Nat) :
    fill (l ++ [d]) = fill l * l.length / (l.length + 1) + d / (l.length + 1) := by
  rw [fill, fillFrom_snoc, Nat.zero_add]
  rfl

theorem sum_le_fill (l : List Nat) :
    l.sum ≤ l.length * fill l + l.length * (l.length - 1) := by
  induction l using List.reverseRecOn with
  | nil => simp
  | append_singleton l d ih =>
    have hscaled := Nat.lt_mul_div_succ (fill l * l.length) (Nat.succ_pos l.length)
    have hshare := Nat.lt_mul_div_succ d (Nat.succ_pos l.length)
    rw [fill_snoc, List.sum_append, List.sum_singleton, List.length_append, List.length_singleton]
    cases hn : l.length with
    | zero =>
      obtain rfl := List.length_eq_zero_iff.mp hn
      simp
    | succ n =>
      rw [hn] at ih hscaled hshare
      simp only [Nat.succ_eq_add_one, Nat.add_sub_cancel] at *
      nlinarith

theorem shares_le_fill {w : Nat} {l : List Nat} (hw : 0 < w) (hl : l.length = w) :
    shares w l ≤ fill l + (w - 1) := by
  have hsum := sum_le_fill l
  have hshares := mul_shares_le w l
  rw [hl, ← Nat.mul_add] at hsum
  exact Nat.le_of_mul_le_mul_left (hshares.trans hsum) hw

/-! ## Pushing -/

theorem push_filling {w : Nat} {m : MovingAverage} (h : m.window.length ≠ w) (d : Nat) :
    m.push w d = some
      { average := m.average * m.window.length / (m.window.length + 1) + d / (m.window.length + 1),
        window := m.window ++ [d] } := by
  rw [push, if_neg h]

theorem push_full {w oldest : Nat} {rest : List Nat} {average : Nat}
    (h : (oldest :: rest).length = w) (hle : oldest / w ≤ average) (d : Nat) :
    push w ⟨average, oldest :: rest⟩ d =
      some { average := average - oldest / w + d / w, window := rest ++ [d] } := by
  simp only [push, if_pos h, if_pos hle]

theorem push_underflow {w oldest : Nat} {rest : List Nat} {average : Nat}
    (h : (oldest :: rest).length = w) (hlt : average < oldest / w) (d : Nat) :
    push w ⟨average, oldest :: rest⟩ d = none := by
  simp only [push, if_pos h, if_neg (Nat.not_le.mpr hlt)]

theorem covers_of_push {w d : Nat} {m m' : MovingAverage} (h : m.push w d = some m') :
    Covers w m := by
  obtain ⟨average, window⟩ := m
  intro hfull oldest hold
  cases window with
  | nil => simp at hold
  | cons o rest =>
    obtain rfl : o = oldest := by simpa using hold
    by_contra hlt
    rw [push_underflow hfull (Nat.not_le.mp hlt)] at h
    cases h

theorem push_cases {w d : Nat} {m m' : MovingAverage} (h : m.push w d = some m') :
    (∃ oldest rest, m.window = oldest :: rest ∧ m.window.length = w ∧
      m' = { average := m.average - oldest / w + d / w, window := rest ++ [d] }) ∨
    (m.window.length ≠ w ∧ m' =
      { average := m.average * m.window.length / (m.window.length + 1) + d / (m.window.length + 1),
        window := m.window ++ [d] }) := by
  by_cases hfull : m.window.length = w
  · left
    simp only [push, if_pos hfull] at h
    split at h
    · cases h
    · rename_i oldest rest hwindow
      rw [Option.ite_none_right_eq_some, Option.some.injEq] at h
      exact ⟨oldest, rest, hwindow, hfull, h.2.symm⟩
  · rw [push_filling hfull, Option.some.injEq] at h
    exact Or.inr ⟨hfull, h.symm⟩

theorem mem_push {w d x : Nat} {m m' : MovingAverage} (h : m.push w d = some m') (hx : x ∈ m'.window) :
    x ∈ m.window ∨ x = d := by
  rcases push_cases h with ⟨oldest, rest, hwindow, -, rfl⟩ | ⟨-, rfl⟩
  · rw [List.mem_append, List.mem_singleton] at hx
    exact hx.imp_left fun hx => hwindow ▸ List.mem_cons_of_mem _ hx
  · rwa [List.mem_append, List.mem_singleton] at hx

theorem covers_of_large {w d : Nat} {m m' : MovingAverage} (h : m.push w d = some m')
    (hlarge : ∀ x ∈ m.window, x ≤ d) : m'.Covers w := by
  intro hfull oldest hold
  have holdest : oldest ≤ d := (mem_push h (List.mem_of_mem_head? hold)).elim (hlarge oldest) (·.le)
  have hshare : d / w ≤ m'.average := by
    rcases push_cases h with ⟨o, rest, -, -, rfl⟩ | ⟨-, rfl⟩
    · exact Nat.le_add_left _ _
    · rw [List.length_append, List.length_singleton] at hfull
      rw [hfull]
      exact Nat.le_add_left _ _
  exact (Nat.div_le_div_right holdest).trans hshare

/-- The state after all numbers of `l`, whose first `w` filled the window. -/
structure After (w : Nat) (l : List Nat) (m : MovingAverage) : Prop where
  window : m.window = l.drop (l.length - w)
  average : m.average + shares w (l.take w) = fill (l.take w) + shares w m.window

theorem after_nil (w : Nat) : After w [] empty := ⟨by simp [empty], by simp [empty, fill, fillFrom]⟩

theorem After.length_window {w : Nat} {l : List Nat} {m : MovingAverage} (h : After w l m) :
    m.window.length = min l.length w := by
  rw [h.window, List.length_drop]
  omega

theorem After.push {w : Nat} {l : List Nat} {m : MovingAverage} (hw : 0 < w) (h : After w l m)
    (hcovers : Covers w m) (d : Nat) : ∃ m', m.push w d = some m' ∧ After w (l ++ [d]) m' := by
  obtain ⟨average, window⟩ := m
  have hlen : window.length = min l.length w := h.length_window
  have hwindow : window = l.drop (l.length - w) := h.window
  have haverage : average + shares w (l.take w) = fill (l.take w) + shares w window := h.average
  by_cases hfull : window.length = w
  · cases window with
    | nil =>
      rw [List.length_nil] at hfull
      omega
    | cons oldest rest =>
      have hle : oldest / w ≤ average := hcovers hfull oldest rfl
      refine ⟨_, push_full hfull hle d, ?_, ?_⟩
      · have hdrop := congrArg List.tail hwindow
        rw [List.tail_drop] at hdrop
        rw [List.length_append, List.length_singleton, List.drop_append_of_le_length (by omega),
          show l.length + 1 - w = l.length - w + 1 by omega, ← hdrop]
        rfl
      · rw [List.take_append_of_le_length (by omega)]
        simp only [shares_cons, shares_append, shares_nil] at haverage ⊢
        omega
  · have hlt : l.length < w := by omega
    have hshort : (l ++ [d]).length ≤ w := by
      rw [List.length_append, List.length_singleton]
      omega
    rw [show l.length - w = 0 by omega, List.drop_zero] at hwindow
    subst hwindow
    rw [List.take_of_length_le hlt.le] at haverage
    refine ⟨_, push_filling hfull d, ?_, ?_⟩
    · rw [Nat.sub_eq_zero_of_le hshort, List.drop_zero]
    · rw [List.take_of_length_le hshort, fill_snoc, show fill window = average by omega]

theorem After.covers_iff {w : Nat} {l : List Nat} {m : MovingAverage} (h : After w l m)
    (hl : w ≤ l.length) (hw : 0 < w) :
    Covers w m ↔ shares w (l.take w) ≤ fill (l.take w) + shares w m.window.tail := by
  obtain ⟨average, window⟩ := m
  have hlen : window.length = min l.length w := h.length_window
  have haverage : average + shares w (l.take w) = fill (l.take w) + shares w window := h.average
  cases window with
  | nil =>
    rw [List.length_nil] at hlen
    omega
  | cons oldest rest =>
    rw [shares_cons] at haverage
    rw [List.tail_cons]
    constructor
    · intro hcovers
      have hle : oldest / w ≤ average := hcovers (hlen.trans (min_eq_right hl)) oldest rfl
      omega
    · rintro hmade - d hd
      obtain rfl : oldest = d := by simpa using hd
      show oldest / w ≤ average
      omega

theorem after_foldlM {w : Nat} (hw : 0 < w) {l : List Nat} {m : MovingAverage}
    (h : l.foldlM (push w) empty = some m) : After w l m := by
  induction l using List.reverseRecOn generalizing m with
  | nil =>
    cases h
    exact after_nil w
  | append_singleton l d ih =>
    rw [List.foldlM_append, Option.bind_eq_bind, Option.bind_eq_some_iff] at h
    obtain ⟨before, hbefore, hlast⟩ := h
    have hpush : before.push w d = some m := by simpa using hlast
    obtain ⟨m', hm', hafter⟩ := (ih hbefore).push hw (covers_of_push hpush) d
    rw [hpush, Option.some.injEq] at hm'
    exact hm' ▸ hafter

/-- There is no underflow exactly when each window makes up for what the filling lost. -/
theorem never_underflows_iff {w : Nat} (hw : 0 < w) (l : List Nat) :
    (∀ p, p <+: l → ∃ m, p.foldlM (push w) empty = some m ∧ Covers w m) ↔
      ∀ v, v <:+: l → v.length = w →
        shares w (l.take w) ≤ fill (l.take w) + shares w v.tail := by
  constructor
  · rintro hall v ⟨a, b, rfl⟩ hv
    have hlen : w ≤ (a ++ v).length := by
      rw [List.length_append]
      omega
    obtain ⟨m, hm, hcovers⟩ := hall (a ++ v) (List.prefix_append _ _)
    have hafter := after_foldlM hw hm
    have hwindow : m.window = v := by
      rw [hafter.window, List.length_append, hv, Nat.add_sub_cancel, List.drop_left]
    rw [hafter.covers_iff hlen hw, hwindow] at hcovers
    rwa [List.take_append_of_le_length hlen]
  · intro hmade p hp
    induction p using List.reverseRecOn with
    | nil => exact ⟨empty, rfl, fun h => absurd h hw.ne⟩
    | append_singleton p d ih =>
      obtain ⟨m, hm, hcovers⟩ := ih ((List.prefix_append p [d]).trans hp)
      obtain ⟨m', hm', hafter⟩ := (after_foldlM hw hm).push hw hcovers d
      refine ⟨m', by simp [List.foldlM_append, hm, hm'], ?_⟩
      intro hfull
      have hlen := hafter.length_window
      have hle : w ≤ (p ++ [d]).length := by omega
      have hinfix : m'.window <:+: l := by
        rw [hafter.window]
        exact (List.drop_suffix _ _).isInfix.trans hp.isInfix
      have hsums := hmade m'.window hinfix hfull
      obtain ⟨rest, rfl⟩ := hp
      rw [List.take_append_of_le_length hle] at hsums
      exact (hafter.covers_iff hle hw).mpr hsums hfull

end MovingAverage

end DasProtokoll
