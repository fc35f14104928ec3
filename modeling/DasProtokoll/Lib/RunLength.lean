import DasProtokoll.Lib.Ranges
import DasProtokoll.Lib.Varint

/-!
# Run lengths

A list of bits as the lengths of its runs. The runs alternate and start with the
ones, so the running sums of the lengths, taken in pairs, are the ranges of the
zeros.
-/

namespace DasProtokoll

/-- The bits that alternating runs describe. -/
def expand : Bool → List Nat → List Bool
  | _, [] => []
  | b, n :: ns => List.replicate n b ++ expand (!b) ns

/-- The runs of `bits`, when the run before them is `count` bits `prev` so far. -/
def runsFrom (prev : Bool) (count : Nat) : List Bool → List Nat
  | [] => [count]
  | b :: bits => if b = prev then runsFrom prev (count + 1) bits else count :: runsFrom b 1 bits

def runs (bits : List Bool) : List Nat := runsFrom true 0 bits

/-- The positions of the zeros, counted from `start`. -/
def zeros (start : Nat) : List Bool → List Nat
  | [] => []
  | b :: bits => if b then zeros (start + 1) bits else start :: zeros (start + 1) bits

def sums : Nat → List Nat → List Nat
  | _, [] => []
  | a, n :: ns => (a + n) :: sums (a + n) ns

/-- The running sums in 64 bits, where an overflow is a panic. -/
def scanSums : Nat → List Nat → Result (List Nat)
  | _, [] => return []
  | a, n :: ns => do
    Result.assert (a + n < u64Size)
    let rest ← scanSums (a + n) ns
    return (a + n) :: rest

/-- Consecutive pairs. A last item without a partner is dropped. -/
def pairs {α : Type*} : List α → List (α × α)
  | a :: b :: l => (a, b) :: pairs l
  | _ => []

/-! ## Expanding and taking runs -/

theorem expand_append (b : Bool) (ns ms : List Nat) :
    expand b (ns ++ ms) = expand b ns ++ expand (if ns.length % 2 = 0 then b else !b) ms := by
  induction ns generalizing b with
  | nil => simp [expand]
  | cons n ns ih =>
    simp only [List.cons_append, expand, ih, List.length_cons, List.append_assoc]
    congr 2
    rcases Nat.mod_two_eq_zero_or_one ns.length with h | h
    · rw [if_pos h, if_neg (by omega)]
    · rw [if_neg (by omega), if_pos (by omega), Bool.not_not]

theorem expand_length (b : Bool) (ns : List Nat) : (expand b ns).length = ns.sum := by
  induction ns generalizing b with
  | nil => rfl
  | cons n ns ih => simp [expand, ih]

theorem expand_runsFrom (prev : Bool) (count : Nat) (bits : List Bool) :
    expand prev (runsFrom prev count bits) = List.replicate count prev ++ bits := by
  induction bits generalizing prev count with
  | nil => simp [runsFrom, expand]
  | cons b bits ih =>
    rw [runsFrom]
    split
    · rename_i h
      rw [ih, h, List.replicate_succ', List.append_assoc]
      rfl
    · rename_i h
      have hb : b = !prev := by revert h; cases b <;> cases prev <;> decide
      rw [expand, ← hb, ih]
      rfl

theorem expand_runs (bits : List Bool) : expand true (runs bits) = bits := by
  simpa [runs] using expand_runsFrom true 0 bits

theorem runs_sum (bits : List Bool) : (runs bits).sum = bits.length := by
  rw [← expand_length true, expand_runs]

theorem expand_take_runs (k : Nat) (bits : List Bool) :
    expand true ((runs bits).take k) = bits.take ((runs bits).take k).sum := by
  have hall : expand true ((runs bits).take k ++ (runs bits).drop k) = bits := by
    rw [List.take_append_drop, expand_runs]
  rw [expand_append] at hall
  rw [← expand_length true]
  exact List.prefix_iff_eq_take.mp ⟨_, hall⟩

theorem runsFrom_pos {prev : Bool} {count : Nat} (bits : List Bool) (h : 0 < count) :
    ∀ n ∈ runsFrom prev count bits, 0 < n := by
  induction bits generalizing prev count with
  | nil => simpa [runsFrom] using h
  | cons b bits ih =>
    rw [runsFrom]
    split
    · exact ih (by omega)
    · intro n hn
      rcases List.mem_cons.mp hn with rfl | hn
      · exact h
      · exact ih (by omega) n hn

theorem runsFrom_tail_pos (prev : Bool) (count : Nat) (bits : List Bool) :
    ∀ n ∈ (runsFrom prev count bits).tail, 0 < n := by
  induction bits generalizing prev count with
  | nil => simp [runsFrom]
  | cons b bits ih =>
    rw [runsFrom]
    split
    · exact ih prev (count + 1)
    · exact runsFrom_pos bits (by omega)

theorem runs_tail_pos (bits : List Bool) : ∀ n ∈ (runs bits).tail, 0 < n :=
  runsFrom_tail_pos true 0 bits

theorem take_runs_tail_pos (k : Nat) (bits : List Bool) :
    ∀ n ∈ ((runs bits).take k).tail, 0 < n :=
  fun n hn => runs_tail_pos bits n ((List.take_prefix k _).sublist.tail.subset hn)

theorem take_runs_sum_le (k : Nat) (bits : List Bool) :
    ((runs bits).take k).sum ≤ bits.length := by
  have hsum := runs_sum bits
  rw [← List.take_append_drop k (runs bits), List.sum_append] at hsum
  omega

theorem runsFrom_ne_nil (prev : Bool) (count : Nat) (bits : List Bool) :
    runsFrom prev count bits ≠ [] := by
  induction bits generalizing prev count with
  | nil => simp [runsFrom]
  | cons b bits ih =>
    rw [runsFrom]
    split
    · exact ih prev (count + 1)
    · simp

theorem runsFrom_singleton {prev : Bool} {count : Nat} {bits : List Bool} :
    (runsFrom prev count bits).length = 1 ↔ ∀ b ∈ bits, b = prev := by
  induction bits generalizing count with
  | nil => simp [runsFrom]
  | cons b bits ih =>
    rw [runsFrom]
    split
    · rename_i h
      simp [ih, h]
    · rename_i h
      have := List.length_pos_of_ne_nil (runsFrom_ne_nil b 1 bits)
      simp only [List.length_cons, List.mem_cons, forall_eq_or_imp, h, false_and, iff_false]
      omega

theorem runsFrom_replicate (b : Bool) (count n : Nat) :
    runsFrom b count (List.replicate n b) = [count + n] := by
  induction n generalizing count with
  | zero => rfl
  | succ n ih =>
    rw [List.replicate_succ, runsFrom, if_pos rfl, ih]
    congr 1
    omega

theorem runs_replicate_false {n : Nat} (h : 0 < n) : runs (List.replicate n false) = [0, n] := by
  obtain ⟨n, rfl⟩ := Nat.exists_eq_succ_of_ne_zero (by omega : n ≠ 0)
  rw [List.replicate_succ, runs, runsFrom, if_neg (by simp), runsFrom_replicate]
  congr 2
  omega

theorem runs_length_eq_one {bits : List Bool} : (runs bits).length = 1 ↔ ∀ b ∈ bits, b = true :=
  runsFrom_singleton

/-! ## Zeros -/

theorem zeros_append (a : Nat) (l m : List Bool) :
    zeros a (l ++ m) = zeros a l ++ zeros (a + l.length) m := by
  induction l generalizing a with
  | nil => rfl
  | cons b l ih =>
    rw [List.cons_append, zeros, zeros, ih, List.length_cons, Nat.add_right_comm, Nat.add_assoc]
    split <;> rfl

theorem zeros_replicate_true (a n : Nat) : zeros a (List.replicate n true) = [] := by
  induction n generalizing a with
  | zero => rfl
  | succ n ih => rw [List.replicate_succ, zeros, if_pos rfl, ih]

theorem zeros_replicate_false (a n : Nat) :
    zeros a (List.replicate n false) = List.range' a n := by
  induction n generalizing a with
  | zero => rfl
  | succ n ih => rw [List.replicate_succ, zeros, if_neg (by simp), ih, List.range'_succ]

theorem mem_zeros {a i : Nat} {bits : List Bool} :
    i ∈ zeros a bits ↔ a ≤ i ∧ bits[i - a]? = some false := by
  induction bits generalizing a with
  | nil => simp [zeros]
  | cons b bits ih =>
    have hstep : i ≠ a → ((a + 1 ≤ i ∧ bits[i - (a + 1)]? = some false) ↔
        a ≤ i ∧ (b :: bits)[i - a]? = some false) := by
      intro hne
      constructor
      · rintro ⟨h1, h2⟩
        refine ⟨by omega, ?_⟩
        rw [show i - a = i - (a + 1) + 1 by omega, List.getElem?_cons_succ]
        exact h2
      · rintro ⟨h1, h2⟩
        refine ⟨by omega, ?_⟩
        rw [show i - a = i - (a + 1) + 1 by omega, List.getElem?_cons_succ] at h2
        exact h2
    rw [zeros]
    by_cases hia : i = a
    · subst hia
      cases b <;> simp [ih]
    · refine Iff.trans ?_ (hstep hia)
      cases b <;> simp [ih, hia]

/-! ## Sums and pairs -/

theorem scanSums_eq {a : Nat} {ns : List Nat} (h : a + ns.sum < u64Size) :
    scanSums a ns = .ok (sums a ns) := by
  induction ns generalizing a with
  | nil => rfl
  | cons n ns ih =>
    rw [List.sum_cons] at h
    rw [scanSums, Result.assert_of (by omega), Result.bind_ok, ih (by omega)]
    rfl

theorem scanSums_of_bounded {a : Nat} {ns : List Nat} (h : ∀ s ∈ sums a ns, s < u64Size) :
    scanSums a ns = .ok (sums a ns) := by
  induction ns generalizing a with
  | nil => rfl
  | cons n ns ih =>
    simp only [sums, List.mem_cons, forall_eq_or_imp] at h
    rw [scanSums, Result.assert_of h.1, Result.bind_ok, ih h.2]
    rfl

theorem sums_take (a k : Nat) (ns : List Nat) : sums a (ns.take k) = (sums a ns).take k := by
  induction ns generalizing a k with
  | nil => simp [sums]
  | cons n ns ih =>
    cases k with
    | zero => rfl
    | succ k => simp [sums, ih]

theorem mem_sums_ge {a s : Nat} {ns : List Nat} (h : s ∈ sums a ns) : a ≤ s := by
  induction ns generalizing a with
  | nil => simp [sums] at h
  | cons n ns ih =>
    rcases List.mem_cons.mp h with rfl | h
    · omega
    · have := ih h
      omega

theorem mem_sums_le {a s : Nat} {ns : List Nat} (h : s ∈ sums a ns) : s ≤ a + ns.sum := by
  induction ns generalizing a with
  | nil => simp [sums] at h
  | cons n ns ih =>
    rw [List.sum_cons]
    rcases List.mem_cons.mp h with rfl | h
    · omega
    · have := ih h
      omega

theorem mem_of_mem_pairs {α : Type*} {l : List α} {p : α × α} (h : p ∈ pairs l) :
    p.1 ∈ l ∧ p.2 ∈ l := by
  induction l using pairs.induct with
  | case1 a b l ih =>
    rw [pairs] at h
    rcases List.mem_cons.mp h with rfl | h
    · simp
    · have := ih h
      simp [this]
  | case2 l hl => simp [pairs.eq_2 l hl] at h

theorem pairs_isEmpty {α : Type*} {l : List α} : (pairs l).isEmpty = true ↔ l.length ≤ 1 := by
  match l with
  | [] => simp [pairs]
  | [a] => simp [pairs]
  | a :: b :: l => simp [pairs]

theorem sums_length (a : Nat) (ns : List Nat) : (sums a ns).length = ns.length := by
  induction ns generalizing a with
  | nil => rfl
  | cons n ns ih => simp [sums, ih]

theorem members_pairs_sums (a : Nat) (ns : List Nat) :
    Ranges.members (pairs (sums a ns)) = zeros a (expand true ns) := by
  induction ns using pairs.induct generalizing a with
  | case1 n m ns ih =>
    simp only [sums, pairs, Ranges.members_cons, expand, Bool.not_true, Bool.not_false]
    rw [ih, zeros_append, zeros_append, zeros_replicate_true, zeros_replicate_false,
      List.nil_append, List.length_replicate, List.length_replicate, Nat.add_sub_cancel_left]
  | case2 ns hns =>
    match ns, hns with
    | [], _ => rfl
    | [n], _ => simp [sums, pairs, expand, zeros_replicate_true]
    | n :: m :: ns, hns => exact absurd rfl (hns n m ns)

theorem ordered_pairs_sums (a : Nat) (ns : List Nat) : Ranges.Ordered (pairs (sums a ns)) := by
  induction ns using pairs.induct generalizing a with
  | case1 n m ns ih =>
    have htail := ih (a + n + m)
    simp only [sums, pairs]
    refine ⟨?_, List.pairwise_cons.mpr ⟨?_, htail.ordered⟩⟩
    · intro r hr
      rcases List.mem_cons.mp hr with rfl | hr
      · simp
      · exact htail.le r hr
    · intro r hr
      exact mem_sums_ge (mem_of_mem_pairs hr).1
  | case2 ns hns =>
    match ns, hns with
    | [], _ => exact Ranges.ascending_nil.weaken
    | [n], _ => exact Ranges.ascending_nil.weaken
    | n :: m :: ns, hns => exact absurd rfl (hns n m ns)

theorem ascending_pairs_sums {a : Nat} {ns : List Nat} (h : ∀ n ∈ ns.tail, 0 < n) :
    Ranges.Ascending (pairs (sums a ns)) := by
  refine ⟨?_, (ordered_pairs_sums a ns).ordered⟩
  induction ns using pairs.induct generalizing a with
  | case1 n m ns ih =>
    simp only [List.tail_cons, List.mem_cons, forall_eq_or_imp] at h
    simp only [sums, pairs]
    intro r hr
    rcases List.mem_cons.mp hr with rfl | hr
    · simp; omega
    · exact ih (fun k hk => h.2 k (List.mem_of_mem_tail hk)) r hr
  | case2 ns hns =>
    match ns, hns with
    | [], _ => simp [sums, pairs]
    | [n], _ => simp [sums, pairs]
    | n :: m :: ns, hns => exact absurd rfl (hns n m ns)

end DasProtokoll
