import Mathlib.Data.List.Basic
import Mathlib.Data.List.TakeDrop

/-!
# Writing a block of items into the middle of a list

`overwrite l pos bs` is what a file or a buffer holds after `bs` is written at
`pos`. A gap between the old end and `pos` reads as `fill`.
-/

namespace DasProtokoll

variable {α : Type*}

/-- An empty write changes nothing, also behind the end. -/
def overwrite (fill : α) (l : List α) (pos : Nat) (bs : List α) : List α :=
  if bs.isEmpty then l
  else l.take pos ++ List.replicate (pos - l.length) fill ++ bs ++ l.drop (pos + bs.length)

/-- Cut to `n` items, or filled up to them. -/
def resize (fill : α) (l : List α) (n : Nat) : List α :=
  l.take n ++ List.replicate (n - l.length) fill

/-- The `n` items from `pos` on, or as many as there are. -/
def slice (l : List α) (pos n : Nat) : List α := (l.drop pos).take n

/-- Both lists read the same at every position of `[from, to)`. -/
def AgreeOn (l m : List α) (lo hi : Nat) : Prop := ∀ j, lo ≤ j → j < hi → l[j]? = m[j]?

@[simp] theorem resize_length (fill : α) (l : List α) (n : Nat) : (resize fill l n).length = n := by
  simp [resize]
  omega

section Overwrite

variable (fill : α) (l : List α) (pos : Nat) (bs : List α)

@[simp] theorem overwrite_nil : overwrite fill l pos [] = l := by simp [overwrite]

theorem overwrite_of_ne_nil (h : bs ≠ []) :
    overwrite fill l pos bs =
      l.take pos ++ List.replicate (pos - l.length) fill ++ bs ++ l.drop (pos + bs.length) := by
  rw [overwrite, if_neg (by simpa using h)]

theorem overwrite_length (h : pos ≤ l.length) :
    (overwrite fill l pos bs).length = max l.length (pos + bs.length) := by
  by_cases hb : bs = []
  · subst hb; simp [h]
  · rw [overwrite_of_ne_nil _ _ _ _ hb]
    simp only [List.length_append, List.length_take, List.length_replicate, List.length_drop]
    omega

theorem overwrite_length_of_fits (h : pos + bs.length ≤ l.length) :
    (overwrite fill l pos bs).length = l.length := by
  rw [overwrite_length _ _ _ _ (by omega)]
  omega

theorem overwrite_getElem?_inside {j : Nat} (h : pos ≤ l.length) (hj : pos ≤ j)
    (hj' : j < pos + bs.length) : (overwrite fill l pos bs)[j]? = bs[j - pos]? := by
  have hb : bs ≠ [] := by rintro rfl; simp at hj'; omega
  rw [overwrite_of_ne_nil _ _ _ _ hb, Nat.sub_eq_zero_of_le h]
  rw [List.append_assoc, List.getElem?_append_right (by simp; omega)]
  rw [List.getElem?_append_left (by simp; omega)]
  congr 1
  simp
  omega

theorem overwrite_getElem?_outside {j : Nat} (h : pos ≤ l.length)
    (hj : j < pos ∨ pos + bs.length ≤ j) : (overwrite fill l pos bs)[j]? = l[j]? := by
  by_cases hb : bs = []
  · subst hb; simp
  rw [overwrite_of_ne_nil _ _ _ _ hb, Nat.sub_eq_zero_of_le h, List.replicate_zero,
    List.append_nil]
  have hlen : (l.take pos).length = pos := by simp [h]
  rcases hj with hj | hj
  · rw [List.append_assoc, List.getElem?_append_left (by omega), List.getElem?_take_of_lt hj]
  · rw [List.getElem?_append_right (by simp; omega), List.getElem?_drop]
    congr 1
    simp
    omega

theorem overwrite_take_before (h : pos ≤ l.length) :
    (overwrite fill l pos bs).take pos = l.take pos := by
  apply List.ext_getElem?
  intro j
  by_cases hj : j < pos
  · rw [List.getElem?_take_of_lt hj, List.getElem?_take_of_lt hj,
      overwrite_getElem?_outside _ _ _ _ h (Or.inl hj)]
  · rw [List.getElem?_take_eq_none (by omega), List.getElem?_take_eq_none (by omega)]

theorem overwrite_take (h : pos ≤ l.length) :
    (overwrite fill l pos bs).take (pos + bs.length) = l.take pos ++ bs := by
  rw [List.take_add, overwrite_take_before _ _ _ _ h]
  congr 1
  apply List.ext_getElem?
  intro j
  by_cases hj : j < bs.length
  · rw [List.getElem?_take_of_lt hj, List.getElem?_drop,
      overwrite_getElem?_inside _ _ _ _ h (by omega) (by omega)]
    congr 1
    omega
  · rw [List.getElem?_take_eq_none (by omega), List.getElem?_eq_none (by omega)]

theorem overwrite_append (cs : List α) (h : pos ≤ l.length) :
    overwrite fill (overwrite fill l pos bs) (pos + bs.length) cs =
      overwrite fill l pos (bs ++ cs) := by
  have hlen := overwrite_length fill l pos bs h
  apply List.ext_getElem?
  intro j
  by_cases hin : pos ≤ j ∧ j < pos + (bs ++ cs).length
  · rw [overwrite_getElem?_inside _ _ _ _ h hin.1 hin.2]
    have hlt := hin.2
    rw [List.length_append] at hlt
    by_cases hj : j < pos + bs.length
    · rw [overwrite_getElem?_outside _ _ _ _ (by omega) (Or.inl hj),
        overwrite_getElem?_inside _ _ _ _ h hin.1 hj, List.getElem?_append_left (by omega)]
    · rw [overwrite_getElem?_inside _ _ _ _ (by omega) (by omega) (by omega),
        List.getElem?_append_right (by omega)]
      congr 1
      omega
  · have hout : j < pos ∨ pos + (bs ++ cs).length ≤ j := by omega
    rw [overwrite_getElem?_outside _ _ _ _ h hout]
    rw [List.length_append] at hout
    rw [overwrite_getElem?_outside _ _ _ _ (by omega) (by omega),
      overwrite_getElem?_outside _ _ _ _ h (by omega)]

end Overwrite

/-! ## Slices -/

theorem slice_length (l : List α) (pos n : Nat) : (slice l pos n).length = min n (l.length - pos) := by
  simp [slice]

theorem slice_getElem? (l : List α) {pos n j : Nat} (h : j < n) :
    (slice l pos n)[j]? = l[pos + j]? := by
  rw [slice, List.getElem?_take_of_lt h, List.getElem?_drop]

theorem slice_min (l : List α) (pos n : Nat) : slice l pos n = slice l pos (min n (l.length - pos)) := by
  rw [slice, slice, ← List.length_drop, List.take_eq_take_min]

@[simp] theorem slice_zero (l : List α) (pos : Nat) : slice l pos 0 = [] := rfl

/-! ## Agreement -/

theorem AgreeOn.symm {l m : List α} {a b : Nat} (h : AgreeOn l m a b) : AgreeOn m l a b :=
  fun j h1 h2 => (h j h1 h2).symm

theorem AgreeOn.trans {l m k : List α} {a b : Nat} (h : AgreeOn l m a b) (h' : AgreeOn m k a b) :
    AgreeOn l k a b :=
  fun j h1 h2 => (h j h1 h2).trans (h' j h1 h2)

theorem AgreeOn.mono {l m : List α} {a b a' b' : Nat} (h : AgreeOn l m a b) (ha : a ≤ a')
    (hb : b' ≤ b) : AgreeOn l m a' b' :=
  fun j h1 h2 => h j (by omega) (by omega)

theorem AgreeOn.of_empty {l m : List α} {a b : Nat} (h : b ≤ a) : AgreeOn l m a b :=
  fun j h1 h2 => by omega

theorem AgreeOn.overwrite {fill : α} {l : List α} {pos : Nat} {bs : List α} {a b : Nat}
    (h : pos ≤ l.length) (hd : b ≤ pos ∨ pos + bs.length ≤ a) :
    AgreeOn (overwrite fill l pos bs) l a b :=
  fun _ h1 h2 => overwrite_getElem?_outside fill l pos bs h (by omega)

theorem AgreeOn.overwrite_slice {fill : α} {l m : List α} {pos n : Nat} (h : pos ≤ l.length)
    (hm : pos + n ≤ m.length) :
    AgreeOn (DasProtokoll.overwrite fill l pos (slice m pos n)) m pos (pos + n) := by
  intro j h1 h2
  have hlen : (slice m pos n).length = n := by rw [slice_length]; omega
  rw [overwrite_getElem?_inside _ _ _ _ h h1 (by omega), slice_getElem? _ (by omega)]
  congr 1
  omega

theorem AgreeOn.join {l m : List α} {a b c : Nat} (h : AgreeOn l m a b) (h' : AgreeOn l m b c) :
    AgreeOn l m a c := by
  intro j h1 h2
  by_cases hb : j < b
  · exact h j h1 hb
  · exact h' j (by omega) h2

theorem AgreeOn.after_slice {fill : α} {l m : List α} {pos n a b : Nat} (hagree : AgreeOn l m a b)
    (h : pos ≤ l.length) (hm : pos + n ≤ m.length) :
    AgreeOn (DasProtokoll.overwrite fill l pos (slice m pos n)) m a b := by
  intro j h1 h2
  have hlen : (slice m pos n).length = n := by rw [slice_length]; omega
  by_cases hin : pos ≤ j ∧ j < pos + n
  · exact AgreeOn.overwrite_slice h hm j hin.1 hin.2
  · rw [overwrite_getElem?_outside _ _ _ _ h (by omega)]
    exact hagree j h1 h2

theorem AgreeOn.overwrite_cut {fill : α} {l m : List α} {pos n : Nat} (hlen : l.length = m.length)
    (h : pos ≤ l.length) :
    AgreeOn (DasProtokoll.overwrite fill l pos (slice m pos n)) m pos (pos + n) := by
  intro j h1 h2
  rw [slice_min]
  by_cases hj : j < m.length
  · exact AgreeOn.overwrite_slice h (by omega) j h1 (by omega)
  · rw [List.getElem?_eq_none, List.getElem?_eq_none (by omega)]
    rw [overwrite_length_of_fits _ _ _ _ (by rw [slice_length]; omega)]
    omega

theorem AgreeOn.after_cut {fill : α} {l m : List α} {pos n a b : Nat} (hagree : AgreeOn l m a b)
    (hlen : l.length = m.length) (h : pos ≤ l.length) :
    AgreeOn (DasProtokoll.overwrite fill l pos (slice m pos n)) m a b := by
  rw [slice_min]
  exact hagree.after_slice h (by omega)

theorem eq_of_agreeOn {l m : List α} (hlen : l.length = m.length) (h : AgreeOn l m 0 l.length) :
    l = m := by
  apply List.ext_getElem?
  intro j
  by_cases hj : j < l.length
  · exact h j (Nat.zero_le _) hj
  · rw [List.getElem?_eq_none (by omega), List.getElem?_eq_none (by omega)]

end DasProtokoll
