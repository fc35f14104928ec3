import DasProtokoll.Lib.Result
import Mathlib.Algebra.BigOperators.Group.List.Basic
import Mathlib.Tactic.Ring

/-!
# Streams of varints

A `Varint` codec writes 64 bit numbers and reads them back. Its laws say what a
reader of the encoding may rely on: the reported lengths are exact, reading
undoes writing, and a cut number reads as the end of the input. `leb128` is one
such codec.
-/

namespace DasProtokoll

abbrev Bytes := List UInt8

/-- The numbers of an unsigned 64 bit integer are below this. -/
def u64Size : Nat := 2 ^ 64

/-- What one read returns. -/
inductive Varint.Read where
  | value (n : Nat) (rest : Bytes)
  | unexpectedEof
  | invalidData
  deriving Repr, DecidableEq

class Varint where
  write : Nat → Bytes
  len : Nat → Nat
  read : Bytes → Varint.Read
  len_pos : ∀ n, 0 < len n
  len_le : ∀ n, len n ≤ 10
  length_write : ∀ n, n < u64Size → (write n).length = len n
  read_write : ∀ n rest, n < u64Size → read (write n ++ rest) = .value n rest
  read_cut : ∀ n bs, n < u64Size → bs <+: write n → bs.length < len n →
    read bs = .unexpectedEof
  read_lt : ∀ bs n rest, read bs = .value n rest → n < u64Size ∧ rest.length < bs.length

namespace Varint

variable [Varint]

/-- All numbers up to the end of the input. Any other read error is a panic. -/
def readAllLoop : Nat → Bytes → Result (List Nat)
  | 0, _ => .diverge
  | fuel + 1, bs =>
    match read bs with
    | .value n rest => do
      let ns ← readAllLoop fuel rest
      return n :: ns
    | .unexpectedEof => return []
    | .invalidData => .panic

/-- Each number takes at least one byte, so the fuel is enough. -/
def readAll (bs : Bytes) : Result (List Nat) := readAllLoop (bs.length + 1) bs

def writeAll (ns : List Nat) : Bytes := ns.flatMap write

def lenAll (ns : List Nat) : Nat := (ns.map len).sum

@[simp] theorem writeAll_nil : writeAll [] = [] := rfl
@[simp] theorem writeAll_cons (n : Nat) (ns : List Nat) :
    writeAll (n :: ns) = write n ++ writeAll ns := rfl
@[simp] theorem lenAll_nil : lenAll [] = 0 := rfl
@[simp] theorem lenAll_cons (n : Nat) (ns : List Nat) : lenAll (n :: ns) = len n + lenAll ns := by
  simp [lenAll]

theorem length_writeAll (ns : List Nat) (h : ∀ n ∈ ns, n < u64Size) :
    (writeAll ns).length = lenAll ns := by
  induction ns with
  | nil => rfl
  | cons n ns ih =>
    rw [writeAll_cons, lenAll_cons, List.length_append, length_write n (h n (by simp)),
      ih fun m hm => h m (by simp [hm])]

theorem readAllLoop_enough (bs : Bytes) :
    ∀ fuel fuel', bs.length < fuel → bs.length < fuel' →
      readAllLoop fuel bs = readAllLoop fuel' bs := by
  induction h : bs.length using Nat.strong_induction_on generalizing bs with
  | _ k ih =>
    intro fuel fuel' h1 h2
    obtain ⟨f, rfl⟩ : ∃ f, fuel = f + 1 := ⟨fuel - 1, by omega⟩
    obtain ⟨f', rfl⟩ : ∃ f', fuel' = f' + 1 := ⟨fuel' - 1, by omega⟩
    simp only [readAllLoop]
    cases hr : read bs with
    | value n rest =>
      have hlt := (read_lt bs n rest hr).2
      have hrest := ih rest.length (by omega) rest rfl f f' (by omega) (by omega)
      simp only [hrest]
    | unexpectedEof => rfl
    | invalidData => rfl

theorem readAll_value {bs rest : Bytes} {n : Nat} (h : read bs = .value n rest) :
    readAll bs = do let ns ← readAll rest; return n :: ns := by
  have hlt := (read_lt bs n rest h).2
  rw [readAll, readAllLoop, h]
  simp only [readAll]
  rw [readAllLoop_enough rest bs.length (rest.length + 1) hlt (by omega)]

theorem readAll_eof {bs : Bytes} (h : read bs = .unexpectedEof) : readAll bs = .ok [] := by
  rw [readAll, readAllLoop, h]
  rfl

theorem read_nil : read [] = .unexpectedEof :=
  read_cut 0 [] (by decide) List.nil_prefix (len_pos 0)

theorem readAll_writeAll_append (ns : List Nat) (bs : Bytes) (h : ∀ n ∈ ns, n < u64Size)
    (hbs : read bs = .unexpectedEof) : readAll (writeAll ns ++ bs) = .ok ns := by
  induction ns with
  | nil => exact readAll_eof hbs
  | cons n ns ih =>
    rw [writeAll_cons, List.append_assoc, readAll_value (read_write n _ (h n (by simp))),
      ih fun m hm => h m (by simp [hm])]
    rfl

theorem readAll_writeAll (ns : List Nat) (h : ∀ n ∈ ns, n < u64Size) :
    readAll (writeAll ns) = .ok ns := by
  simpa using readAll_writeAll_append ns [] h read_nil

/-- How many numbers of a stream lie whole in its first `k` bytes. -/
def wholeWithin : Nat → List Nat → Nat
  | _, [] => 0
  | k, n :: ns => if len n ≤ k then wholeWithin (k - len n) ns + 1 else 0

theorem wholeWithin_le (k : Nat) (ns : List Nat) : wholeWithin k ns ≤ ns.length := by
  induction ns generalizing k with
  | nil => simp [wholeWithin]
  | cons n ns ih =>
    rw [wholeWithin]
    split
    · have := ih (k - len n)
      simp only [List.length_cons]
      omega
    · omega

theorem wholeWithin_of_fits {k : Nat} {ns : List Nat} (h : lenAll ns ≤ k) :
    wholeWithin k ns = ns.length := by
  induction ns generalizing k with
  | nil => rfl
  | cons n ns ih =>
    rw [lenAll_cons] at h
    rw [wholeWithin, if_pos (by omega), ih (by omega), List.length_cons]

theorem lenAll_take_wholeWithin_le (k : Nat) (ns : List Nat) :
    lenAll (ns.take (wholeWithin k ns)) ≤ k := by
  induction ns generalizing k with
  | nil => simp
  | cons n ns ih =>
    rw [wholeWithin]
    split
    · have := ih (k - len n)
      rw [List.take_succ_cons, lenAll_cons]
      omega
    · simp

theorem le_wholeWithin_of_fits {k n : Nat} {ns : List Nat} (h : lenAll (ns.take k) ≤ n)
    (hk : k ≤ ns.length) : k ≤ wholeWithin n ns := by
  induction ns generalizing k n with
  | nil => exact le_trans hk (Nat.zero_le _)
  | cons m ns ih =>
    cases k with
    | zero => exact Nat.zero_le _
    | succ k =>
      rw [List.take_succ_cons, lenAll_cons] at h
      rw [wholeWithin, if_pos (by omega)]
      have := ih (k := k) (n := n - len m) (by omega) (by simpa using hk)
      omega

theorem lenAll_le (ns : List Nat) : lenAll ns ≤ 10 * ns.length := by
  induction ns with
  | nil => simp
  | cons n ns ih =>
    have := len_le n
    rw [lenAll_cons, List.length_cons]
    omega

theorem length_le_lenAll (ns : List Nat) : ns.length ≤ lenAll ns := by
  induction ns with
  | nil => simp
  | cons n ns ih =>
    have := len_pos n
    rw [lenAll_cons, List.length_cons]
    omega

theorem le_wholeWithin {k n : Nat} {ns : List Nat} (h : 10 * k ≤ n) (hk : k ≤ ns.length) :
    k ≤ wholeWithin n ns := by
  apply le_wholeWithin_of_fits _ hk
  have := lenAll_le (ns.take k)
  rw [List.length_take] at this
  omega

/-- A stream of which only the first `k` bytes arrived reads as a prefix of its numbers. -/
theorem readAll_take_writeAll (ns : List Nat) (k : Nat) (h : ∀ n ∈ ns, n < u64Size) :
    readAll ((writeAll ns).take k) = .ok (ns.take (wholeWithin k ns)) := by
  induction ns generalizing k with
  | nil => simpa using readAll_eof read_nil
  | cons n ns ih =>
    have hn := h n (by simp)
    have hlen := length_write n hn
    rw [writeAll_cons, wholeWithin]
    split
    · rw [List.take_append, List.take_of_length_le (by omega), hlen,
        readAll_value (read_write n _ hn), ih _ fun m hm => h m (by simp [hm])]
      rfl
    · rw [List.take_append_of_le_length (by omega), List.take_zero]
      exact readAll_eof (read_cut n _ hn (List.take_prefix _ _) (by rw [List.length_take]; omega))

end Varint

/-! ## LEB128 -/

namespace Leb128

/-- Seven bits per byte, the low ones first. All bytes but the last have the top bit set. -/
def write (fuel n : Nat) : Bytes :=
  match fuel with
  | 0 => []
  | fuel + 1 =>
    if n < 128 then [UInt8.ofNat n] else UInt8.ofNat (n % 128 + 128) :: write fuel (n / 128)

/-- All bytes but the last of ten hold seven bits. The tenth has room for one bit, and is only there
for it. -/
def read (fuel : Nat) (bs : Bytes) : Varint.Read :=
  match fuel, bs with
  | _, [] => .unexpectedEof
  | 0, b :: bs => if b.toNat = 1 then .value 1 bs else .invalidData
  | fuel + 1, b :: bs =>
    if b.toNat < 128 then .value b.toNat bs
    else match read fuel bs with
      | .value n rest => .value (b.toNat - 128 + 128 * n) rest
      | r => r

theorem byte_low (n : Nat) (h : n < 128) : (UInt8.ofNat n).toNat = n := by
  rw [UInt8.toNat_ofNat']; omega

theorem byte_high (n : Nat) : (UInt8.ofNat (n % 128 + 128)).toNat = n % 128 + 128 := by
  rw [UInt8.toNat_ofNat']; omega

theorem write_length_pos (fuel n : Nat) : 0 < (write (fuel + 1) n).length := by
  rw [write]
  split <;> simp

theorem write_length_le (fuel n : Nat) : (write fuel n).length ≤ fuel := by
  induction fuel generalizing n with
  | zero => simp [write]
  | succ fuel ih =>
    rw [write]
    split
    · simp
    · simpa using ih (n / 128)

theorem write_length_of_lt {k n : Nat} (hn : n < 128 ^ (k + 1)) (fuel : Nat) :
    (write fuel n).length ≤ k + 1 := by
  induction k generalizing n fuel with
  | zero =>
    cases fuel with
    | zero => simp [write]
    | succ fuel => simp [write, show n < 128 by simpa using hn]
  | succ k ih =>
    cases fuel with
    | zero => simp [write]
    | succ fuel =>
      have hdiv : n / 128 < 128 ^ (k + 1) := by
        rw [Nat.div_lt_iff_lt_mul (by omega), ← pow_succ]
        exact hn
      rw [write]
      split
      · simp
      · simpa using ih hdiv fuel

theorem read_write (fuel n : Nat) (rest : Bytes) (h : n < 2 * 128 ^ fuel) (hpos : 0 < fuel ∨ 0 < n) :
    read fuel (write (fuel + 1) n ++ rest) = .value n rest := by
  induction fuel generalizing n with
  | zero =>
    obtain rfl : n = 1 := by omega
    rfl
  | succ fuel ih =>
    rw [write]
    split
    · rename_i hn
      rw [List.singleton_append, read, byte_low n hn, if_pos hn]
    · rename_i hn
      have hdiv : n / 128 < 2 * 128 ^ fuel := by
        rw [Nat.div_lt_iff_lt_mul (by omega), mul_assoc, ← pow_succ]
        exact h
      rw [List.cons_append, read, byte_high, if_neg (by omega), ih _ hdiv (.inr (by omega))]
      simp only [Varint.Read.value.injEq, and_true]
      omega

theorem read_cut (fuel n : Nat) (bs : Bytes) (hp : bs <+: write (fuel + 1) n)
    (hl : bs.length < (write (fuel + 1) n).length) (h : n < 2 * 128 ^ fuel) :
    read fuel bs = .unexpectedEof := by
  induction fuel generalizing n bs with
  | zero =>
    rw [write, if_pos (by omega), List.length_singleton, Nat.lt_one_iff, List.length_eq_zero_iff] at hl
    subst hl
    rfl
  | succ fuel ih =>
    cases bs with
    | nil => rfl
    | cons b bs =>
      rw [write] at hp hl
      split at hp
      · rename_i hn
        rw [if_pos hn] at hl
        simp at hl
      · rename_i hn
        rw [if_neg hn] at hl
        obtain ⟨hb, hbs⟩ := List.cons_prefix_cons.mp hp
        have hdiv : n / 128 < 2 * 128 ^ fuel := by
          rw [Nat.div_lt_iff_lt_mul (by omega), mul_assoc, ← pow_succ]
          exact h
        rw [hb, read, byte_high, if_neg (by omega), ih (n / 128) bs hbs (by simpa using hl) hdiv]

theorem read_lt (fuel : Nat) (bs : Bytes) (n : Nat) (rest : Bytes) (h : read fuel bs = .value n rest) :
    n < 2 * 128 ^ fuel ∧ rest.length < bs.length := by
  induction fuel generalizing bs n with
  | zero =>
    cases bs with
    | nil => simp [read] at h
    | cons b bs =>
      rw [read] at h
      split at h
      · simp only [Varint.Read.value.injEq] at h
        simp [← h.1, ← h.2]
      · simp at h
  | succ fuel ih =>
    cases bs with
    | nil => simp [read] at h
    | cons b bs =>
      have hb := b.toNat_lt
      rw [read] at h
      split at h
      · rename_i hlow
        simp only [Varint.Read.value.injEq] at h
        have : 0 < 128 ^ fuel := Nat.pow_pos (by decide)
        rw [← h.1, ← h.2, pow_succ, List.length_cons]
        omega
      · cases hr : read fuel bs with
        | value m rest' =>
          simp only [hr, Varint.Read.value.injEq] at h
          obtain ⟨rfl, rfl⟩ := h
          have := ih bs m hr
          rw [pow_succ, List.length_cons]
          omega
        | unexpectedEof => simp [hr] at h
        | invalidData => simp [hr] at h

end Leb128

/-- The varints of Protocol Buffers. -/
@[reducible] def leb128 : Varint where
  write := Leb128.write 10
  len n := (Leb128.write 10 n).length
  read := Leb128.read 9
  len_pos := Leb128.write_length_pos 9
  len_le := Leb128.write_length_le 10
  length_write _ _ := rfl
  read_write n rest h := Leb128.read_write 9 n rest (lt_of_lt_of_eq h (by decide)) (.inl (by decide))
  read_cut n bs h hp hl := Leb128.read_cut 9 n bs hp hl (lt_of_lt_of_eq h (by decide))
  read_lt bs n rest h := by
    obtain ⟨hn, hrest⟩ := Leb128.read_lt 9 bs n rest h
    exact ⟨lt_of_lt_of_eq hn (by decide), hrest⟩

/-- A tenth byte that adds nothing is refused. -/
example : Leb128.read 9 (List.replicate 9 128 ++ [0]) = .invalidData := by decide

end DasProtokoll
