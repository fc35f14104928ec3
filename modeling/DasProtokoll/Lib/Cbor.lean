import DasProtokoll.Lib.LittleEndian
import DasProtokoll.Lib.OsString

/-!
# Serialized values

What the code relies on when it serializes a value: reading the bytes that were
written gives the value back. The rest is a CBOR codec that does so, put together
from codes for the parts of a value. A code reads its own bytes from the front of
the input.
-/

namespace DasProtokoll

class Cbor (α : Type) where
  toWriter : α → Bytes
  fromReader : Bytes → Option α
  fromReader_toWriter : ∀ a, fromReader (toWriter a) = some a

structure Code (α : Type) where
  write : α → Bytes
  read : Bytes → Option (α × Bytes)
  read_write : ∀ a rest, read (write a ++ rest) = some (a, rest)

namespace Code

variable {α β : Type}

/-- Nothing may follow the value. -/
@[reducible] def toCbor (c : Code α) : Cbor α where
  toWriter := c.write
  fromReader bs :=
    match c.read bs with
    | some (a, []) => some a
    | _ => none
  fromReader_toWriter a := by
    have h := c.read_write a []
    rw [List.append_nil] at h
    rw [h]

/-! ## Heads -/

def readUnary : Bytes → Option (Nat × Bytes)
  | [] => none
  | b :: bs =>
    if b = 0 then some (0, bs)
    else do
      let (n, rest) ← readUnary bs
      return (n + 1, rest)

theorem readUnary_write (n : Nat) (rest : Bytes) :
    readUnary (List.replicate n 1 ++ 0 :: rest) = some (n, rest) := by
  induction n with
  | zero => simp [readUnary]
  | succ n ih => simp [List.replicate_succ, readUnary, ih]

/-- No number of a program needs the last one. -/
def headInfo (n : Nat) : Nat :=
  if n < 24 then n
  else if n < 256 ^ 1 then 24
  else if n < 256 ^ 2 then 25
  else if n < 256 ^ 4 then 26
  else if n < 256 ^ 8 then 27
  else 28

/-- How many bytes of the number follow. -/
def headWidth (info : Nat) : Nat :=
  if info = 24 then 1 else if info = 25 then 2 else if info = 26 then 4 else 8

def writeHead (major n : Nat) : Bytes :=
  let info := headInfo n
  UInt8.ofNat (32 * major + info) ::
    if info < 24 then []
    else if info = 28 then List.replicate n 1 ++ [0]
    else (leBytes (headWidth info) n).reverse

def readHead (major : Nat) : Bytes → Option (Nat × Bytes)
  | [] => none
  | b :: bs =>
    let info := b.toNat % 32
    if b.toNat / 32 ≠ major then none
    else if info < 24 then some (info, bs)
    else if info = 28 then readUnary bs
    else if bs.length < headWidth info then none
    else some (ofLeBytes (bs.take (headWidth info)).reverse, bs.drop (headWidth info))

theorem headInfo_cases (n : Nat) :
    (headInfo n < 24 ∧ headInfo n = n) ∨ headInfo n = 28 ∨
      (24 ≤ headInfo n ∧ headInfo n < 28 ∧ n < 256 ^ headWidth (headInfo n)) := by
  unfold headInfo
  split_ifs <;> simp_all [headWidth]

theorem readHead_write {major : Nat} (hm : major < 8) (n : Nat) (rest : Bytes) :
    readHead major (writeHead major n ++ rest) = some (n, rest) := by
  have hinfo : headInfo n ≤ 28 := by
    unfold headInfo
    split_ifs <;> omega
  have hbyte : (UInt8.ofNat (32 * major + headInfo n)).toNat = 32 * major + headInfo n := by
    rw [UInt8.toNat_ofNat']
    omega
  have hmajor : (32 * major + headInfo n) / 32 = major := by omega
  have hmod : (32 * major + headInfo n) % 32 = headInfo n := by omega
  simp only [writeHead, List.cons_append, readHead, hbyte, hmajor, hmod, ne_eq,
    not_true_eq_false, if_false]
  rcases headInfo_cases n with ⟨hlt, heq⟩ | h28 | ⟨h24, hlt, hn⟩
  · rw [if_pos hlt, if_pos hlt, heq]
    rfl
  · simp [h28, readUnary_write]
  · have hlen : ((leBytes (headWidth (headInfo n)) n).reverse).length = headWidth (headInfo n) := by
      rw [List.length_reverse, leBytes_length]
    have h24' : ¬ headInfo n < 24 := by omega
    have h28 : ¬ headInfo n = 28 := by omega
    simp only [h24', h28, if_false]
    rw [if_neg (by rw [List.length_append, hlen]; omega), List.take_append_of_le_length (by omega),
      List.take_of_length_le (by omega), List.reverse_reverse, ofLeBytes_leBytes _ _ hn,
      List.drop_append_of_le_length (by omega), List.drop_of_length_le (by omega), List.nil_append]

def head (major : Fin 8) : Code Nat where
  write := writeHead major
  read := readHead major
  read_write := readHead_write major.isLt

/-! ## Parts of a value -/

/-- A value that is coded as another one. -/
def via (c : Code α) (f : β → α) (g : α → Option β) (h : ∀ b, g (f b) = some b) : Code β where
  write b := c.write (f b)
  read bs := do
    let (a, rest) ← c.read bs
    let b ← g a
    return (b, rest)
  read_write b rest := by simp [c.read_write, h]

/-- Bytes that are always the same, and then the value. -/
def after (pre : Bytes) (c : Code α) : Code α where
  write a := pre ++ c.write a
  read bs := if pre <+: bs then c.read (bs.drop pre.length) else none
  read_write a rest := by simp [c.read_write]

/-- The value, and then bytes that are always the same. -/
def before (c : Code α) (post : Bytes) : Code α where
  write a := c.write a ++ post
  read bs := do
    let (a, rest) ← c.read bs
    if post <+: rest then some (a, rest.drop post.length) else none
  read_write a rest := by simp [c.read_write]

def prod (c : Code α) (d : Code β) : Code (α × β) where
  write p := c.write p.1 ++ d.write p.2
  read bs := do
    let (a, bs) ← c.read bs
    let (b, bs) ← d.read bs
    return ((a, b), bs)
  read_write p rest := by simp [c.read_write, d.read_write]

def readMany (read : Bytes → Option (α × Bytes)) : Nat → Bytes → Option (List α × Bytes)
  | 0, bs => some ([], bs)
  | n + 1, bs => do
    let (a, bs) ← read bs
    let (as, bs) ← readMany read n bs
    return (a :: as, bs)

theorem readMany_write {write : α → Bytes} {read : Bytes → Option (α × Bytes)} {as : List α}
    (h : ∀ a ∈ as, ∀ rest, read (write a ++ rest) = some (a, rest)) (rest : Bytes) :
    readMany read as.length (as.flatMap write ++ rest) = some (as, rest) := by
  induction as with
  | nil => rfl
  | cons a as ih =>
    rw [List.forall_mem_cons] at h
    rw [List.length_cons, readMany, List.flatMap_cons, List.append_assoc, h.1]
    simp [ih h.2]

/-- An array. -/
def seq (c : Code α) : Code (List α) where
  write as := writeHead 4 as.length ++ as.flatMap c.write
  read bs := do
    let (n, bs) ← readHead 4 bs
    readMany c.read n bs
  read_write as rest := by
    rw [List.append_assoc, readHead_write (by decide)]
    exact readMany_write (fun a _ => c.read_write a) rest

/-- The length of an array, in front of what is in it. -/
def count : Code Nat := head 4

/-- An array of fixed length. -/
def vector (c : Code α) (n : Nat) : Code (Vector α n) :=
  c.seq.via (fun v => v.toList) (fun l => if h : l.toArray.size = n then some ⟨l.toArray, h⟩ else none)
    (by intro v; simp [Vector.toList])

def u8 : Code UInt8 :=
  (head 0).via UInt8.toNat (fun n => if n < 256 then some (UInt8.ofNat n) else none) (by
    intro b
    rw [if_pos b.toNat_lt, UInt8.ofNat_toNat])

def u64 : Code UInt64 :=
  (head 0).via UInt64.toNat (fun n => if n < u64Size then some (UInt64.ofNat n) else none) (by
    intro b
    have hb : b.toNat < u64Size := b.toNat_lt
    rw [if_pos hb, UInt64.ofNat_toNat])

def readText (bs : Bytes) : Option (Bytes × Bytes) := do
  let (n, bs) ← readHead 3 bs
  if bs.length < n then none else some (bs.take n, bs.drop n)

def text : Code OsString where
  write s := writeHead 3 s.length ++ s
  read := readText
  read_write s rest := by
    rw [readText, List.append_assoc, readHead_write (by decide)]
    simp

/-- Only UTF-8 is read. -/
def string : Code String :=
  text.via OsString.ofString
    (fun bs => if OsString.ofString (OsString.toStringLossy bs) = bs
      then some (OsString.toStringLossy bs) else none)
    (by intro s; rw [OsString.toStringLossy_ofString, if_pos rfl])

/-- The entry of a map under a fixed name. -/
def field (name : String) (c : Code α) : Code α := c.after (text.write (.ofString name))

/-- The head of a map with `n` entries in front of them. -/
def map (n : Nat) (c : Code α) : Code α := c.after (writeHead 5 n)

/-! ## Lengths -/

/-- No value takes more bytes than that. -/
def AtMost (c : Code α) (k : Nat) : Prop := ∀ a, (c.write a).length ≤ k

theorem length_writeHead (major : Nat) {n : Nat} (h : n < 256 ^ 8) : (writeHead major n).length ≤ 9 := by
  have hinfo : headInfo n ≠ 28 := by
    unfold headInfo
    split_ifs <;> omega
  have hwidth : headWidth (headInfo n) ≤ 8 := by
    unfold headWidth
    split_ifs <;> omega
  simp only [writeHead, hinfo, if_false, List.length_cons]
  split
  · simp
  · rw [List.length_reverse, leBytes_length]
    omega

section AtMost

variable {c : Code α} {d : Code β} {k l : Nat}

theorem AtMost.via (h : c.AtMost k) {f : β → α} {g : α → Option β} {hg : ∀ b, g (f b) = some b} :
    (c.via f g hg).AtMost k := fun b => h (f b)

theorem AtMost.after (h : c.AtMost k) (pre : Bytes) : (c.after pre).AtMost (pre.length + k) := by
  intro a
  have := h a
  simp only [Code.after, List.length_append]
  omega

theorem AtMost.prod (hc : c.AtMost k) (hd : d.AtMost l) : (c.prod d).AtMost (k + l) := by
  intro p
  have := hc p.1
  have := hd p.2
  simp only [Code.prod, List.length_append]
  omega

theorem AtMost.vector (h : c.AtMost k) {n : Nat} (hn : n < 256 ^ 8) : (c.vector n).AtMost (9 + n * k) := by
  intro v
  have hitems (as : List α) : (as.flatMap c.write).length ≤ as.length * k := by
    induction as with
    | nil => simp
    | cons a as ih =>
      have := h a
      rw [List.flatMap_cons, List.length_append, List.length_cons, Nat.succ_mul]
      omega
  have hlist := hitems v.toList
  have hhead := length_writeHead 4 hn
  simp only [Vector.length_toList] at hlist
  simp only [Code.vector, Code.via, Code.seq, List.length_append, Vector.length_toList]
  omega

theorem u8_atMost : u8.AtMost 9 := fun b => length_writeHead 0 (b.toNat_lt.trans (by decide))

theorem u64_atMost : u64.AtMost 9 := fun b => length_writeHead 0 b.toNat_lt

end AtMost

end Code

end DasProtokoll
