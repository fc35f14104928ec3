import DasProtokoll.Lib.Varint
import Mathlib.Data.List.Basic

/-!
# AES

The block cipher with keys of 128 bits, and messages of any length: padded to
whole blocks, each block mixed with the one before it, the initialization vector
in front.
-/

namespace DasProtokoll

namespace Aes128

/-! ## One block -/

/-- A table of bytes in rows of 32, the first byte of a row in its low bits. -/
def lookup (rows : List Nat) (b : UInt8) : UInt8 :=
  UInt8.ofNat (rows.getD (b.toNat / 32) 0 >>> (8 * (b.toNat % 32)))

def sbox : UInt8 → UInt8 := lookup
  [0xc072a49cafa2d4adf04759fa7dc982ca76abd7fe2b670130c56f6bf27b777c63,
   0x75b227ebe28012079a059618c323c7041531d871f1e5a534ccf73f362693fdb7,
   0xcf584c4a39becb6a5bb1fc20ed00d153842fe329b3d63b52a05a6e1b1a2c8309,
   0xd2f3ff1021dab6bcf5389d928f40a351a89f3c507f02f94585334d43fbaaefd0,
   0xdb0b5ede14b8ee4688902a22dc4f816073195d643d7ea7c41744975fec130ccd,
   0x08ae7a65eaf4566ca94ed58d6d37c8e779e4959162acd3c25c2406490a3a32e0,
   0x9e1dc186b95735610ef6034866b53e708a8bbd4b1f74dde8c6b4a61c2e2578ba,
   0x16bb54b00f2d99416842e6bf0d89a18cdf2855cee9871e9b948ed9691198f8e1]

def invSbox : UInt8 → UInt8 := lookup
  [0xcbe9dec444438e3487ff2f9b8239e37cfbd7f3819ea340bf38a53630d56a0952,
   0x25d18b6d49a25b76b224d92866a12e084ec3fa420b954cee3d23c2a632947b54,
   0x849d8da75746155edab9edfd5048706c92b6655dcc5ca4d41698688664f6f872,
   0x6b8a130103bdafc1020f3fca8f1e2cd00645b3b80558e4f70ad3bc8c00abd890,
   0x6edf751ce837f9e28535ade72274ac9673e6b4f0cecff297eadc674f4111913a,
   0xf45acd78fec0db9a2079d2c64b3e56fc1bbe18aa0e62b76f89c5291d711af147,
   0xef9cc9939f7ae52d0d4ab519a97f51605fec8027591012b131c7078833a8dd1f,
   0x7d0c2155631469e126d677ba7e042b17619953833cbbebc8b0f52aae4d3be0a0]

/-- Multiplication by two in the field of bytes. -/
def xtime (b : UInt8) : UInt8 := (b <<< 1) ^^^ ((b >>> 7) * 0x1b)

def mixByte (a b c d : UInt8) : UInt8 := xtime a ^^^ xtime b ^^^ b ^^^ c ^^^ d

def mixColumns : Bytes → Bytes
  | a :: b :: c :: d :: rest =>
    mixByte a b c d :: mixByte b c d a :: mixByte c d a b :: mixByte d a b c :: mixColumns rest
  | bs => bs

def twice (b : UInt8) : UInt8 := xtime (xtime b)

/-- What is left of the inverse matrix when `mixColumns` is taken out. -/
def preMix : Bytes → Bytes
  | a :: b :: c :: d :: rest =>
    (a ^^^ twice (a ^^^ c)) :: (b ^^^ twice (b ^^^ d)) :: (c ^^^ twice (c ^^^ a)) ::
      (d ^^^ twice (d ^^^ b)) :: preMix rest
  | bs => bs

def invMixColumns (s : Bytes) : Bytes := mixColumns (preMix s)

def shiftRows : Bytes → Bytes
  | [a₀, a₁, a₂, a₃, b₀, b₁, b₂, b₃, c₀, c₁, c₂, c₃, d₀, d₁, d₂, d₃] =>
    [a₀, b₁, c₂, d₃, b₀, c₁, d₂, a₃, c₀, d₁, a₂, b₃, d₀, a₁, b₂, c₃]
  | bs => bs

def invShiftRows : Bytes → Bytes
  | [a₀, a₁, a₂, a₃, b₀, b₁, b₂, b₃, c₀, c₁, c₂, c₃, d₀, d₁, d₂, d₃] =>
    [a₀, d₁, c₂, b₃, b₀, a₁, d₂, c₃, c₀, b₁, a₂, d₃, d₀, c₁, b₂, a₃]
  | bs => bs

def xor (a b : Bytes) : Bytes := List.zipWith (· ^^^ ·) a b

def nextKey (rcon : UInt8) : Bytes → Bytes
  | [a₀, a₁, a₂, a₃, b₀, b₁, b₂, b₃, c₀, c₁, c₂, c₃, d₀, d₁, d₂, d₃] =>
    let a := xor [a₀, a₁, a₂, a₃] [sbox d₁ ^^^ rcon, sbox d₂, sbox d₃, sbox d₀]
    let b := xor [b₀, b₁, b₂, b₃] a
    let c := xor [c₀, c₁, c₂, c₃] b
    let d := xor [d₀, d₁, d₂, d₃] c
    a ++ b ++ c ++ d
  | key => key

def rcons : List UInt8 := [0x01, 0x02, 0x04, 0x08, 0x10, 0x20, 0x40, 0x80, 0x1b, 0x36]

/-- The rounds after the first key. The last one does not mix. -/
def encryptRounds (key : Bytes) : List UInt8 → Bytes → Bytes
  | [], s => s
  | [rcon], s => xor (shiftRows (s.map sbox)) (nextKey rcon key)
  | rcon :: rcons, s =>
    encryptRounds (nextKey rcon key) rcons
      (xor (mixColumns (shiftRows (s.map sbox))) (nextKey rcon key))

def decryptRounds (key : Bytes) : List UInt8 → Bytes → Bytes
  | [], s => s
  | [rcon], s => (invShiftRows (xor s (nextKey rcon key))).map invSbox
  | rcon :: rcons, s =>
    (invShiftRows (invMixColumns
      (xor (decryptRounds (nextKey rcon key) rcons s) (nextKey rcon key)))).map invSbox

def encryptBlock (key s : Bytes) : Bytes := encryptRounds key rcons (xor s key)

def decryptBlock (key s : Bytes) : Bytes := xor (decryptRounds key rcons s) key

/-- The example of the standard. -/
example :
    encryptBlock ((List.range 16).map UInt8.ofNat) ((List.range 16).map fun i => UInt8.ofNat (17 * i)) =
      [0x69, 0xc4, 0xe0, 0xd8, 0x6a, 0x7b, 0x04, 0x30,
       0xd8, 0xcd, 0xb7, 0x80, 0x70, 0xb4, 0xc5, 0x5a] := by
  decide +kernel

/-! ## Undoing a block -/

theorem invSbox_sbox (b : UInt8) : invSbox (sbox b) = b := by
  have hall : ∀ n : Fin 256, invSbox (sbox (UInt8.ofNat n.1)) = UInt8.ofNat n.1 := by
    decide +kernel
  simpa using hall ⟨b.toNat, b.toNat_lt⟩

theorem map_invSbox_sbox (s : Bytes) : (s.map sbox).map invSbox = s := by
  rw [List.map_map]
  exact (List.map_congr_left fun b _ => invSbox_sbox b).trans (List.map_id s)

theorem invShiftRows_shiftRows (s : Bytes) : invShiftRows (shiftRows s) = s := by
  unfold shiftRows
  split
  · rfl
  · rename_i h
    unfold invShiftRows
    split
    · exact absurd rfl (h _ _ _ _ _ _ _ _ _ _ _ _ _ _ _ _)
    · rfl

theorem xor_left_comm (a b c : UInt8) : a ^^^ (b ^^^ c) = b ^^^ (a ^^^ c) := by
  rw [← UInt8.xor_assoc, UInt8.xor_comm a b, UInt8.xor_assoc]

theorem xor_cancel_left (a b : UInt8) : a ^^^ (a ^^^ b) = b := by
  rw [← UInt8.xor_assoc, UInt8.xor_self, UInt8.zero_xor]

theorem xor_cancel_right (a b : UInt8) : a ^^^ b ^^^ b = a := by
  rw [UInt8.xor_assoc, UInt8.xor_self, UInt8.xor_zero]

theorem top_bit (a : UInt8) : a >>> 7 = 0 ∨ a >>> 7 = 1 := by
  have hall : ∀ n : Fin 256, UInt8.ofNat n.1 >>> 7 = 0 ∨ UInt8.ofNat n.1 >>> 7 = 1 := by
    decide +kernel
  simpa using hall ⟨a.toNat, a.toNat_lt⟩

theorem xtime_xor (a b : UInt8) : xtime (a ^^^ b) = xtime a ^^^ xtime b := by
  have htop : ((a >>> 7) ^^^ (b >>> 7)) * (0x1b : UInt8) =
      (a >>> 7) * (0x1b : UInt8) ^^^ (b >>> 7) * (0x1b : UInt8) := by
    rcases top_bit a with ha | ha <;> rcases top_bit b with hb | hb <;> rw [ha, hb] <;> decide
  rw [xtime, UInt8.shiftLeft_xor, UInt8.shiftRight_xor, htop, xtime, xtime]
  simp only [UInt8.xor_assoc, xor_left_comm]

theorem mixByte_opposite (a b c d : UInt8) :
    mixByte a b c d ^^^ mixByte c d a b = xtime (a ^^^ b ^^^ c ^^^ d) ^^^ a ^^^ c := by
  simp only [mixByte, xtime_xor, UInt8.xor_assoc, UInt8.xor_comm, xor_left_comm, xor_cancel_left]

theorem mixByte_mixByte (a b c d : UInt8) :
    mixByte (mixByte a b c d) (mixByte b c d a) (mixByte c d a b) (mixByte d a b c) =
      a ^^^ twice (a ^^^ c) := by
  simp only [mixByte, twice, xtime_xor]
  generalize xtime (xtime a) = a₂
  generalize xtime (xtime b) = b₂
  generalize xtime (xtime c) = c₂
  generalize xtime (xtime d) = d₂
  generalize xtime a = a₁
  generalize xtime b = b₁
  generalize xtime c = c₁
  generalize xtime d = d₁
  simp only [UInt8.xor_comm, xor_left_comm, xor_cancel_left, UInt8.xor_self, UInt8.xor_zero]

theorem mixByte_xor (p q r s u v : UInt8) :
    mixByte (p ^^^ u) (q ^^^ v) (r ^^^ u) (s ^^^ v) = mixByte p q r s ^^^ (xtime (u ^^^ v) ^^^ u) := by
  simp only [mixByte, xtime_xor]
  generalize xtime p = p₁
  generalize xtime q = q₁
  generalize xtime u = u₁
  generalize xtime v = v₁
  simp only [UInt8.xor_comm, xor_left_comm, xor_cancel_left]

theorem mixByte_undo {p q r s a b c d : UInt8} (hp : p = mixByte a b c d) (hq : q = mixByte b c d a)
    (hr : r = mixByte c d a b) (hs : s = mixByte d a b c) :
    mixByte (p ^^^ twice (p ^^^ r)) (q ^^^ twice (q ^^^ s)) (r ^^^ twice (r ^^^ p))
      (s ^^^ twice (s ^^^ q)) = a := by
  have hpr : p ^^^ r = xtime (a ^^^ b ^^^ c ^^^ d) ^^^ a ^^^ c := by rw [hp, hr, mixByte_opposite]
  have hqs : q ^^^ s = xtime (b ^^^ c ^^^ d ^^^ a) ^^^ b ^^^ d := by rw [hq, hs, mixByte_opposite]
  have hlast : xtime (twice (p ^^^ r) ^^^ twice (q ^^^ s)) ^^^ twice (p ^^^ r) = twice (a ^^^ c) := by
    simp only [hpr, hqs, twice, xtime_xor, UInt8.xor_comm, xor_left_comm, xor_cancel_left,
      UInt8.xor_self, UInt8.zero_xor]
  rw [UInt8.xor_comm r p, UInt8.xor_comm s q, mixByte_xor, hlast, hp, hq, hr, hs, mixByte_mixByte,
    xor_cancel_right]

theorem invMixColumns_mixColumns (s : Bytes) : invMixColumns (mixColumns s) = s := by
  unfold invMixColumns
  fun_induction mixColumns s with
  | case1 a b c d rest ih =>
    simp only [preMix, mixColumns, ih]
    rw [mixByte_undo rfl rfl rfl rfl, mixByte_undo rfl rfl rfl rfl, mixByte_undo rfl rfl rfl rfl,
      mixByte_undo rfl rfl rfl rfl]
  | case2 bs h =>
    unfold preMix
    split
    · exact absurd rfl (h _ _ _ _ _)
    · unfold mixColumns
      split
      · exact absurd rfl (h _ _ _ _ _)
      · rfl

theorem xor_xor {s key : Bytes} (h : s.length = key.length) : xor (xor s key) key = s := by
  induction s generalizing key with
  | nil => rfl
  | cons b s ih =>
    cases key with
    | nil => cases h
    | cons k key =>
      have ih := @ih key (by simpa using h)
      simp only [xor] at ih
      simp only [xor, List.zipWith_cons_cons, ih, xor_cancel_right]

/-! ## Lengths -/

theorem xor_length {a b : Bytes} (h : a.length = b.length) : (xor a b).length = a.length := by
  simp [xor, h]

theorem mixColumns_length (s : Bytes) : (mixColumns s).length = s.length := by
  fun_induction mixColumns s with
  | case1 a b c d rest ih => simp [ih]
  | case2 bs h => rfl

theorem shiftRows_length (s : Bytes) : (shiftRows s).length = s.length := by
  unfold shiftRows
  split <;> rfl

theorem nextKey_length (rcon : UInt8) (key : Bytes) : (nextKey rcon key).length = key.length := by
  unfold nextKey
  split
  · simp [xor]
  · rfl

theorem encryptRounds_length (key : Bytes) (rcons : List UInt8) (s : Bytes) (h : s.length = key.length) :
    (encryptRounds key rcons s).length = s.length := by
  fun_induction encryptRounds key rcons s with
  | case1 => rfl
  | case2 key rcon s => rw [xor_length] <;> simp [shiftRows_length, nextKey_length, h]
  | case3 key rcon rcons s _ ih =>
    have hlen : (mixColumns (shiftRows (s.map sbox))).length = (nextKey rcon key).length := by
      rw [mixColumns_length, shiftRows_length, nextKey_length, List.length_map, h]
    rw [ih (by rw [xor_length hlen, hlen]), xor_length hlen, hlen, nextKey_length, h]

theorem decryptRounds_encryptRounds (key : Bytes) (rcons : List UInt8) (s : Bytes)
    (h : s.length = key.length) : decryptRounds key rcons (encryptRounds key rcons s) = s := by
  fun_induction encryptRounds key rcons s with
  | case1 => rfl
  | case2 key rcon s =>
    rw [decryptRounds, xor_xor (by rw [shiftRows_length, nextKey_length, List.length_map, h]),
      invShiftRows_shiftRows, map_invSbox_sbox]
  | case3 key rcon rcons s hne ih =>
    have hlen : (mixColumns (shiftRows (s.map sbox))).length = (nextKey rcon key).length := by
      rw [mixColumns_length, shiftRows_length, nextKey_length, List.length_map, h]
    rw [decryptRounds, ih (by rw [xor_length hlen, hlen]), xor_xor hlen, invMixColumns_mixColumns,
      invShiftRows_shiftRows, map_invSbox_sbox]
    exact hne

theorem encryptBlock_length {key s : Bytes} (h : s.length = key.length) :
    (encryptBlock key s).length = s.length := by
  rw [encryptBlock, encryptRounds_length, xor_length h]
  rw [xor_length h, h]

theorem decryptBlock_encryptBlock {key s : Bytes} (h : s.length = key.length) :
    decryptBlock key (encryptBlock key s) = s := by
  rw [decryptBlock, encryptBlock, decryptRounds_encryptRounds _ _ _ (by rw [xor_length h, h]), xor_xor h]

/-! ## Messages -/

/-- Padding of one to sixteen bytes, each of them its length. -/
def pad (bs : Bytes) : Bytes :=
  bs ++ List.replicate (16 - bs.length % 16) (UInt8.ofNat (16 - bs.length % 16))

def unpad (bs : Bytes) : Option Bytes := do
  let last ← bs.getLast?
  return bs.take (bs.length - last.toNat)

/-- `prev` is the block before. -/
def encryptBlocks (key : Bytes) : Nat → Bytes → Bytes → Bytes
  | 0, _, _ => []
  | n + 1, prev, bs =>
    let c := encryptBlock key (xor (bs.take 16) prev)
    c ++ encryptBlocks key n c (bs.drop 16)

def decryptBlocks (key : Bytes) : Nat → Bytes → Bytes → Bytes
  | 0, _, _ => []
  | n + 1, prev, bs =>
    xor (decryptBlock key (bs.take 16)) prev ++ decryptBlocks key n (bs.take 16) (bs.drop 16)

def encrypt (key iv data : Bytes) : Bytes :=
  let padded := pad data
  iv ++ encryptBlocks key (padded.length / 16) iv padded

def decrypt (key data : Bytes) : Option Bytes :=
  unpad (decryptBlocks key (data.length / 16 - 1) (data.take 16) (data.drop 16))

theorem pad_length (bs : Bytes) : (pad bs).length = 16 * (bs.length / 16 + 1) := by
  rw [pad, List.length_append, List.length_replicate]
  omega

theorem unpad_pad (bs : Bytes) : unpad (pad bs) = some bs := by
  have hpos : 16 - bs.length % 16 ≠ 0 := by omega
  have hbyte : (UInt8.ofNat (16 - bs.length % 16)).toNat = 16 - bs.length % 16 := by
    rw [UInt8.toNat_ofNat']
    omega
  have hlast : (pad bs).getLast? = some (UInt8.ofNat (16 - bs.length % 16)) := by
    rw [pad, List.getLast?_append_of_ne_nil _ (by simpa using hpos), List.getLast?_replicate,
      if_neg hpos]
  have htake : (pad bs).length - (16 - bs.length % 16) = bs.length := by
    rw [pad_length]
    omega
  simp only [unpad, hlast, Option.bind_eq_bind, Option.bind_some, hbyte, htake]
  simp [pad]

theorem encryptBlocks_length {key : Bytes} (hkey : key.length = 16) (n : Nat) {prev bs : Bytes}
    (hprev : prev.length = 16) (hbs : bs.length = 16 * n) :
    (encryptBlocks key n prev bs).length = 16 * n := by
  induction n generalizing prev bs with
  | zero => rfl
  | succ n ih =>
    have htake : (bs.take 16).length = prev.length := by rw [List.length_take]; omega
    have hc : (encryptBlock key (xor (bs.take 16) prev)).length = 16 := by
      rw [encryptBlock_length (by rw [xor_length htake]; omega), xor_length htake]
      omega
    rw [encryptBlocks, List.length_append, ih hc (by rw [List.length_drop]; omega), hc]
    omega

theorem decryptBlocks_encryptBlocks {key : Bytes} (hkey : key.length = 16) (n : Nat) {prev bs : Bytes}
    (hprev : prev.length = 16) (hbs : bs.length = 16 * n) :
    decryptBlocks key n prev (encryptBlocks key n prev bs) = bs := by
  induction n generalizing prev bs with
  | zero =>
    rw [decryptBlocks]
    exact (List.length_eq_zero_iff.mp (by omega)).symm
  | succ n ih =>
    have htake : (bs.take 16).length = prev.length := by rw [List.length_take]; omega
    have hkeyed : (xor (bs.take 16) prev).length = key.length := by rw [xor_length htake]; omega
    have hc : (encryptBlock key (xor (bs.take 16) prev)).length = 16 := by
      rw [encryptBlock_length hkeyed, hkeyed, hkey]
    rw [encryptBlocks, decryptBlocks, List.take_left' hc, List.drop_left' hc,
      ih hc (by rw [List.length_drop]; omega), decryptBlock_encryptBlock hkeyed, xor_xor htake,
      List.take_append_drop]

theorem decrypt_encrypt {key iv : Bytes} (hkey : key.length = 16) (hiv : iv.length = 16) (data : Bytes) :
    decrypt key (encrypt key iv data) = some data := by
  have hpad := pad_length data
  have hblocks : (pad data).length / 16 = data.length / 16 + 1 := by omega
  have hlen := encryptBlocks_length hkey (data.length / 16 + 1) hiv hpad
  have hn : (iv ++ encryptBlocks key (data.length / 16 + 1) iv (pad data)).length / 16 - 1 =
      data.length / 16 + 1 := by
    rw [List.length_append, hlen, hiv]
    omega
  rw [decrypt, encrypt, hblocks, hn, List.take_left' hiv, List.drop_left' hiv,
    decryptBlocks_encryptBlocks hkey _ hiv hpad, unpad_pad]

end Aes128

end DasProtokoll
