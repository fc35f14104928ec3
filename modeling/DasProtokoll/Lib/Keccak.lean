import DasProtokoll.Lib.LittleEndian

/-!
# Keccak-256

The sponge with a rate of 136 bytes and the padding from before the standard. The
state of 25 lanes of 64 bits is one number, the first lane in its low bits.
-/

namespace DasProtokoll

namespace Keccak256

def lane (s i : Nat) : Nat := (s >>> (64 * i)) % 2 ^ 64

def pack : List Nat → Nat
  | [] => 0
  | x :: xs => x + (pack xs) <<< 64

def rotate (n x : Nat) : Nat := ((x <<< n) ||| (x >>> (64 - n))) % 2 ^ 64

def offsets : List Nat :=
  [0, 1, 62, 28, 27, 36, 44, 6, 55, 20, 3, 10, 43, 25, 39, 41, 45, 15, 21, 8, 18, 2, 61, 56, 14]

def roundConstants : List Nat :=
  [0x0000000000000001, 0x0000000000008082, 0x800000000000808a, 0x8000000080008000,
   0x000000000000808b, 0x0000000080000001, 0x8000000080008081, 0x8000000000008009,
   0x000000000000008a, 0x0000000000000088, 0x0000000080008009, 0x000000008000000a,
   0x000000008000808b, 0x800000000000008b, 0x8000000000008089, 0x8000000000008003,
   0x8000000000008002, 0x8000000000000080, 0x000000000000800a, 0x800000008000000a,
   0x8000000080008081, 0x8000000000008080, 0x0000000080000001, 0x8000000080008008]

def theta (s : Nat) : Nat :=
  let c := pack ((List.range 5).map fun x =>
    lane s x ^^^ lane s (x + 5) ^^^ lane s (x + 10) ^^^ lane s (x + 15) ^^^ lane s (x + 20))
  let d := pack ((List.range 5).map fun x =>
    lane c ((x + 4) % 5) ^^^ rotate 1 (lane c ((x + 1) % 5)))
  s ^^^ (d + d <<< 320 + d <<< 640 + d <<< 960 + d <<< 1280)

def rhoPi (s : Nat) : Nat :=
  pack ((List.range 25).map fun i =>
    let src := (i % 5 + 3 * (i / 5)) % 5 + 5 * (i % 5)
    rotate (offsets.getD src 0) (lane s src))

def chi (s : Nat) : Nat :=
  pack ((List.range 25).map fun i =>
    let row := 5 * (i / 5)
    lane s i ^^^ ((2 ^ 64 - 1 - lane s ((i + 1) % 5 + row)) &&& lane s ((i + 2) % 5 + row)))

def keccakF (s : Nat) : Nat :=
  roundConstants.foldl (fun s rc => chi (rhoPi (theta s)) ^^^ rc) s

def rate : Nat := 136

/-- Each round takes a whole block but the last one, so a fuel above the length is enough. -/
def absorb : Nat → Nat → Bytes → Nat
  | 0, s, _ => s
  | fuel + 1, s, bs =>
    if bs.length < rate then
      keccakF (s ^^^ ofLeBytes bs ^^^ (1 <<< (8 * bs.length)) ^^^ (0x80 <<< (8 * (rate - 1))))
    else absorb fuel (keccakF (s ^^^ ofLeBytes (bs.take rate))) (bs.drop rate)

def hash (bs : Bytes) : Bytes := leBytes 32 (absorb (bs.length + 1) 0 bs)

theorem hash_length (bs : Bytes) : (hash bs).length = 32 := leBytes_length _ _

/-- The hash of nothing. -/
example : hash [] =
    [0xc5, 0xd2, 0x46, 0x01, 0x86, 0xf7, 0x23, 0x3c, 0x92, 0x7e, 0x7d, 0xb2, 0xdc, 0xc7, 0x03, 0xc0,
     0xe5, 0x00, 0xb6, 0x53, 0xca, 0x82, 0x27, 0x3b, 0x7b, 0xfa, 0xd8, 0x04, 0x5d, 0x85, 0xa4, 0x70] := by
  decide +kernel

end Keccak256

end DasProtokoll
