import DasProtokoll.Lib.Varint

/-!
# Names of the operating system

A name is a list of bytes. A string has a name, its UTF-8 bytes, but a name does
not need to have a string: what is no UTF-8 is replaced.
-/

namespace DasProtokoll

abbrev OsString := Bytes

namespace OsString

def ofString (s : String) : OsString := s.toByteArray.data.toList

/-- Whether the byte continues a character. -/
def isContinuation (b : UInt8) : Bool := 0x80 ≤ b && b ≤ 0xbf

/-- The bytes that can follow the first one of a character of three or four bytes. -/
def isSecond (b₀ b : UInt8) : Bool :=
  if b₀ = 0xe0 then 0xa0 ≤ b && b ≤ 0xbf
  else if b₀ = 0xed then 0x80 ≤ b && b ≤ 0x9f
  else if b₀ = 0xf0 then 0x90 ≤ b && b ≤ 0xbf
  else if b₀ = 0xf4 then 0x80 ≤ b && b ≤ 0x8f
  else isContinuation b

/-- How many bytes one replacement character stands for: those that could have started a character. -/
def brokenLength : OsString → Nat
  | b₀ :: b₁ :: b₂ :: _ =>
    if 0xe0 ≤ b₀ && b₀ ≤ 0xf4 && isSecond b₀ b₁ then
      if 0xf0 ≤ b₀ && isContinuation b₂ then 3 else 2
    else 1
  | [b₀, b₁] => if 0xe0 ≤ b₀ && b₀ ≤ 0xf4 && isSecond b₀ b₁ then 2 else 1
  | _ => 1

def replacement : Char := Char.ofNat 0xfffd

def lossyChars : Nat → OsString → List Char
  | 0, _ => []
  | _, [] => []
  | fuel + 1, bs =>
    match bs.toByteArray.utf8DecodeChar? 0 with
    | some c => c :: lossyChars fuel (bs.drop c.utf8Size)
    | none => replacement :: lossyChars fuel (bs.drop (brokenLength bs))

/-- Each character takes at least one byte, so the fuel is enough. -/
def toStringLossy (name : OsString) : String := String.ofList (lossyChars name.length name)

theorem utf8Encode_bytes (cs : List Char) :
    cs.utf8Encode.data.toList = cs.flatMap String.utf8EncodeChar := by
  rw [List.utf8Encode, List.toList_data_toByteArray]

theorem lossyChars_flatMap (cs : List Char) (fuel : Nat)
    (h : (cs.flatMap String.utf8EncodeChar).length ≤ fuel) :
    lossyChars fuel (cs.flatMap String.utf8EncodeChar) = cs := by
  induction cs generalizing fuel with
  | nil => cases fuel <;> rfl
  | cons c cs ih =>
    have hpos := c.utf8Size_pos
    rw [List.flatMap_cons, List.length_append, String.length_utf8EncodeChar] at h
    obtain ⟨fuel, rfl⟩ := Nat.exists_eq_succ_of_ne_zero (by omega : fuel ≠ 0)
    obtain ⟨b, bs, hbs⟩ := List.exists_cons_of_ne_nil
      (List.append_ne_nil_of_left_ne_nil (String.utf8EncodeChar_ne_nil (c := c))
        (cs.flatMap String.utf8EncodeChar))
    have hdecode := List.utf8DecodeChar?_utf8Encode_cons (l := cs) (c := c)
    rw [List.utf8Encode, List.flatMap_cons, hbs] at hdecode
    have hdrop : (b :: bs).drop c.utf8Size = cs.flatMap String.utf8EncodeChar := by
      rw [← hbs, ← String.length_utf8EncodeChar c, List.drop_left]
    rw [List.flatMap_cons, hbs, lossyChars, hdecode]
    · simp only [hdrop, ih fuel (by omega)]
    · exact List.cons_ne_nil b bs

theorem toStringLossy_ofString (s : String) : toStringLossy (ofString s) = s := by
  rw [toStringLossy, ofString, ← String.utf8Encode_toList, utf8Encode_bytes,
    lossyChars_flatMap _ _ le_rfl, String.ofList_toList]

/-- The string whose UTF-8 bytes these are. -/
def fromUtf8 (bs : Bytes) : Option String :=
  let s := toStringLossy bs
  if ofString s = bs then some s else none

theorem fromUtf8_ofString (s : String) : fromUtf8 (ofString s) = some s := by
  simp [fromUtf8, toStringLossy_ofString]

theorem ofString_injective : Function.Injective ofString := by
  intro s t h
  rw [← toStringLossy_ofString s, h, toStringLossy_ofString]

end OsString

end DasProtokoll
