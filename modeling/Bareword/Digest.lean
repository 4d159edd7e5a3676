import Bareword.Text.Basic

/-! # Fingerprints

A 64-bit fingerprint of a text, the XXH3 function with seed zero. Texts are read as little-endian
words and mixed with a fixed key; short, medium and long texts are mixed by different rules.
-/

namespace Bareword.Digest
set_option autoImplicit false

/-- A fingerprint function on texts. -/
abbrev Hasher := Text → UInt64

/-! ## Constants -/

/-- The fixed key. -/
def key : Array UInt8 := #[
  0xb8, 0xfe, 0x6c, 0x39, 0x23, 0xa4, 0x4b, 0xbe, 0x7c, 0x01, 0x81, 0x2c, 0xf7, 0x21, 0xad, 0x1c,
  0xde, 0xd4, 0x6d, 0xe9, 0x83, 0x90, 0x97, 0xdb, 0x72, 0x40, 0xa4, 0xa4, 0xb7, 0xb3, 0x67, 0x1f,
  0xcb, 0x79, 0xe6, 0x4e, 0xcc, 0xc0, 0xe5, 0x78, 0x82, 0x5a, 0xd0, 0x7d, 0xcc, 0xff, 0x72, 0x21,
  0xb8, 0x08, 0x46, 0x74, 0xf7, 0x43, 0x24, 0x8e, 0xe0, 0x35, 0x90, 0xe6, 0x81, 0x3a, 0x26, 0x4c,
  0x3c, 0x28, 0x52, 0xbb, 0x91, 0xc3, 0x00, 0xcb, 0x88, 0xd0, 0x65, 0x8b, 0x1b, 0x53, 0x2e, 0xa3,
  0x71, 0x64, 0x48, 0x97, 0xa2, 0x0d, 0xf9, 0x4e, 0x38, 0x19, 0xef, 0x46, 0xa9, 0xde, 0xac, 0xd8,
  0xa8, 0xfa, 0x76, 0x3f, 0xe3, 0x9c, 0x34, 0x3f, 0xf9, 0xdc, 0xbb, 0xc7, 0xc7, 0x0b, 0x4f, 0x1d,
  0x8a, 0x51, 0xe0, 0x4b, 0xcd, 0xb4, 0x59, 0x31, 0xc8, 0x9f, 0x7e, 0xc9, 0xd9, 0x78, 0x73, 0x64,
  0xea, 0xc5, 0xac, 0x83, 0x34, 0xd3, 0xeb, 0xc3, 0xc5, 0x81, 0xa0, 0xff, 0xfa, 0x13, 0x63, 0xeb,
  0x17, 0x0d, 0xdd, 0x51, 0xb7, 0xf0, 0xda, 0x49, 0xd3, 0x16, 0x55, 0x26, 0x29, 0xd4, 0x68, 0x9e,
  0x2b, 0x16, 0xbe, 0x58, 0x7d, 0x47, 0xa1, 0xfc, 0x8f, 0xf8, 0xb8, 0xd1, 0x7a, 0xd0, 0x31, 0xce,
  0x45, 0xcb, 0x3a, 0x8f, 0x95, 0x16, 0x04, 0x28, 0xaf, 0xd7, 0xfb, 0xca, 0xbb, 0x4b, 0x40, 0x7e]

def small1 : UInt64 := 0x9E3779B1
def small2 : UInt64 := 0x85EBCA77
def small3 : UInt64 := 0xC2B2AE3D
def prime1 : UInt64 := 0x9E3779B185EBCA87
def prime2 : UInt64 := 0xC2B2AE3D27D4EB4F
def prime3 : UInt64 := 0x165667B19E3779F9
def prime4 : UInt64 := 0x85EBCA77C2B2AE63
def prime5 : UInt64 := 0x27D4EB2F165667C5
def mixer1 : UInt64 := 0x165667919E3779F9
def mixer2 : UInt64 := 0x9FB21C651E98DF25

/-! ## Words -/

/-- The byte at an index, zero past the end. -/
def byteAt (a : Array UInt8) (i : Nat) : UInt64 := (a.getD i 0).toUInt64

/-- The little-endian word of four bytes. -/
def word32 (a : Array UInt8) (i : Nat) : UInt64 :=
  byteAt a i ||| (byteAt a (i + 1) <<< 8) ||| (byteAt a (i + 2) <<< 16) |||
    (byteAt a (i + 3) <<< 24)

def word64 (a : Array UInt8) (i : Nat) : UInt64 := word32 a i ||| (word32 a (i + 4) <<< 32)

/-- The high half of the product exclusive-or its low half. -/
def foldedProduct (a b : UInt64) : UInt64 :=
  let p := a.toNat * b.toNat
  p.toUInt64 ^^^ (p >>> 64).toUInt64

def rotateLeft (x : UInt64) (n : UInt64) : UInt64 := (x <<< n) ||| (x >>> (64 - n))

def swapBytes (x : UInt64) : UInt64 :=
  (List.range 8).foldl (fun acc i => (acc <<< 8) ||| ((x >>> (8 * i).toUInt64) &&& 0xFF)) 0

/-! ## Mixing -/

def finishShort (h : UInt64) : UInt64 :=
  let h := (h ^^^ (h >>> 33)) * prime2
  let h := (h ^^^ (h >>> 29)) * prime3
  h ^^^ (h >>> 32)

def finish (h : UInt64) : UInt64 :=
  let h := (h ^^^ (h >>> 37)) * mixer1
  h ^^^ (h >>> 32)

/-- Sixteen bytes of input mixed with sixteen bytes of the key. -/
def mix16 (a : Array UInt8) (i k : Nat) : UInt64 :=
  foldedProduct (word64 a i ^^^ word64 key k) (word64 a (i + 8) ^^^ word64 key (k + 8))

/-! ## Lengths up to 240 -/

def upTo3 (a : Array UInt8) : UInt64 :=
  let n := a.size
  let combined := (byteAt a 0 <<< 16) ||| (byteAt a (n / 2) <<< 24) ||| byteAt a (n - 1) |||
    (n.toUInt64 <<< 8)
  finishShort (combined ^^^ (word32 key 0 ^^^ word32 key 4))

def upTo8 (a : Array UInt8) : UInt64 :=
  let n := a.size
  let input := word32 a (n - 4) + (word32 a 0 <<< 32)
  let h := input ^^^ (word64 key 8 ^^^ word64 key 16)
  let h := (h ^^^ rotateLeft h 49 ^^^ rotateLeft h 24) * mixer2
  let h := (h ^^^ ((h >>> 35) + n.toUInt64)) * mixer2
  h ^^^ (h >>> 28)

def upTo16 (a : Array UInt8) : UInt64 :=
  let n := a.size
  let lo := word64 a 0 ^^^ (word64 key 24 ^^^ word64 key 32)
  let hi := word64 a (n - 8) ^^^ (word64 key 40 ^^^ word64 key 48)
  finish (n.toUInt64 + swapBytes lo + hi + foldedProduct lo hi)

def upTo128 (a : Array UInt8) : UInt64 :=
  let n := a.size
  let rounds := (n - 1) / 32
  let acc := (List.range (rounds + 1)).foldl
    (fun acc i => acc + mix16 a (16 * i) (32 * i) + mix16 a (n - 16 * (i + 1)) (32 * i + 16))
    (n.toUInt64 * prime1)
  finish acc

def upTo240 (a : Array UInt8) : UInt64 :=
  let n := a.size
  let acc := (List.range 8).foldl (fun acc i => acc + mix16 a (16 * i) (16 * i))
    (n.toUInt64 * prime1)
  let acc := (List.range (n / 16 - 8)).foldl
    (fun acc i => acc + mix16 a (16 * (i + 8)) (16 * i + 3)) (finish acc)
  finish (acc + mix16 a (n - 16) (136 - 17))

/-! ## Longer texts -/

/-- Eight running words. -/
abbrev Lanes := Array UInt64

/-- Adds 64 bytes of input at `i`, mixed with the key at `k`. -/
def addStripe (a : Array UInt8) (i k : Nat) (acc : Lanes) : Lanes :=
  let data := fun j => word64 a (i + 8 * j)
  (List.range 8).toArray.map fun j =>
    let keyed := data j ^^^ word64 key (k + 8 * j)
    acc.getD j 0 + data (if j % 2 = 0 then j + 1 else j - 1) +
      (keyed &&& (0xFFFFFFFF : UInt64)) * (keyed >>> 32)

/-- Stirs the lanes after a block. -/
def stir (acc : Lanes) : Lanes :=
  (List.range 8).toArray.map fun j =>
    let x := acc.getD j 0
    (x ^^^ (x >>> 47) ^^^ word64 key (192 - 64 + 8 * j)) * small1

/-- Adds `n` stripes that start at `i`. -/
def addStripes (a : Array UInt8) (i n : Nat) (acc : Lanes) : Lanes :=
  (List.range n).foldl (fun acc s => addStripe a (i + 64 * s) (8 * s) acc) acc

def long (a : Array UInt8) : UInt64 :=
  let n := a.size
  let start : Lanes := #[small3, prime1, prime2, prime3, prime4, small2, prime5, small1]
  let blocks := (n - 1) / 1024
  let acc := (List.range blocks).foldl (fun acc b => stir (addStripes a (1024 * b) 16 acc)) start
  let acc := addStripes a (1024 * blocks) ((n - 1 - 1024 * blocks) / 64) acc
  let acc := addStripe a (n - 64) (192 - 64 - 7) acc
  let merged := (List.range 4).foldl
    (fun h i => h + foldedProduct (acc.getD (2 * i) 0 ^^^ word64 key (11 + 16 * i))
      (acc.getD (2 * i + 1) 0 ^^^ word64 key (11 + 16 * i + 8)))
    (n.toUInt64 * prime1)
  finish merged

def fingerprint : Hasher := fun t =>
  let a := t.toArray
  let n := a.size
  if n = 0 then finishShort (word64 key 56 ^^^ word64 key 64)
  else if n ≤ 3 then upTo3 a
  else if n ≤ 8 then upTo8 a
  else if n ≤ 16 then upTo16 a
  else if n ≤ 128 then upTo128 a
  else if n ≤ 240 then upTo240 a
  else long a

/-- A fingerprint as sixteen hexadecimal digits. -/
def render (h : UInt64) : Text := Text.hex 16 h.toNat

end Bareword.Digest
