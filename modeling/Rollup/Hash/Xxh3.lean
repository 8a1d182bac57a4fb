/-!
# XXH3 with 64 bits

The hash of a byte string with seed 0 and the standard secret.  Short inputs (up to 16, 128 and 240
bytes) have formulas of their own; a longer one is read in stripes of 64 bytes into eight
accumulators, which are scrambled after every sixteen stripes.

Reads beyond the end of the input yield zero; no formula makes any.
-/

namespace Rollup.Xxh3

/-! ## Words -/

/-- The byte at an offset. -/
def byte (data : Array UInt8) (i : Nat) : UInt64 := (data[i]?.getD 0).toUInt64

/-- The little-endian word of `count` bytes at an offset. -/
def word (data : Array UInt8) (offset count : Nat) : UInt64 :=
  (List.range count).foldr (fun i acc => acc <<< 8 ||| byte data (offset + i)) 0

/-- The little-endian 64-bit word at an offset. -/
def word64 (data : Array UInt8) (offset : Nat) : UInt64 := word data offset 8

/-- The little-endian 32-bit word at an offset. -/
def word32 (data : Array UInt8) (offset : Nat) : UInt64 := word data offset 4

/-- The word with its bytes in opposite order. -/
def swapBytes (x : UInt64) : UInt64 :=
  (List.range 8).foldl (fun acc i => acc <<< 8 ||| (x >>> (8 * i).toUInt64 &&& 0xff)) 0

/-- The word turned left by a number of bits between 1 and 63. -/
def rotateLeft (x bits : UInt64) : UInt64 := x <<< bits ||| x >>> (64 - bits)

/-- The two halves of the 128-bit product, combined by exclusive or. -/
def foldedProduct (a b : UInt64) : UInt64 :=
  let product := a.toNat * b.toNat
  (product % 0x10000000000000000).toUInt64 ^^^ (product / 0x10000000000000000).toUInt64

/-! ## Constants -/

/-- The standard secret of 192 bytes. -/
def secret : Array UInt8 := #[
  0xb8, 0xfe, 0x6c, 0x39, 0x23, 0xa4, 0x4b, 0xbe, 0x7c, 0x01, 0x81, 0x2c, 0xf7, 0x21, 0xad, 0x1c,
  0xde, 0xd4, 0x6d, 0xe9, 0x83, 0x90, 0x97, 0xdb, 0x72, 0x40, 0xa4, 0xa4, 0xb7, 0xb3, 0x67, 0x1f,
  0xcb, 0x79, 0xe6, 0x4e, 0xcc, 0xc0, 0xe5, 0x78, 0x82, 0x5a, 0xd0, 0x7d, 0xcc, 0xff, 0x72, 0x21,
  0xb8, 0x08, 0x46, 0x74, 0xf7, 0x43, 0x24, 0x8e, 0xe0, 0x35, 0x90, 0xe6, 0x81, 0x3a, 0x26, 0x4c,
  0x3c, 0x28, 0x52, 0xbb, 0x91, 0xc3, 0x00, 0xcb, 0x88, 0xd0, 0x65, 0x8b, 0x1b, 0x53, 0x2e, 0xa3,
  0x71, 0x64, 0x48, 0x97, 0xa2, 0x0d, 0xf9, 0x4e, 0x38, 0x19, 0xef, 0x46, 0xa9, 0xde, 0xac, 0xd8,
  0xa8, 0xfa, 0x76, 0x3f, 0xe3, 0x9c, 0x34, 0x3f, 0xf9, 0xdc, 0xbb, 0xc7, 0xc7, 0x0b, 0x4f, 0x1d,
  0x8a, 0x51, 0xe0, 0x4b, 0xcd, 0xb4, 0x59, 0x31, 0xc8, 0x9f, 0x7e, 0xc9, 0xd9, 0x78, 0x73, 0x64,
  0xea, 0xc5, 0xac, 0x83, 0x34, 0xd3, 0xeb, 0xc3, 0xc5, 0x81, 0xa0, 0xff, 0xfa, 0x13, 0x63, 0xeb,
  0x17, 0x0d, 0xdd, 0x51, 0xb7, 0xf0, 0xda, 0x49, 0xd3, 0x16, 0x55, 0x26, 0x29, 0xd4, 0x68, 0x9e,
  0x2b, 0x16, 0xbe, 0x58, 0x7d, 0x47, 0xa1, 0xfc, 0x8f, 0xf8, 0xb8, 0xd1, 0x7a, 0xd0, 0x31, 0xce,
  0x45, 0xcb, 0x3a, 0x8f, 0x95, 0x16, 0x04, 0x28, 0xaf, 0xd7, 0xfb, 0xca, 0xbb, 0x4b, 0x40, 0x7e]

/-- The first 32-bit prime. -/
def p32a : UInt64 := 0x9E3779B1

/-- The second 32-bit prime. -/
def p32b : UInt64 := 0x85EBCA77

/-- The third 32-bit prime. -/
def p32c : UInt64 := 0xC2B2AE3D

/-- The first 64-bit prime. -/
def p64a : UInt64 := 0x9E3779B185EBCA87

/-- The second 64-bit prime. -/
def p64b : UInt64 := 0xC2B2AE3D27D4EB4F

/-- The third 64-bit prime. -/
def p64c : UInt64 := 0x165667B19E3779F9

/-- The fourth 64-bit prime. -/
def p64d : UInt64 := 0x85EBCA77C2B2AE63

/-- The fifth 64-bit prime. -/
def p64e : UInt64 := 0x27D4EB2F165667C5

/-- The first mixing factor. -/
def mixFactorA : UInt64 := 0x165667919E3779F9

/-- The second mixing factor. -/
def mixFactorB : UInt64 := 0x9FB21C651E98DF25

/-! ## Mixing -/

/-- Spreads every bit of the shortest inputs over the word. -/
def avalancheShort (h : UInt64) : UInt64 :=
  let h := (h ^^^ h >>> 33) * p64b
  let h := (h ^^^ h >>> 29) * p64c
  h ^^^ h >>> 32

/-- Spreads every bit of an accumulated word over the word. -/
def avalanche (h : UInt64) : UInt64 :=
  let h := (h ^^^ h >>> 37) * mixFactorA
  h ^^^ h >>> 32

/-- Spreads the bits of four to eight bytes over the word. -/
def avalancheMid (h size : UInt64) : UInt64 :=
  let h := (h ^^^ rotateLeft h 49 ^^^ rotateLeft h 24) * mixFactorB
  let h := (h ^^^ (h >>> 35 + size)) * mixFactorB
  h ^^^ h >>> 28

/-- Mixes sixteen bytes of input with sixteen bytes of the secret. -/
def mix16 (data : Array UInt8) (offset place : Nat) : UInt64 :=
  foldedProduct (word64 data offset ^^^ word64 secret place)
    (word64 data (offset + 8) ^^^ word64 secret (place + 8))

/-! ## Inputs by length -/

/-- At most three bytes. -/
def hashUpTo3 (data : Array UInt8) : UInt64 :=
  let n := data.size
  if n = 0 then avalancheShort (word64 secret 56 ^^^ word64 secret 64)
  else
    let combined := byte data 0 <<< 16 ||| byte data (n / 2) <<< 24 ||| byte data (n - 1) |||
      n.toUInt64 <<< 8
    avalancheShort (combined ^^^ (word32 secret 0 ^^^ word32 secret 4))

/-- Four to eight bytes. -/
def hashUpTo8 (data : Array UInt8) : UInt64 :=
  let n := data.size
  let combined := word32 data (n - 4) + word32 data 0 <<< 32
  avalancheMid (combined ^^^ (word64 secret 8 ^^^ word64 secret 16)) n.toUInt64

/-- Nine to sixteen bytes. -/
def hashUpTo16 (data : Array UInt8) : UInt64 :=
  let n := data.size
  let low := word64 data 0 ^^^ (word64 secret 24 ^^^ word64 secret 32)
  let high := word64 data (n - 8) ^^^ (word64 secret 40 ^^^ word64 secret 48)
  avalanche (n.toUInt64 + swapBytes low + high + foldedProduct low high)

/-- Seventeen to 128 bytes: pairs of sixteen bytes from both ends inwards. -/
def hashUpTo128 (data : Array UInt8) : UInt64 :=
  let n := data.size
  let pairs := (n - 1) / 32 + 1
  avalanche <| (List.range pairs).foldl
    (fun acc i => acc + mix16 data (16 * i) (32 * i) +
      mix16 data (n - 16 * (i + 1)) (32 * i + 16))
    (n.toUInt64 * p64a)

/-- 129 to 240 bytes: eight runs of sixteen bytes, then the others at shifted places. -/
def hashUpTo240 (data : Array UInt8) : UInt64 :=
  let n := data.size
  let start := (List.range 8).foldl (fun acc i => acc + mix16 data (16 * i) (16 * i))
    (n.toUInt64 * p64a)
  let acc := (List.range (n / 16 - 8)).foldl
    (fun acc i => acc + mix16 data (16 * (i + 8)) (16 * i + 3)) (avalanche start)
  avalanche (acc + mix16 data (n - 16) 119)

/-! ## Long inputs -/

/-- The eight accumulators before the first stripe. -/
def seedAccumulators : List UInt64 := [p32c, p64a, p64b, p64c, p64d, p32b, p64e, p32a]

/-- The accumulators after 64 bytes at `offset`, mixed with the secret at `place`. -/
def stripe (data : Array UInt8) (offset place : Nat) (acc : List UInt64) : List UInt64 :=
  acc.mapIdx fun i a =>
    let partner := if i % 2 = 0 then i + 1 else i - 1
    let key : UInt64 := word64 data (offset + 8 * i) ^^^ word64 secret (place + 8 * i)
    a + word64 data (offset + 8 * partner) + (key &&& (0xffffffff : UInt64)) * (key >>> 32)

/-- The accumulators after the last stripe of a block. -/
def scramble (acc : List UInt64) : List UInt64 :=
  acc.mapIdx fun i (a : UInt64) => (a ^^^ a >>> 47 ^^^ word64 secret (128 + 8 * i)) * p32a

/-- The accumulators after `count` stripes from `offset`. -/
def stripes (data : Array UInt8) (offset count : Nat) (acc : List UInt64) : List UInt64 :=
  (List.range count).foldl (fun acc i => stripe data (offset + 64 * i) (8 * i) acc) acc

/-- The four folded products of neighbouring accumulators, summed. -/
def merge (acc : List UInt64) (start : UInt64) : UInt64 :=
  (List.range 4).foldl
    (fun h i => h +
      foldedProduct (acc.getD (2 * i) 0 ^^^ word64 secret (11 + 16 * i))
        (acc.getD (2 * i + 1) 0 ^^^ word64 secret (11 + 16 * i + 8)))
    start

/-- More than 240 bytes: blocks of sixteen stripes, the stripes of an incomplete block, and one
stripe that ends with the input. -/
def hashLong (data : Array UInt8) : UInt64 :=
  let n := data.size
  let blocks := (n - 1) / 1024
  let acc := (List.range blocks).foldl (fun acc b => scramble (stripes data (1024 * b) 16 acc))
    seedAccumulators
  let acc := stripes data (1024 * blocks) ((n - 1 - 1024 * blocks) / 64) acc
  let acc := stripe data (n - 64) 121 acc
  avalanche (merge acc (n.toUInt64 * p64a))

/-- The hash of a byte string. -/
def hash (data : Array UInt8) : UInt64 :=
  let n := data.size
  if n ≤ 3 then hashUpTo3 data
  else if n ≤ 8 then hashUpTo8 data
  else if n ≤ 16 then hashUpTo16 data
  else if n ≤ 128 then hashUpTo128 data
  else if n ≤ 240 then hashUpTo240 data
  else hashLong data

end Rollup.Xxh3
