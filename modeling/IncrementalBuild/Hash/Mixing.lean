/-!
# Mixing bytes

The 128-bit variant of the XXH3 hash with seed zero and its standard secret. Texts are read as
little-endian words; inputs of up to 16, up to 128, up to 240 and more bytes have each a rule of
their own.
-/
namespace IncrementalBuild.Hash

/-- A byte of an array, and zero past its end. -/
def byteAt (bytes : ByteArray) (i : Nat) : UInt8 := if h : i < bytes.size then bytes[i] else 0

/-- The little-endian number in `count` bytes from a place on. -/
def wordAt (bytes : ByteArray) (start : Nat) : Nat → UInt64
  | 0 => 0
  | count + 1 => (byteAt bytes start).toUInt64 ||| (wordAt bytes (start + 1) count <<< 8)

def word64 (bytes : ByteArray) (start : Nat) : UInt64 := wordAt bytes start 8

def word32 (bytes : ByteArray) (start : Nat) : UInt64 := wordAt bytes start 4

/-- The secret bytes that are mixed with the input. -/
def secret : ByteArray := ⟨#[
  0xb8, 0xfe, 0x6c, 0x39, 0x23, 0xa4, 0x4b, 0xbe, 0x7c, 0x01, 0x81, 0x2c, 0xf7, 0x21, 0xad, 0x1c,
  0xde, 0xd4, 0x6d, 0xe9, 0x83, 0x90, 0x97, 0xdb, 0x72, 0x40, 0xa4, 0xa4, 0xb7, 0xb3, 0x67, 0x1f,
  0xcb, 0x79, 0xe6, 0x4e, 0xcc, 0xc0, 0xe5, 0x78, 0x82, 0x5a, 0xd0, 0x7d, 0xcc, 0xff, 0x72, 0x21,
  0xb8, 0x08, 0x46, 0x74, 0xf7, 0x43, 0x24, 0x8e, 0xe0, 0x35, 0x90, 0xe6, 0x81, 0x3a, 0x26, 0x4c,
  0x3c, 0x28, 0x52, 0xbb, 0x91, 0xc3, 0x00, 0xcb, 0x88, 0xd0, 0x65, 0x8b, 0x1b, 0x53, 0x2e, 0xa3,
  0x71, 0x64, 0x48, 0x97, 0xa2, 0x0d, 0xf9, 0x4e, 0x38, 0x19, 0xef, 0x46, 0xa9, 0xde, 0xac, 0xd8,
  0xa8, 0xfa, 0x76, 0x3f, 0xe3, 0x9c, 0x34, 0x3f, 0xf9, 0xdc, 0xbb, 0xc7, 0xc7, 0x0b, 0x4f, 0x1d,
  0x8a, 0x51, 0xe0, 0x4b, 0xcd, 0xb4, 0x59, 0x31, 0xc8, 0x9f, 0x7e, 0xc9, 0xd9, 0x78, 0x73, 0x64,
  0xea, 0xc5, 0xac, 0x83, 0x34, 0xd3, 0xeb, 0xc3, 0xc5, 0x81, 0xa0, 0xff, 0xfa, 0x13, 0x63, 0xeb,
  0x17, 0x0d, 0xdd, 0x51, 0xb7, 0xf0, 0xda, 0x49, 0xd3, 0x16, 0x55, 0x26, 0x29, 0xd4, 0x68, 0x9e,
  0x2b, 0x16, 0xbe, 0x58, 0x7d, 0x47, 0xa1, 0xfc, 0x8f, 0xf8, 0xb8, 0xd1, 0x7a, 0xd0, 0x31, 0xce,
  0x45, 0xcb, 0x3a, 0x8f, 0x95, 0x16, 0x04, 0x28, 0xaf, 0xd7, 0xfb, 0xca, 0xbb, 0x4b, 0x40, 0x7e]⟩

/-- The 64-bit word of the secret from a place on. -/
def key (start : Nat) : UInt64 := word64 secret start

def prime32a : UInt64 := 0x9E3779B1
def prime32b : UInt64 := 0x85EBCA77
def prime32c : UInt64 := 0xC2B2AE3D
def prime64a : UInt64 := 0x9E3779B185EBCA87
def prime64b : UInt64 := 0xC2B2AE3D27D4EB4F
def prime64c : UInt64 := 0x165667B19E3779F9
def prime64d : UInt64 := 0x85EBCA77C2B2AE63
def prime64e : UInt64 := 0x27D4EB2F165667C5

/-- A pair of words: the low and the high half of 128 bits. -/
structure Halves where
  low : UInt64
  high : UInt64
  deriving DecidableEq, Repr

/-- The full product of two words. -/
def multiply (a b : UInt64) : Halves :=
  let product := a.toNat * b.toNat
  ⟨product.toUInt64, (product >>> 64).toUInt64⟩

/-- The halves of the full product, combined. -/
def fold (a b : UInt64) : UInt64 := (multiply a b).low ^^^ (multiply a b).high

/-- A word combined with its own high bits. -/
def shiftMix (h : UInt64) (bits : UInt64) : UInt64 := h ^^^ (h >>> bits)

/-- Spreads every bit of a word over the whole word. -/
def avalanche (h : UInt64) : UInt64 := shiftMix (shiftMix h 37 * 0x165667919E3779F9) 32

/-- A stronger spreading, for short inputs. -/
def avalancheShort (h : UInt64) : UInt64 :=
  shiftMix (shiftMix (shiftMix h 33 * prime64b) 29 * prime64c) 32

def low32 (h : UInt64) : UInt64 := h &&& 0xFFFFFFFF

/-- The byte of a word that starts at a bit. -/
def byteOf (h bit : UInt64) : UInt64 := (h >>> bit : UInt64) &&& 0xFF

def swap32 (h : UInt64) : UInt64 :=
  (byteOf h 0 <<< 24) ||| (byteOf h 8 <<< 16) ||| (byteOf h 16 <<< 8) ||| byteOf h 24

def swap64 (h : UInt64) : UInt64 := (swap32 (low32 h) <<< 32) ||| swap32 (h >>> 32)

/-- A word of 32 bits turned left by 13 bits. -/
def turn13 (h : UInt64) : UInt64 := low32 ((h <<< 13) ||| (h >>> 19))

/-! ## Up to sixteen bytes -/

/-- The hash of no bytes. -/
def hashEmpty : Halves :=
  ⟨avalancheShort (key 64 ^^^ key 72), avalancheShort (key 80 ^^^ key 88)⟩

/-- One to three bytes. -/
def hashTiny (bytes : ByteArray) : Halves :=
  let n := bytes.size
  let first := (byteAt bytes 0).toUInt64
  let middle := (byteAt bytes (n / 2)).toUInt64
  let last := (byteAt bytes (n - 1)).toUInt64
  let low := (first <<< 16) ||| (middle <<< 24) ||| last ||| (n.toUInt64 <<< 8)
  let high := turn13 (swap32 low)
  ⟨avalancheShort (low ^^^ (word32 secret 0 ^^^ word32 secret 4)),
    avalancheShort (high ^^^ (word32 secret 8 ^^^ word32 secret 12))⟩

/-- Four to eight bytes. -/
def hashSmall (bytes : ByteArray) : Halves :=
  let n := bytes.size
  let input := word32 bytes 0 + (word32 bytes (n - 4) <<< 32)
  let product := multiply (input ^^^ (key 16 ^^^ key 24)) (prime64a + (n.toUInt64 <<< 2))
  let high := product.high + (product.low <<< 1)
  let low := product.low ^^^ (high >>> 3)
  ⟨shiftMix (shiftMix low 35 * 0x9FB21C651E98DF25) 28, avalanche high⟩

/-- Nine to sixteen bytes. -/
def hashMedium (bytes : ByteArray) : Halves :=
  let n := bytes.size
  let first := word64 bytes 0
  let last := word64 bytes (n - 8)
  let product := multiply (first ^^^ last ^^^ (key 32 ^^^ key 40)) prime64a
  let last := last ^^^ (key 48 ^^^ key 56)
  let low := product.low + ((n - 1).toUInt64 <<< 54)
  let high := product.high + (last + low32 last * (prime32b - 1))
  let product := multiply (low ^^^ swap64 high) prime64b
  ⟨avalanche product.low, avalanche (product.high + high * prime64b)⟩

/-! ## Up to 240 bytes -/

/-- Mixes sixteen bytes with sixteen bytes of the secret. -/
def mix16 (bytes : ByteArray) (start : Nat) (keyStart : Nat) : UInt64 :=
  fold (word64 bytes start ^^^ key keyStart) (word64 bytes (start + 8) ^^^ key (keyStart + 8))

/-- Mixes two pieces of sixteen bytes into a state. -/
def mix32 (bytes : ByteArray) (state : Halves) (one two keyStart : Nat) : Halves :=
  ⟨(state.low + mix16 bytes one keyStart) ^^^ (word64 bytes two + word64 bytes (two + 8)),
    (state.high + mix16 bytes two (keyStart + 16)) ^^^
      (word64 bytes one + word64 bytes (one + 8))⟩

/-- The hash of a state after `n` bytes. -/
def finish (n : Nat) (state : Halves) : Halves :=
  ⟨avalanche (state.low + state.high),
    0 - avalanche (state.low * prime64a + state.high * prime64d + n.toUInt64 * prime64b)⟩

/-- 17 to 128 bytes: pieces from both ends, the innermost first. -/
def hashLarge (bytes : ByteArray) : Halves :=
  let n := bytes.size
  let rounds := (n - 1) / 32
  let state := (List.range (rounds + 1)).reverse.foldl
    (fun state i => mix32 bytes state (16 * i) (n - 16 * (i + 1)) (32 * i))
    ⟨n.toUInt64 * prime64a, 0⟩
  finish n state

/-- 129 to 240 bytes: pieces of 32 bytes in order, then the last 32 bytes. -/
def hashLarger (bytes : ByteArray) : Halves :=
  let n := bytes.size
  let state := (List.range 4).foldl
    (fun state i => mix32 bytes state (32 * i) (32 * i + 16) (32 * i))
    ⟨n.toUInt64 * prime64a, 0⟩
  let state : Halves := ⟨avalanche state.low, avalanche state.high⟩
  let state := (List.range (n / 32 - 4)).foldl
    (fun state i => mix32 bytes state (128 + 32 * i) (144 + 32 * i) (3 + 32 * i)) state
  finish n (mix32 bytes state (n - 16) (n - 32) 103)

/-! ## More than 240 bytes -/

/-- Adds a stripe of 64 bytes to eight lanes. -/
def addStripe (bytes : ByteArray) (start keyStart : Nat) (lanes : List UInt64) : List UInt64 :=
  lanes.zipIdx.map fun (lane, i) =>
    let keyed := word64 bytes (start + 8 * i) ^^^ key (keyStart + 8 * i)
    let other := if i % 2 = 0 then i + 1 else i - 1
    lane + word64 bytes (start + 8 * other) + low32 keyed * (keyed >>> 32)

/-- Adds `count` stripes from a place on. -/
def addStripes (bytes : ByteArray) (start count : Nat) (lanes : List UInt64) : List UInt64 :=
  (List.range count).foldl (fun lanes i => addStripe bytes (start + 64 * i) (8 * i) lanes) lanes

/-- Scrambles the lanes at the end of a block. -/
def scramble (lanes : List UInt64) : List UInt64 :=
  lanes.zipIdx.map fun (lane, i) => (shiftMix lane 47 ^^^ key (128 + 8 * i)) * prime32a

/-- Merges lanes, two at a time, into one word. -/
def merge (keyStart : Nat) (state : UInt64) : List UInt64 → UInt64
  | a :: b :: rest =>
    merge (keyStart + 16) (state + fold (a ^^^ key keyStart) (b ^^^ key (keyStart + 8))) rest
  | _ => avalanche state

/-- More than 240 bytes: blocks of sixteen stripes, the rest, and the last stripe once more. -/
def hashLong (bytes : ByteArray) : Halves :=
  let n := bytes.size
  let blocks := (n - 1) / 1024
  let lanes := (List.range blocks).foldl
    (fun lanes i => scramble (addStripes bytes (1024 * i) 16 lanes))
    [prime32c, prime64a, prime64b, prime64c, prime64d, prime32b, prime64e, prime32a]
  let lanes := addStripes bytes (1024 * blocks) ((n - 1 - 1024 * blocks) / 64) lanes
  let lanes := addStripe bytes (n - 64) 121 lanes
  ⟨merge 11 (n.toUInt64 * prime64a) lanes, merge 117 (~~~ (n.toUInt64 * prime64b)) lanes⟩

def ofBytes (bytes : ByteArray) : Halves :=
  let n := bytes.size
  if n = 0 then hashEmpty
  else if n ≤ 3 then hashTiny bytes
  else if n ≤ 8 then hashSmall bytes
  else if n ≤ 16 then hashMedium bytes
  else if n ≤ 128 then hashLarge bytes
  else if n ≤ 240 then hashLarger bytes
  else hashLong bytes

end IncrementalBuild.Hash
