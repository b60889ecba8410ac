import FractalShader.Hex

/-
  This file computes SHA-256 digests.

  A message is padded to whole blocks of sixty-four bytes.
  Every block is stretched to sixty-four words, which are
  mixed one after another into a state of eight words.

  Key definitions include:
    * `Sha256.padded`
    * `Sha256.schedule`
    * `Sha256.compress`
    * `Sha256.digest`
    * `Sha256.hex`
-/

namespace FractalShader

namespace Sha256

------------------------------------------------------------
-- Constants
------------------------------------------------------------

/- The constants of the sixty-four rounds. -/
def roundConstants : List UInt32 :=
  [ 0x428a2f98, 0x71374491, 0xb5c0fbcf, 0xe9b5dba5
  , 0x3956c25b, 0x59f111f1, 0x923f82a4, 0xab1c5ed5
  , 0xd807aa98, 0x12835b01, 0x243185be, 0x550c7dc3
  , 0x72be5d74, 0x80deb1fe, 0x9bdc06a7, 0xc19bf174
  , 0xe49b69c1, 0xefbe4786, 0x0fc19dc6, 0x240ca1cc
  , 0x2de92c6f, 0x4a7484aa, 0x5cb0a9dc, 0x76f988da
  , 0x983e5152, 0xa831c66d, 0xb00327c8, 0xbf597fc7
  , 0xc6e00bf3, 0xd5a79147, 0x06ca6351, 0x14292967
  , 0x27b70a85, 0x2e1b2138, 0x4d2c6dfc, 0x53380d13
  , 0x650a7354, 0x766a0abb, 0x81c2c92e, 0x92722c85
  , 0xa2bfe8a1, 0xa81a664b, 0xc24b8b70, 0xc76c51a3
  , 0xd192e819, 0xd6990624, 0xf40e3585, 0x106aa070
  , 0x19a4c116, 0x1e376c08, 0x2748774c, 0x34b0bcb5
  , 0x391c0cb3, 0x4ed8aa4a, 0x5b9cca4f, 0x682e6ff3
  , 0x748f82ee, 0x78a5636f, 0x84c87814, 0x8cc70208
  , 0x90befffa, 0xa4506ceb, 0xbef9a3f7, 0xc67178f2 ]

/- The eight words of the state. -/
structure State where
  a : UInt32
  b : UInt32
  c : UInt32
  d : UInt32
  e : UInt32
  f : UInt32
  g : UInt32
  h : UInt32
deriving DecidableEq, Repr

/- The state before the first block. -/
def State.start : State :=
  ⟨0x6a09e667, 0xbb67ae85, 0x3c6ef372, 0xa54ff53a,
    0x510e527f, 0x9b05688c, 0x1f83d9ab, 0x5be0cd19⟩

------------------------------------------------------------
-- Words
------------------------------------------------------------

/- Turn the bits of a word to the right. -/
def turn (x k : UInt32) : UInt32 :=
  (x >>> k) ||| (x <<< (32 - k))

/- The word of four bytes, the highest byte first. -/
def word (a b c d : UInt8) : UInt32 :=
  (a.toUInt32 <<< 24) ||| (b.toUInt32 <<< 16) |||
    (c.toUInt32 <<< 8) ||| d.toUInt32

/- The words of some bytes. -/
def words : List UInt8 → List UInt32
  | a :: b :: c :: d :: rest => word a b c d :: words rest
  | _ => []

/- The bytes of a number, the highest first. -/
def bytes : Nat → Nat → List UInt8
  | 0, _ => []
  | k + 1, n => bytes k (n / 256) ++ [UInt8.ofNat n]

------------------------------------------------------------
-- Blocks
------------------------------------------------------------

/-
  A message with a mark, zeros, and its length in bits; the
  whole fills blocks of sixty-four bytes.
-/
def padded (message : List UInt8) : List UInt8 :=
  let zeros := (119 - message.length % 64) % 64
  message ++ 0x80 :: List.replicate zeros 0 ++
    bytes 8 (8 * message.length)

/- The word that follows the last sixteen, newest first. -/
def nextWord (recent : List UInt32) : UInt32 :=
  let w15 := recent.getD 14 0
  let w2 := recent.getD 1 0
  let s0 := turn w15 7 ^^^ turn w15 18 ^^^ (w15 >>> 3)
  let s1 := turn w2 17 ^^^ turn w2 19 ^^^ (w2 >>> 10)
  recent.getD 15 0 + s0 + recent.getD 6 0 + s1

/- Put a number of following words in front. -/
def extend : Nat → List UInt32 → List UInt32
  | 0, recent => recent
  | k + 1, recent => extend k (nextWord recent :: recent)

/- The sixty-four words of a block. -/
def schedule (block : List UInt8) : List UInt32 :=
  (extend 48 (words block).reverse).reverse

------------------------------------------------------------
-- Mixing
------------------------------------------------------------

/- One round. -/
def mix
    (s : State)
    (input : UInt32 × UInt32) : State :=
  let sum1 := turn s.e 6 ^^^ turn s.e 11 ^^^ turn s.e 25
  let choice := (s.e &&& s.f) ^^^ (~~~s.e &&& s.g)
  let t1 := s.h + sum1 + choice + input.1 + input.2
  let sum0 := turn s.a 2 ^^^ turn s.a 13 ^^^ turn s.a 22
  let majority :=
    (s.a &&& s.b) ^^^ (s.a &&& s.c) ^^^ (s.b &&& s.c)
  let t2 := sum0 + majority
  ⟨t1 + t2, s.a, s.b, s.c, s.d + t1, s.e, s.f, s.g⟩

/- Mix one block into the state. -/
def compress
    (s : State)
    (block : List UInt8) : State :=
  let t := (roundConstants.zip (schedule block)).foldl mix s
  ⟨s.a + t.a, s.b + t.b, s.c + t.c, s.d + t.d,
    s.e + t.e, s.f + t.f, s.g + t.g, s.h + t.h⟩

/- Mix a number of blocks into the state. -/
def compressBlocks :
    Nat → State → List UInt8 → State
  | 0, s, _ => s
  | k + 1, s, rest =>
      compressBlocks k (compress s (rest.take 64))
        (rest.drop 64)

/- The digest of a message. -/
def digest (message : List UInt8) : State :=
  let blocks := padded message
  compressBlocks (blocks.length / 64) .start blocks

------------------------------------------------------------
-- Text
------------------------------------------------------------

/- The digest of the bytes of a text, in hexadecimal. -/
def hex (text : String) : String :=
  let s := digest text.toUTF8.toList
  String.ofList
    ([s.a, s.b, s.c, s.d, s.e, s.f, s.g, s.h].flatMap
      fun x => Hex.lowest 8 x.toNat)

end Sha256

end FractalShader
