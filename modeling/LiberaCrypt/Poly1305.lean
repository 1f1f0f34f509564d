import LiberaCrypt.BlockBuffer
import LiberaCrypt.Endian
import LiberaCrypt.WordArithmetic

namespace LiberaCrypt.Poly1305

open LiberaCrypt.BlockBuffer LiberaCrypt.CheckedWords LiberaCrypt.Endian

structure FiveLimbs (ω : Type) where
  l0 : ω
  l1 : ω
  l2 : ω
  l3 : ω
  l4 : ω

def limbMask : UInt32 := 0x03ffffff

def fullBlockBit : UInt32 := 0x01000000

/-- `BUFFER` and `LEFTOVER` are the buffer of `H`. -/
structure CryptoPoly1305Context where
  r : FiveLimbs UInt32
  pad : Vector UInt32 4
  buffer : Buffer (FiveLimbs UInt32) UInt8

def clampedLimbs (key : List UInt8) : FiveLimbs UInt32 :=
  let t0 := cryptoLoad32Le key
  let t1 := cryptoLoad32Le (key.drop 4)
  let t2 := cryptoLoad32Le (key.drop 8)
  let t3 := cryptoLoad32Le (key.drop 12)
  ⟨t0 &&& 0x03ffffff,
    ((t0 >>> 26) ||| (t1 <<< 6)) &&& 0x03ffff03,
    ((t1 >>> 20) ||| (t2 <<< 12)) &&& 0x03ffc0ff,
    ((t2 >>> 14) ||| (t3 <<< 18)) &&& 0x03f03fff,
    (t3 >>> 8) &&& 0x000fffff⟩

def cryptoPoly1305Init (key : List UInt8) : CryptoPoly1305Context :=
  ⟨clampedLimbs key,
    #v[cryptoLoad32Le (key.drop 16), cryptoLoad32Le (key.drop 20), cryptoLoad32Le (key.drop 24),
      cryptoLoad32Le (key.drop 28)],
    ⟨⟨0, 0, 0, 0, 0⟩, List.replicate 16 0, 0⟩⟩

/-- The block as five limbs, with the bit that ends it, added to `h`. -/
def addMessage (highBit : UInt32) (h : FiveLimbs UInt32) (message : List UInt8) :
    FiveLimbs UInt32 :=
  let t0 := cryptoLoad32Le message
  let t1 := cryptoLoad32Le (message.drop 4)
  let t2 := cryptoLoad32Le (message.drop 8)
  let t3 := cryptoLoad32Le (message.drop 12)
  ⟨h.l0 + (t0 &&& limbMask),
    h.l1 + (((t0 >>> 26) ||| (t1 <<< 6)) &&& limbMask),
    h.l2 + (((t1 >>> 20) ||| (t2 <<< 12)) &&& limbMask),
    h.l3 + (((t2 >>> 14) ||| (t3 <<< 18)) &&& limbMask),
    h.l4 + ((t3 >>> 8) ||| highBit)⟩

def sumOfProducts (h : FiveLimbs UInt32) (a0 a1 a2 a3 a4 : UInt32) : UInt64 :=
  h.l0.toUInt64 * a0.toUInt64 + h.l1.toUInt64 * a1.toUInt64 + h.l2.toUInt64 * a2.toUInt64 +
    h.l3.toUInt64 * a3.toUInt64 + h.l4.toUInt64 * a4.toUInt64

def multiply (r h : FiveLimbs UInt32) : FiveLimbs UInt64 :=
  let s1 := r.l1 * 5
  let s2 := r.l2 * 5
  let s3 := r.l3 * 5
  let s4 := r.l4 * 5
  ⟨sumOfProducts h r.l0 s4 s3 s2 s1,
    sumOfProducts h r.l1 r.l0 s4 s3 s2,
    sumOfProducts h r.l2 r.l1 r.l0 s4 s3,
    sumOfProducts h r.l3 r.l2 r.l1 r.l0 s4,
    sumOfProducts h r.l4 r.l3 r.l2 r.l1 r.l0⟩

/-- The carry from limb to limb and from the top to the bottom; `h1` keeps the last one. -/
def carryLimbs (d : FiveLimbs UInt64) : FiveLimbs UInt32 :=
  let carry := (d.l0 >>> 26).toUInt32
  let h0 := d.l0.toUInt32 &&& limbMask
  let d1 := d.l1 + carry.toUInt64
  let carry := (d1 >>> 26).toUInt32
  let h1 := d1.toUInt32 &&& limbMask
  let d2 := d.l2 + carry.toUInt64
  let carry := (d2 >>> 26).toUInt32
  let h2 := d2.toUInt32 &&& limbMask
  let d3 := d.l3 + carry.toUInt64
  let carry := (d3 >>> 26).toUInt32
  let h3 := d3.toUInt32 &&& limbMask
  let d4 := d.l4 + carry.toUInt64
  let carry := (d4 >>> 26).toUInt32
  let h4 := d4.toUInt32 &&& limbMask
  let h0 := h0 + carry * 5
  let carry := h0 >>> 26
  let h0 := h0 &&& limbMask
  ⟨h0, h1 + carry, h2, h3, h4⟩

def poly1305Block (highBit : UInt32) (r h : FiveLimbs UInt32) (message : List UInt8) :
    FiveLimbs UInt32 :=
  carryLimbs (multiply r (addMessage highBit h message))

def cryptoPoly1305Update (context : CryptoPoly1305Context) (message : List UInt8) :
    CryptoPoly1305Context :=
  { context with buffer := update (poly1305Block fullBlockBit context.r) 16 context.buffer message }

/-- The last block, of fewer than 16 bytes, is ended by a byte in the buffer. -/
def finishBlock (context : CryptoPoly1305Context) : FiveLimbs UInt32 :=
  let leftover := context.buffer.bufferLength
  if leftover ≠ 0 then
    let marked := copyAt context.buffer.block leftover [1]
    poly1305Block 0 context.r context.buffer.state (fillAt marked (leftover + 1) 16 0)
  else context.buffer.state

def finalCarry (h : FiveLimbs UInt32) : FiveLimbs UInt32 :=
  let carry := h.l1 >>> 26
  let h1 := h.l1 &&& limbMask
  let h2 := h.l2 + carry
  let carry := h2 >>> 26
  let h2 := h2 &&& limbMask
  let h3 := h.l3 + carry
  let carry := h3 >>> 26
  let h3 := h3 &&& limbMask
  let h4 := h.l4 + carry
  let carry := h4 >>> 26
  let h4 := h4 &&& limbMask
  let h0 := h.l0 + carry * 5
  let carry := h0 >>> 26
  let h0 := h0 &&& limbMask
  ⟨h0, h1 + carry, h2, h3, h4⟩

/-- `h - (2^130 - 5)`; the top bit of the last limb is set when that is negative. -/
def subtractPrime (h : FiveLimbs UInt32) : FiveLimbs UInt32 :=
  let g0 := h.l0 + 5
  let carry := g0 >>> 26
  let g0 := g0 &&& limbMask
  let g1 := h.l1 + carry
  let carry := g1 >>> 26
  let g1 := g1 &&& limbMask
  let g2 := h.l2 + carry
  let carry := g2 >>> 26
  let g2 := g2 &&& limbMask
  let g3 := h.l3 + carry
  let carry := g3 >>> 26
  let g3 := g3 &&& limbMask
  ⟨g0, g1, g2, g3, h.l4 + carry - ((1 : UInt32) <<< 26)⟩

def selectReduced (h g : FiveLimbs UInt32) : FiveLimbs UInt32 :=
  let mask := (g.l4 >>> 31) - 1
  let select := fun h g : UInt32 => (h &&& ~~~mask) ||| (g &&& mask)
  ⟨select h.l0 g.l0, select h.l1 g.l1, select h.l2 g.l2, select h.l3 g.l3, select h.l4 g.l4⟩

/-- Four words, and the carries of the addition of `pad` only. -/
def packTag (h : FiveLimbs UInt32) (pad : Vector UInt32 4) : List UInt8 :=
  let word0 := h.l0 ||| (h.l1 <<< 26)
  let word1 := (h.l1 >>> 6) ||| (h.l2 <<< 20)
  let word2 := (h.l2 >>> 12) ||| (h.l3 <<< 14)
  let word3 := (h.l3 >>> 18) ||| (h.l4 <<< 8)
  let sum0 := word0.toUInt64 + pad[0].toUInt64
  let sum1 := word1.toUInt64 + pad[1].toUInt64 + (sum0 >>> 32)
  let sum2 := word2.toUInt64 + pad[2].toUInt64 + (sum1 >>> 32)
  let sum3 := word3.toUInt64 + pad[3].toUInt64 + (sum2 >>> 32)
  cryptoStore32Le sum0.toUInt32 ++ cryptoStore32Le sum1.toUInt32 ++
    cryptoStore32Le sum2.toUInt32 ++ cryptoStore32Le sum3.toUInt32

/-- The additions of `pad`; the cut of each sum to a word is meant, and its carry goes on. -/
def packTagChecked (h : FiveLimbs UInt32) (pad : Vector UInt32 4) : Option (List UInt8) := do
  let word0 := h.l0 ||| (h.l1 <<< 26)
  let word1 := (h.l1 >>> 6) ||| (h.l2 <<< 20)
  let word2 := (h.l2 >>> 12) ||| (h.l3 <<< 14)
  let word3 := (h.l3 >>> 18) ||| (h.l4 <<< 8)
  let sum0 ← add64 word0.toUInt64 pad[0].toUInt64
  let sum1 ← add64 word1.toUInt64 pad[1].toUInt64
  let sum1 ← add64 sum1 (sum0 >>> 32)
  let sum2 ← add64 word2.toUInt64 pad[2].toUInt64
  let sum2 ← add64 sum2 (sum1 >>> 32)
  let sum3 ← add64 word3.toUInt64 pad[3].toUInt64
  let sum3 ← add64 sum3 (sum2 >>> 32)
  pure (cryptoStore32Le sum0.toUInt32 ++ cryptoStore32Le sum1.toUInt32 ++
    cryptoStore32Le sum2.toUInt32 ++ cryptoStore32Le sum3.toUInt32)

def padValue (pad : Vector UInt32 4) : Nat :=
  pad[0].toNat + 2 ^ 32 * pad[1].toNat + 2 ^ 64 * pad[2].toNat + 2 ^ 96 * pad[3].toNat

def cryptoPoly1305Final (context : CryptoPoly1305Context) : List UInt8 :=
  let h := finalCarry (finishBlock context)
  packTag (selectReduced h (subtractPrime h)) context.pad

def cryptoPoly1305 (message key : List UInt8) : List UInt8 :=
  cryptoPoly1305Final (cryptoPoly1305Update (cryptoPoly1305Init key) message)

end LiberaCrypt.Poly1305
