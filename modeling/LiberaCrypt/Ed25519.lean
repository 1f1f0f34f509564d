import LiberaCrypt.Field25519

namespace LiberaCrypt.Ed25519

open LiberaCrypt.Field25519 LiberaCrypt.MonadicLoop LiberaCrypt.WordArithmetic

@[ext] structure Ed25519Point where
  x : FieldElement
  y : FieldElement
  z : FieldElement
  t : FieldElement

def ed25519D : FieldElement :=
  [0x78a3, 0x1359, 0x4dca, 0x75eb, 0xd8ab, 0x4141, 0x0a4d, 0x0070, 0xe898, 0x7779, 0x4079, 0x8cc7,
    0xfe73, 0x2b6f, 0x6cee, 0x5203]

def ed25519D2 : FieldElement :=
  [0xf159, 0x26b2, 0x9b94, 0xebd6, 0xb156, 0x8283, 0x149a, 0x00e0, 0xd130, 0xeef3, 0x80f2, 0x198e,
    0xfce7, 0x56df, 0xd9dc, 0x2406]

def ed25519SqrtM1 : FieldElement :=
  [0xa0b0, 0x4a0e, 0x1b27, 0xc4ee, 0xe478, 0xad2f, 0x1806, 0x2f43, 0xd7a7, 0x3dfb, 0x0099, 0x2b4d,
    0xdf0b, 0x4fc1, 0x2480, 0x2b83]

def ed25519BaseX : FieldElement :=
  [0xd51a, 0x8f25, 0x2d60, 0xc956, 0xa7b2, 0x9525, 0xc760, 0x692c, 0xdc5c, 0xfdd6, 0xe231, 0xc0a4,
    0x53fe, 0xcd6e, 0x36d3, 0x2169]

def ed25519BaseY : FieldElement :=
  [0x6658, 0x6666, 0x6666, 0x6666, 0x6666, 0x6666, 0x6666, 0x6666, 0x6666, 0x6666, 0x6666, 0x6666,
    0x6666, 0x6666, 0x6666, 0x6666]

def ed25519BaseT : FieldElement :=
  [0xdda3, 0xa5b7, 0x8ab3, 0x6dde, 0x52f5, 0x7751, 0x9f80, 0x20f0, 0xe37d, 0x64ab, 0x4e8e, 0x66ea,
    0x7665, 0xd78b, 0x5f0f, 0x6787]

def pointIdentity : Ed25519Point := ⟨feZero, feOne, feOne, feZero⟩

def pointBase : Ed25519Point := ⟨ed25519BaseX, ed25519BaseY, feOne, ed25519BaseT⟩

variable {m : Type → Type} [Monad m] (W : Words m)

def pointAdd (left right : Ed25519Point) : m Ed25519Point := do
  let temporary0 ← feSub W left.y left.x
  let temporary1 ← feSub W right.y right.x
  let a ← feMul W temporary0 temporary1
  let temporary0 ← feAdd W left.y left.x
  let temporary1 ← feAdd W right.y right.x
  let b ← feMul W temporary0 temporary1
  let temporary0 ← feMul W left.t right.t
  let c ← feMul W temporary0 ed25519D2
  let temporary0 ← feMul W left.z right.z
  let d ← feAdd W temporary0 temporary0
  let e ← feSub W b a
  let f ← feSub W d c
  let g ← feAdd W d c
  let h ← feAdd W b a
  let x ← feMul W e f
  let y ← feMul W g h
  let t ← feMul W e h
  let z ← feMul W f g
  return ⟨x, y, z, t⟩

def pointDouble (point : Ed25519Point) : m Ed25519Point := do
  let a ← feSquare W point.x
  let b ← feSquare W point.y
  let temporary ← feSquare W point.z
  let c ← feAdd W temporary temporary
  let d ← feNegate W a
  let temporary ← feAdd W point.x point.y
  let e ← feSquare W temporary
  let e ← feSub W e a
  let e ← feSub W e b
  let g ← feAdd W d b
  let f ← feSub W g c
  let h ← feSub W d b
  let x ← feMul W e f
  let y ← feMul W g h
  let t ← feMul W e h
  let z ← feMul W f g
  return ⟨x, y, z, t⟩

def equalMaskU32 (left right : UInt32) : UInt32 :=
  let difference := left ^^^ right
  let difference := difference ||| ((0 : UInt32) - difference)
  (0 : UInt32) - ((difference >>> 31) ^^^ 1)

def selectEntry (mask : UInt32) (out entry : Ed25519Point) : Ed25519Point :=
  ⟨selectRow mask out.x entry.x, selectRow mask out.y entry.y, selectRow mask out.z entry.z,
    selectRow mask out.t entry.t⟩

/-- Every entry is read, and the one whose index is asked for is kept. -/
def pointSelect (table : List Ed25519Point) (index : UInt32) : Ed25519Point :=
  CountedLoop.countUp 16 (fun tableIndex out =>
    selectEntry (equalMaskU32 (UInt32.ofNat tableIndex) index) out
      (table.getD tableIndex pointIdentity)) pointIdentity

def pointProcessWindow (table : List Ed25519Point) (accumulator : Ed25519Point) (index : UInt32) :
    m Ed25519Point := do
  let accumulator ← countUpM 4 (fun _ => pointDouble W) accumulator
  pointAdd W accumulator (pointSelect table index)

/-- The entries of the table after `last`, each the one before it plus the point. -/
def tableAfter (point : Ed25519Point) : Nat → Ed25519Point → m (List Ed25519Point)
  | 0, _ => return []
  | n + 1, last => do
    let next ← pointAdd W last point
    let rest ← tableAfter point n next
    return next :: rest

def windowTable (point : Ed25519Point) : m (List Ed25519Point) := do
  let rest ← tableAfter W point 14 point
  return pointIdentity :: point :: rest

def processByte (table : List Ed25519Point) (scalar : List UInt8) (i : Nat)
    (accumulator : Ed25519Point) : m Ed25519Point := do
  let byte := (scalar.getD i 0).toUInt32
  let accumulator ← pointProcessWindow W table accumulator (byte >>> 4)
  pointProcessWindow W table accumulator (byte &&& 0x0f)

def pointScalarMultiply (point : Ed25519Point) (scalar : List UInt8) : m Ed25519Point := do
  let table ← windowTable W point
  countDownM 32 (processByte W table scalar) pointIdentity

def pointIsIdentity (point : Ed25519Point) : m Bool := do
  let zero ← feIsZero W point.x
  if zero then feEqual W point.y point.z else return false

def pointEqual (left right : Ed25519Point) : m Bool := do
  let leftX ← feMul W left.x right.z
  let rightX ← feMul W right.x left.z
  let leftY ← feMul W left.y right.z
  let rightY ← feMul W right.y left.z
  let equal ← feEqual W leftX rightX
  if equal then feEqual W leftY rightY else return false

def pointEncode (point : Ed25519Point) : m (List UInt8) := do
  let inverseZ ← feInvert W point.z
  let x ← feMul W point.x inverseZ
  let y ← feMul W point.y inverseZ
  let output ← feToBytes W y
  let sign ← feIsNegative W x
  return output.set 31 (output.getD 31 0 ||| (sign.toUInt32 <<< 7).toUInt8)

/-- The candidate for the square root, or else its multiple by the root of minus one. -/
def decodeRoot (xSquared : FieldElement) : m (Option FieldElement) := do
  let x ← feSqrtCandidate W xSquared
  let check ← feSquare W x
  let found ← feEqual W check xSquared
  if found then return some x
  else
    let x ← feMul W x ed25519SqrtM1
    let check ← feSquare W x
    let found ← feEqual W check xSquared
    return if found then some x else none

def decodeSign (x : FieldElement) (sign : UInt32) : m FieldElement := do
  let negative ← feIsNegative W x
  if negative.toUInt32 ≠ sign then feNegate W x else return x

/-- The `x` that belongs to a `y`. -/
def decodeX (y : FieldElement) (sign : UInt32) : m (Option FieldElement) := do
  let ySquared ← feSquare W y
  let u ← feSub W ySquared feOne
  let v ← feMul W ed25519D ySquared
  let v ← feAdd W v feOne
  let inverseV ← feInvert W v
  let xSquared ← feMul W u inverseV
  match ← decodeRoot W xSquared with
  | none => return none
  | some x => do
    let zero ← feIsZero W x
    if zero = true ∧ sign ≠ 0 then return none else some <$> decodeSign W x sign

/-- The point, and whether the bytes are valid; it is the identity where they are not. -/
def pointDecode (input : List UInt8) : m (Ed25519Point × Bool) := do
  let sign := (input.getD 31 0 >>> 7).toUInt32
  let y ← feFromCanonicalBytes W input
  if y.2 then
    match ← decodeX W y.1 sign with
    | none => return (pointIdentity, false)
    | some x => do
      let t ← feMul W x y.1
      return (⟨x, y.1, feOne, t⟩, true)
  else return (pointIdentity, false)

end LiberaCrypt.Ed25519
