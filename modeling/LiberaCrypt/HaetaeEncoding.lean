import LiberaCrypt.HaetaeRans

namespace LiberaCrypt.HaetaeEncoding

open LiberaCrypt.HaetaeRans

def cryptoHaetaeN : Nat := 256

def cryptoHaetaeQ : Nat := 64513

def cryptoHaetaeDoubleQ : Nat := cryptoHaetaeQ <<< 1

/-- The fields of a parameter set that the encodings read. -/
structure CryptoHaetaeParameters where
  publicKeyBytes : Nat
  privateKeyBytes : Nat
  signatureBytes : Nat
  mode : Nat
  k : Nat
  l : Nat
  d : Nat
  baseEncodingHighBitsZ1 : Nat
  baseEncodingHint : Nat
  alphaHint : Nat
  logAlphaHint : Nat
  polyQPackedBytes : Nat
deriving DecidableEq

def cryptoHaetaeParameterTable : List CryptoHaetaeParameters :=
  [⟨992, 1408, 1474, 2, 2, 4, 1, 132, 7, 512, 9, 480⟩,
   ⟨1472, 2112, 2349, 3, 3, 6, 1, 376, 127, 512, 9, 480⟩,
   ⟨2080, 2752, 2948, 5, 4, 7, 0, 501, 358, 256, 8, 512⟩]

def scaleBits : Nat := 10

def ransRcpFreqHalf : Nat := 0x80000000

def runs (lengths : List (Nat × Nat)) : List Nat :=
  lengths.flatMap fun run => List.replicate run.1 run.2

def esymsHMode2 : List RansEncSymbol :=
  [⟨801112064, 0xAB8F69E3, 0, 642, 8⟩, ⟨515899392, 0x85340854, 382, 778, 7⟩,
   ⟨136314880, 0xFC0FC0FD, 628, 959, 6⟩, ⟨14680064, 0x92492493, 693, 1017, 2⟩,
   ⟨2097152, 0xFFFFFFFF, 1723, 1023, 0⟩, ⟨2097152, 0xFFFFFFFF, 1724, 1023, 0⟩,
   ⟨2097152, 0xFFFFFFFF, 1725, 1023, 0⟩, ⟨2097152, 0xFFFFFFFF, 1726, 1023, 0⟩,
   ⟨2097152, 0xFFFFFFFF, 1727, 1023, 0⟩, ⟨2097152, 0xFFFFFFFF, 1728, 1023, 0⟩,
   ⟨14680064, 0x92492493, 706, 1017, 2⟩, ⟨136314880, 0xFC0FC0FD, 713, 959, 6⟩,
   ⟨515899392, 0x85340854, 778, 778, 7⟩]

def dsymsHMode2 : List RansDecSymbol :=
  [⟨0, 382⟩, ⟨382, 246⟩, ⟨628, 65⟩, ⟨693, 7⟩, ⟨700, 1⟩, ⟨701, 1⟩, ⟨702, 1⟩, ⟨703, 1⟩, ⟨704, 1⟩,
   ⟨705, 1⟩, ⟨706, 7⟩, ⟨713, 65⟩, ⟨778, 246⟩]

def symbolHMode2 : List Nat := runs
  [(382, 0), (246, 1), (65, 2), (7, 3), (1, 4), (1, 5), (1, 6), (1, 7), (1, 8), (1, 9), (7, 10),
   (65, 11), (246, 12)]

def esymsHbZ1Mode2 : List RansEncSymbol :=
  [⟨2097152, 0xFFFFFFFF, 1023, 1023, 0⟩, ⟨2097152, 0xFFFFFFFF, 1024, 1023, 0⟩,
   ⟨2097152, 0xFFFFFFFF, 1025, 1023, 0⟩, ⟨10485760, 0xCCCCCCCD, 3, 1019, 2⟩,
   ⟨121634816, 0x8D3DCB09, 8, 966, 5⟩, ⟨515899392, 0x85340854, 66, 778, 7⟩,
   ⟨834666496, 0xA4A9CF1E, 312, 626, 8⟩, ⟨517996544, 0x84A9F9C9, 710, 777, 7⟩,
   ⟨123731968, 0x8AD8F2FC, 957, 965, 5⟩, ⟨10485760, 0xCCCCCCCD, 1016, 1019, 2⟩,
   ⟨2097152, 0xFFFFFFFF, 2044, 1023, 0⟩, ⟨2097152, 0xFFFFFFFF, 2045, 1023, 0⟩,
   ⟨2097152, 0xFFFFFFFF, 2046, 1023, 0⟩]

def dsymsHbZ1Mode2 : List RansDecSymbol :=
  [⟨0, 1⟩, ⟨1, 1⟩, ⟨2, 1⟩, ⟨3, 5⟩, ⟨8, 58⟩, ⟨66, 246⟩, ⟨312, 398⟩, ⟨710, 247⟩, ⟨957, 59⟩,
   ⟨1016, 5⟩, ⟨1021, 1⟩, ⟨1022, 1⟩, ⟨1023, 1⟩]

def symbolHbZ1Mode2 : List Nat := runs
  [(1, 0), (1, 1), (1, 2), (5, 3), (58, 4), (246, 5), (398, 6), (247, 7), (59, 8), (5, 9),
   (1, 10), (1, 11), (1, 12)]

def esymsHMode3 : List RansEncSymbol :=
  [⟨557842432, 0xF6603D99, 0, 758, 8⟩, ⟨446693376, 0x99D722DB, 266, 811, 7⟩,
   ⟨236978176, 0x90FDBC0A, 479, 911, 6⟩, ⟨83886080, 0xCCCCCCCD, 592, 984, 5⟩,
   ⟨18874368, 0xE38E38E4, 632, 1015, 3⟩, ⟨2097152, 0xFFFFFFFF, 1664, 1023, 0⟩,
   ⟨2097152, 0xFFFFFFFF, 1665, 1023, 0⟩, ⟨2097152, 0xFFFFFFFF, 1666, 1023, 0⟩,
   ⟨2097152, 0xFFFFFFFF, 1667, 1023, 0⟩, ⟨2097152, 0xFFFFFFFF, 1668, 1023, 0⟩,
   ⟨2097152, 0xFFFFFFFF, 1669, 1023, 0⟩, ⟨2097152, 0xFFFFFFFF, 1670, 1023, 0⟩,
   ⟨2097152, 0xFFFFFFFF, 1671, 1023, 0⟩, ⟨18874368, 0xE38E38E4, 649, 1015, 3⟩,
   ⟨83886080, 0xCCCCCCCD, 658, 984, 5⟩, ⟨236978176, 0x90FDBC0A, 698, 911, 6⟩,
   ⟨446693376, 0x99D722DB, 811, 811, 7⟩]

def dsymsHMode3 : List RansDecSymbol :=
  [⟨0, 266⟩, ⟨266, 213⟩, ⟨479, 113⟩, ⟨592, 40⟩, ⟨632, 9⟩, ⟨641, 1⟩, ⟨642, 1⟩, ⟨643, 1⟩,
   ⟨644, 1⟩, ⟨645, 1⟩, ⟨646, 1⟩, ⟨647, 1⟩, ⟨648, 1⟩, ⟨649, 9⟩, ⟨658, 40⟩, ⟨698, 113⟩,
   ⟨811, 213⟩]

def symbolHMode3 : List Nat := runs
  [(266, 0), (213, 1), (113, 2), (40, 3), (9, 4), (1, 5), (1, 6), (1, 7), (1, 8), (1, 9),
   (1, 10), (1, 11), (1, 12), (9, 13), (40, 14), (113, 15), (213, 16)]

def esymsHbZ1Mode3 : List RansEncSymbol :=
  [⟨2097152, 0xFFFFFFFF, 1023, 1023, 0⟩, ⟨2097152, 0xFFFFFFFF, 1024, 1023, 0⟩,
   ⟨2097152, 0xFFFFFFFF, 1025, 1023, 0⟩, ⟨2097152, 0xFFFFFFFF, 1026, 1023, 0⟩,
   ⟨16777216, ransRcpFreqHalf, 4, 1016, 2⟩, ⟨77594624, 0xDD67C8A7, 12, 987, 5⟩,
   ⟨234881024, 0x92492493, 49, 912, 6⟩, ⟨452984832, 0x97B425EE, 161, 808, 7⟩,
   ⟨564133888, 0xF3A0D52D, 377, 755, 8⟩, ⟨452984832, 0x97B425EE, 646, 808, 7⟩,
   ⟨234881024, 0x92492493, 862, 912, 6⟩, ⟨79691776, 0xD79435E6, 974, 986, 5⟩,
   ⟨16777216, ransRcpFreqHalf, 1012, 1016, 2⟩, ⟨2097152, 0xFFFFFFFF, 2043, 1023, 0⟩,
   ⟨2097152, 0xFFFFFFFF, 2044, 1023, 0⟩, ⟨2097152, 0xFFFFFFFF, 2045, 1023, 0⟩,
   ⟨2097152, 0xFFFFFFFF, 2046, 1023, 0⟩]

def dsymsHbZ1Mode3 : List RansDecSymbol :=
  [⟨0, 1⟩, ⟨1, 1⟩, ⟨2, 1⟩, ⟨3, 1⟩, ⟨4, 8⟩, ⟨12, 37⟩, ⟨49, 112⟩, ⟨161, 216⟩, ⟨377, 269⟩,
   ⟨646, 216⟩, ⟨862, 112⟩, ⟨974, 38⟩, ⟨1012, 8⟩, ⟨1020, 1⟩, ⟨1021, 1⟩, ⟨1022, 1⟩, ⟨1023, 1⟩]

def symbolHbZ1Mode3 : List Nat := runs
  [(1, 0), (1, 1), (1, 2), (1, 3), (8, 4), (37, 5), (112, 6), (216, 7), (269, 8), (216, 9),
   (112, 10), (38, 11), (8, 12), (1, 13), (1, 14), (1, 15), (1, 16)]

def esymsHMode5 : List RansEncSymbol :=
  [⟨255852544, 0x864B8A7E, 0, 902, 6⟩, ⟨245366784, 0x8C08C08D, 122, 907, 6⟩,
   ⟨213909504, 0xA0A0A0A1, 239, 922, 6⟩, ⟨169869312, 0xCA4587E7, 341, 943, 6⟩,
   ⟨123731968, 0x8AD8F2FC, 422, 965, 5⟩, ⟨81788928, 0xD20D20D3, 481, 985, 5⟩,
   ⟨48234496, 0xB21642C9, 520, 1001, 4⟩, ⟨27262976, 0x9D89D89E, 543, 1011, 3⟩,
   ⟨12582912, 0xAAAAAAAB, 556, 1018, 2⟩, ⟨6291456, 0xAAAAAAAB, 562, 1021, 1⟩,
   ⟨2097152, 0xFFFFFFFF, 1588, 1023, 0⟩, ⟨2097152, 0xFFFFFFFF, 1589, 1023, 0⟩,
   ⟨2097152, 0xFFFFFFFF, 1590, 1023, 0⟩, ⟨2097152, 0xFFFFFFFF, 1591, 1023, 0⟩,
   ⟨2097152, 0xFFFFFFFF, 1592, 1023, 0⟩, ⟨2097152, 0xFFFFFFFF, 1593, 1023, 0⟩,
   ⟨2097152, 0xFFFFFFFF, 1594, 1023, 0⟩, ⟨2097152, 0xFFFFFFFF, 1595, 1023, 0⟩,
   ⟨2097152, 0xFFFFFFFF, 1596, 1023, 0⟩, ⟨2097152, 0xFFFFFFFF, 1597, 1023, 0⟩,
   ⟨2097152, 0xFFFFFFFF, 1598, 1023, 0⟩, ⟨2097152, 0xFFFFFFFF, 1599, 1023, 0⟩,
   ⟨2097152, 0xFFFFFFFF, 1600, 1023, 0⟩, ⟨2097152, 0xFFFFFFFF, 1601, 1023, 0⟩,
   ⟨6291456, 0xAAAAAAAB, 579, 1021, 1⟩, ⟨12582912, 0xAAAAAAAB, 582, 1018, 2⟩,
   ⟨27262976, 0x9D89D89E, 588, 1011, 3⟩, ⟨50331648, 0xAAAAAAAB, 601, 1000, 4⟩,
   ⟨81788928, 0xD20D20D3, 625, 985, 5⟩, ⟨123731968, 0x8AD8F2FC, 664, 965, 5⟩,
   ⟨169869312, 0xCA4587E7, 723, 943, 6⟩, ⟨213909504, 0xA0A0A0A1, 804, 922, 6⟩,
   ⟨247463936, 0x8AD8F2FC, 906, 906, 6⟩]

def dsymsHMode5 : List RansDecSymbol :=
  [⟨0, 122⟩, ⟨122, 117⟩, ⟨239, 102⟩, ⟨341, 81⟩, ⟨422, 59⟩, ⟨481, 39⟩, ⟨520, 23⟩, ⟨543, 13⟩,
   ⟨556, 6⟩, ⟨562, 3⟩, ⟨565, 1⟩, ⟨566, 1⟩, ⟨567, 1⟩, ⟨568, 1⟩, ⟨569, 1⟩, ⟨570, 1⟩, ⟨571, 1⟩,
   ⟨572, 1⟩, ⟨573, 1⟩, ⟨574, 1⟩, ⟨575, 1⟩, ⟨576, 1⟩, ⟨577, 1⟩, ⟨578, 1⟩, ⟨579, 3⟩, ⟨582, 6⟩,
   ⟨588, 13⟩, ⟨601, 24⟩, ⟨625, 39⟩, ⟨664, 59⟩, ⟨723, 81⟩, ⟨804, 102⟩, ⟨906, 118⟩]

def symbolHMode5 : List Nat := runs
  [(122, 0), (117, 1), (102, 2), (81, 3), (59, 4), (39, 5), (23, 6), (13, 7), (6, 8), (3, 9),
   (1, 10), (1, 11), (1, 12), (1, 13), (1, 14), (1, 15), (1, 16), (1, 17), (1, 18), (1, 19),
   (1, 20), (1, 21), (1, 22), (1, 23), (3, 24), (6, 25), (13, 26), (24, 27), (39, 28), (59, 29),
   (81, 30), (102, 31), (118, 32)]

def esymsHbZ1Mode5 : List RansEncSymbol :=
  [⟨2097152, 0xFFFFFFFF, 1023, 1023, 0⟩, ⟨2097152, 0xFFFFFFFF, 1024, 1023, 0⟩,
   ⟨2097152, 0xFFFFFFFF, 1025, 1023, 0⟩, ⟨2097152, 0xFFFFFFFF, 1026, 1023, 0⟩,
   ⟨4194304, ransRcpFreqHalf, 4, 1022, 0⟩, ⟨27262976, 0x9D89D89E, 6, 1011, 3⟩,
   ⟨100663296, 0xAAAAAAAB, 19, 976, 5⟩, ⟨247463936, 0x8AD8F2FC, 67, 906, 6⟩,
   ⟨427819008, 0xA0A0A0A1, 185, 820, 7⟩, ⟨513802240, 0x85BF3762, 389, 779, 7⟩,
   ⟨427819008, 0xA0A0A0A1, 634, 820, 7⟩, ⟨247463936, 0x8AD8F2FC, 838, 906, 6⟩,
   ⟨100663296, 0xAAAAAAAB, 956, 976, 5⟩, ⟨29360128, 0x92492493, 1004, 1010, 3⟩,
   ⟨4194304, ransRcpFreqHalf, 1018, 1022, 0⟩, ⟨2097152, 0xFFFFFFFF, 2043, 1023, 0⟩,
   ⟨2097152, 0xFFFFFFFF, 2044, 1023, 0⟩, ⟨2097152, 0xFFFFFFFF, 2045, 1023, 0⟩,
   ⟨2097152, 0xFFFFFFFF, 2046, 1023, 0⟩]

def dsymsHbZ1Mode5 : List RansDecSymbol :=
  [⟨0, 1⟩, ⟨1, 1⟩, ⟨2, 1⟩, ⟨3, 1⟩, ⟨4, 2⟩, ⟨6, 13⟩, ⟨19, 48⟩, ⟨67, 118⟩, ⟨185, 204⟩, ⟨389, 245⟩,
   ⟨634, 204⟩, ⟨838, 118⟩, ⟨956, 48⟩, ⟨1004, 14⟩, ⟨1018, 2⟩, ⟨1020, 1⟩, ⟨1021, 1⟩, ⟨1022, 1⟩,
   ⟨1023, 1⟩]

def symbolHbZ1Mode5 : List Nat := runs
  [(1, 0), (1, 1), (1, 2), (1, 3), (2, 4), (13, 5), (48, 6), (118, 7), (204, 8), (245, 9),
   (204, 10), (118, 11), (48, 12), (14, 13), (2, 14), (1, 15), (1, 16), (1, 17), (1, 18)]

structure CryptoHaetaeRansTable where
  mH : Nat
  offsetH : Nat
  mHbZ1 : Nat
  offsetHbZ1 : Nat
  esymsH : List RansEncSymbol
  dsymsH : List RansDecSymbol
  symbolH : List Nat
  esymsHbZ1 : List RansEncSymbol
  dsymsHbZ1 : List RansDecSymbol
  symbolHbZ1 : List Nat

def kHAETAETablesMode2 : CryptoHaetaeRansTable :=
  { mH := 13, offsetH := 239, mHbZ1 := 13, offsetHbZ1 := 6
    esymsH := esymsHMode2, dsymsH := dsymsHMode2, symbolH := symbolHMode2
    esymsHbZ1 := esymsHbZ1Mode2, dsymsHbZ1 := dsymsHbZ1Mode2, symbolHbZ1 := symbolHbZ1Mode2 }

def kHAETAETablesMode3 : CryptoHaetaeRansTable :=
  { mH := 17, offsetH := 235, mHbZ1 := 17, offsetHbZ1 := 8
    esymsH := esymsHMode3, dsymsH := dsymsHMode3, symbolH := symbolHMode3
    esymsHbZ1 := esymsHbZ1Mode3, dsymsHbZ1 := dsymsHbZ1Mode3, symbolHbZ1 := symbolHbZ1Mode3 }

def kHAETAETablesMode5 : CryptoHaetaeRansTable :=
  { mH := 33, offsetH := 471, mHbZ1 := 19, offsetHbZ1 := 9
    esymsH := esymsHMode5, dsymsH := dsymsHMode5, symbolH := symbolHMode5
    esymsHbZ1 := esymsHbZ1Mode5, dsymsHbZ1 := dsymsHbZ1Mode5, symbolHbZ1 := symbolHbZ1Mode5 }

def setRansTables (parameters : CryptoHaetaeParameters) : Option CryptoHaetaeRansTable :=
  match parameters.mode with
  | 2 => some kHAETAETablesMode2
  | 3 => some kHAETAETablesMode3
  | 5 => some kHAETAETablesMode5
  | _ => none

/-- The loop of both encoders, from the last coefficient on. A coefficient without a symbol ends
it, and so does a buffer of `size` bytes with less than four bytes left. -/
def encodeCoefficients (symbol : Int32 → Option Nat) (esyms : List RansEncSymbol) (size : Nat) :
    List Int32 → Option (Nat × List UInt8)
  | [] => some (ransEncInit, [])
  | value :: values => do
    let state ← encodeCoefficients symbol esyms size values
    let s ← symbol value
    let next := ransEncPutSymbol state (esyms.getD s default)
    if size < next.2.length + 4 then none else some next

def encodeVector (symbol : Int32 → Option Nat) (esyms : List RansEncSymbol) (size : Nat)
    (values : List Int32) : Option (List UInt8) :=
  (encodeCoefficients symbol esyms size values).map ransEncFlush

def decodeCoefficients (value : Nat → Int32) (m : Nat) (dsyms : List RansDecSymbol)
    (symbols : List Nat) : Nat → Nat × List UInt8 → Option (List Int32 × (Nat × List UInt8))
  | 0, state => some ([], state)
  | n + 1, state =>
    let s := symbols.getD (ransDecGet state.1 scaleBits) 0
    if m ≤ s then none
    else do
      let rest ← decodeCoefficients value m dsyms symbols n
        (ransDecAdvanceSymbol state (dsyms.getD s default) scaleBits)
      some (value s :: rest.1, rest.2)

def decodeVector (value : Nat → Int32) (m : Nat) (dsyms : List RansDecSymbol)
    (symbols : List Nat) (size : Nat) (buf : List UInt8) : Option (List Int32) := do
  let state ← ransDecInit buf
  let run ← decodeCoefficients value m dsyms symbols size state
  if ransDecVerify run.2.1 && run.2.2.isEmpty then some run.1 else none

def hCut (table : CryptoHaetaeRansTable) : Nat := (table.mH - 1) >>> 1

def hintSymbol (table : CryptoHaetaeRansTable) (h : Int32) : Option Nat :=
  let tmp := h.toUInt32.toNat
  if hCut table < tmp ∧ tmp ≤ hCut table + table.offsetH then none
  else
    let tmp := if hCut table + table.offsetH < tmp then tmp - table.offsetH else tmp
    some (tmp % 2 ^ 8)

def hintValue (table : CryptoHaetaeRansTable) (s : Nat) : Int32 :=
  (UInt32.ofNat (if hCut table < s then s + table.offsetH else s)).toInt32

def highBitsSymbol (table : CryptoHaetaeRansTable) (z : Int32) : Option Nat :=
  let tmp := (z.toUInt32 + UInt32.ofNat table.offsetHbZ1).toInt32
  if tmp < 0 ∨ table.mHbZ1 ≤ tmp.toUInt32.toNat then none else some (tmp.toUInt32.toNat % 2 ^ 8)

def highBitsValue (table : CryptoHaetaeRansTable) (s : Nat) : Int32 :=
  (UInt32.ofNat s - UInt32.ofNat table.offsetHbZ1).toInt32

/-- The bytes written to `buf`; `none` is the size 0, which reports a failure. -/
def cryptoHaetaeEncodeH (h : List Int32) (parameters : CryptoHaetaeParameters) :
    Option (List UInt8) := do
  let table ← setRansTables parameters
  encodeVector (hintSymbol table) table.esymsH (cryptoHaetaeN * parameters.k) h

/-- The vector after the return of 0. Without a table it stays what it was. -/
def cryptoHaetaeDecodeH (h : List Int32) (buf : List UInt8)
    (parameters : CryptoHaetaeParameters) : Option (List Int32) :=
  match setRansTables parameters with
  | none => some h
  | some table =>
    decodeVector (hintValue table) table.mH table.dsymsH table.symbolH
      (cryptoHaetaeN * parameters.k) buf

def cryptoHaetaeEncodeHbZ1 (hbZ1 : List Int32) (parameters : CryptoHaetaeParameters) :
    Option (List UInt8) := do
  let table ← setRansTables parameters
  encodeVector (highBitsSymbol table) table.esymsHbZ1 (cryptoHaetaeN * parameters.l) hbZ1

def cryptoHaetaeDecodeHbZ1 (hbZ1 : List Int32) (buf : List UInt8)
    (parameters : CryptoHaetaeParameters) : Option (List Int32) :=
  match setRansTables parameters with
  | none => some hbZ1
  | some table =>
    decodeVector (highBitsValue table) table.mHbZ1 table.dsymsHbZ1 table.symbolHbZ1
      (cryptoHaetaeN * parameters.l) buf

end LiberaCrypt.HaetaeEncoding
