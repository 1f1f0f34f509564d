import LiberaCrypt.Limbs

namespace LiberaCrypt.EcCurves

inductive CryptoEcCurveId
  | p256
  | p384
  | p521
  deriving DecidableEq, Repr

/-- Numbers are little-endian limbs, as many as `limbs` says. Field constants are in Montgomery form;
the exponents are ordinary integers. -/
structure CryptoEcCurve where
  id : CryptoEcCurveId
  fieldBits : Nat
  fieldBytes : Nat
  scalarBits : Nat
  scalarBytes : Nat
  limbs : Nat
  montgomeryFactor : UInt32
  p : List UInt32
  order : List UInt32
  montgomeryOne : List UInt32
  montgomeryR2 : List UInt32
  b : List UInt32
  generatorX : List UInt32
  generatorY : List UInt32
  inverseExponent : List UInt32
  squareRootExponent : List UInt32
  scalarMontgomeryFactor : UInt32
  scalarMontgomeryOne : List UInt32
  scalarMontgomeryR2 : List UInt32
  scalarInverseExponent : List UInt32

def cryptoEcP256 : CryptoEcCurve where
  id := .p256
  fieldBits := 256
  fieldBytes := 32
  scalarBits := 256
  scalarBytes := 32
  limbs := 8
  montgomeryFactor := 0x00000001
  p := [0xffffffff, 0xffffffff, 0xffffffff, 0x00000000, 0x00000000, 0x00000000, 0x00000001,
    0xffffffff]
  order := [0xfc632551, 0xf3b9cac2, 0xa7179e84, 0xbce6faad, 0xffffffff, 0xffffffff, 0x00000000,
    0xffffffff]
  montgomeryOne := [0x00000001, 0x00000000, 0x00000000, 0xffffffff, 0xffffffff, 0xffffffff,
    0xfffffffe, 0x00000000]
  montgomeryR2 := [0x00000003, 0x00000000, 0xffffffff, 0xfffffffb, 0xfffffffe, 0xffffffff,
    0xfffffffd, 0x00000004]
  b := [0x29c4bddf, 0xd89cdf62, 0x78843090, 0xacf005cd, 0xf7212ed6, 0xe5a220ab, 0x04874834,
    0xdc30061d]
  generatorX := [0x18a9143c, 0x79e730d4, 0x5fedb601, 0x75ba95fc, 0x77622510, 0x79fb732b, 0xa53755c6,
    0x18905f76]
  generatorY := [0xce95560a, 0xddf25357, 0xba19e45c, 0x8b4ab8e4, 0xdd21f325, 0xd2e88688, 0x25885d85,
    0x8571ff18]
  inverseExponent := [0xfffffffd, 0xffffffff, 0xffffffff, 0x00000000, 0x00000000, 0x00000000,
    0x00000001, 0xffffffff]
  squareRootExponent := [0x00000000, 0x00000000, 0x40000000, 0x00000000, 0x00000000, 0x40000000,
    0xc0000000, 0x3fffffff]
  scalarMontgomeryFactor := 0xee00bc4f
  scalarMontgomeryOne := [0x039cdaaf, 0x0c46353d, 0x58e8617b, 0x43190552, 0x00000000, 0x00000000,
    0xffffffff, 0x00000000]
  scalarMontgomeryR2 := [0xbe79eea2, 0x83244c95, 0x49bd6fa6, 0x4699799c, 0x2b6bec59, 0x2845b239,
    0xf3d95620, 0x66e12d94]
  scalarInverseExponent := [0xfc63254f, 0xf3b9cac2, 0xa7179e84, 0xbce6faad, 0xffffffff, 0xffffffff,
    0x00000000, 0xffffffff]

def cryptoEcP384 : CryptoEcCurve where
  id := .p384
  fieldBits := 384
  fieldBytes := 48
  scalarBits := 384
  scalarBytes := 48
  limbs := 12
  montgomeryFactor := 0x00000001
  p := [0xffffffff, 0x00000000, 0x00000000, 0xffffffff, 0xfffffffe, 0xffffffff, 0xffffffff,
    0xffffffff, 0xffffffff, 0xffffffff, 0xffffffff, 0xffffffff]
  order := [0xccc52973, 0xecec196a, 0x48b0a77a, 0x581a0db2, 0xf4372ddf, 0xc7634d81, 0xffffffff,
    0xffffffff, 0xffffffff, 0xffffffff, 0xffffffff, 0xffffffff]
  montgomeryOne := [0x00000001, 0xffffffff, 0xffffffff, 0x00000000, 0x00000001, 0x00000000,
    0x00000000, 0x00000000, 0x00000000, 0x00000000, 0x00000000, 0x00000000]
  montgomeryR2 := [0x00000001, 0xfffffffe, 0x00000000, 0x00000002, 0x00000000, 0xfffffffe,
    0x00000000, 0x00000002, 0x00000001, 0x00000000, 0x00000000, 0x00000000]
  b := [0x9d412dcc, 0x08118871, 0x7a4c32ec, 0xf729add8, 0x1920022e, 0x77f2209b, 0x94938ae2,
    0xe3374bee, 0x1f022094, 0xb62b21f4, 0x604fbff9, 0xcd08114b]
  generatorX := [0x49c0b528, 0x3dd07566, 0xa0d6ce38, 0x20e378e2, 0x541b4d6e, 0x879c3afc, 0x59a30eff,
    0x64548684, 0x614ede2b, 0x812ff723, 0x299e1513, 0x4d3aadc2]
  generatorY := [0x4b03a4fe, 0x23043dad, 0x7bb4a9ac, 0xa1bfa8bf, 0x2e83b050, 0x8bade756, 0x68f4ffd9,
    0xc6c35219, 0x3969a840, 0xdd800226, 0x5a15c5e9, 0x2b78abc2]
  inverseExponent := [0xfffffffd, 0x00000000, 0x00000000, 0xffffffff, 0xfffffffe, 0xffffffff,
    0xffffffff, 0xffffffff, 0xffffffff, 0xffffffff, 0xffffffff, 0xffffffff]
  squareRootExponent := [0x40000000, 0x00000000, 0xc0000000, 0xbfffffff, 0xffffffff, 0xffffffff,
    0xffffffff, 0xffffffff, 0xffffffff, 0xffffffff, 0xffffffff, 0x3fffffff]
  scalarMontgomeryFactor := 0xe88fdc45
  scalarMontgomeryOne := [0x333ad68d, 0x1313e695, 0xb74f5885, 0xa7e5f24d, 0x0bc8d220, 0x389cb27e,
    0x00000000, 0x00000000, 0x00000000, 0x00000000, 0x00000000, 0x00000000]
  scalarMontgomeryR2 := [0x19b409a9, 0x2d319b24, 0xdf1aa419, 0xff3d81e5, 0xfcb82947, 0xbc3e483a,
    0x4aab1cc5, 0xd40d4917, 0x28266895, 0x3fb05b7a, 0x2b39bf21, 0x0c84ee01]
  scalarInverseExponent := [0xccc52971, 0xecec196a, 0x48b0a77a, 0x581a0db2, 0xf4372ddf, 0xc7634d81,
    0xffffffff, 0xffffffff, 0xffffffff, 0xffffffff, 0xffffffff, 0xffffffff]

def cryptoEcP521 : CryptoEcCurve where
  id := .p521
  fieldBits := 521
  fieldBytes := 66
  scalarBits := 521
  scalarBytes := 66
  limbs := 17
  montgomeryFactor := 0x00000001
  p := [0xffffffff, 0xffffffff, 0xffffffff, 0xffffffff, 0xffffffff, 0xffffffff, 0xffffffff,
    0xffffffff, 0xffffffff, 0xffffffff, 0xffffffff, 0xffffffff, 0xffffffff, 0xffffffff, 0xffffffff,
    0xffffffff, 0x000001ff]
  order := [0x91386409, 0xbb6fb71e, 0x899c47ae, 0x3bb5c9b8, 0xf709a5d0, 0x7fcc0148, 0xbf2f966b,
    0x51868783, 0xfffffffa, 0xffffffff, 0xffffffff, 0xffffffff, 0xffffffff, 0xffffffff, 0xffffffff,
    0xffffffff, 0x000001ff]
  montgomeryOne := [0x00800000, 0x00000000, 0x00000000, 0x00000000, 0x00000000, 0x00000000,
    0x00000000, 0x00000000, 0x00000000, 0x00000000, 0x00000000, 0x00000000, 0x00000000, 0x00000000,
    0x00000000, 0x00000000, 0x00000000]
  montgomeryR2 := [0x00000000, 0x00004000, 0x00000000, 0x00000000, 0x00000000, 0x00000000,
    0x00000000, 0x00000000, 0x00000000, 0x00000000, 0x00000000, 0x00000000, 0x00000000, 0x00000000,
    0x00000000, 0x00000000, 0x00000000]
  b := [0x8014654f, 0xea35a81f, 0x78f7a28f, 0xc41e961a, 0x839ab9ef, 0x5e9dd8df, 0xbd8b2960,
    0xa8f63f49, 0xf0ab0c9c, 0xc8c77884, 0xf9dc5a44, 0x2dccd98a, 0x77516d39, 0xd05b42a0, 0x0fc94d10,
    0xb0c70e4d, 0x0000015c]
  generatorX := [0xb331a163, 0x18e172de, 0x4dfcbf3f, 0xe0c2b521, 0x6f19a459, 0x93d17fd4, 0x947f0ee0,
    0x3bf7f3ac, 0xdd50a5af, 0xb035a69e, 0x90fc1457, 0x9c829fda, 0x214e3240, 0xb311cada, 0xe6cf1f65,
    0x5b820274, 0x00000103]
  generatorY := [0x28460e4a, 0x3b4fe8b3, 0x20445f4a, 0x43513961, 0xb09a9e38, 0x809fd683, 0x2062a85c,
    0x4caf7a13, 0x164bf739, 0x8b939f33, 0x340bd7de, 0x24abcda2, 0xeccc7aa2, 0xda163e8d, 0x022e452f,
    0x3c4d1de0, 0x000000b5]
  inverseExponent := [0xfffffffd, 0xffffffff, 0xffffffff, 0xffffffff, 0xffffffff, 0xffffffff,
    0xffffffff, 0xffffffff, 0xffffffff, 0xffffffff, 0xffffffff, 0xffffffff, 0xffffffff, 0xffffffff,
    0xffffffff, 0xffffffff, 0x000001ff]
  squareRootExponent := [0x00000000, 0x00000000, 0x00000000, 0x00000000, 0x00000000, 0x00000000,
    0x00000000, 0x00000000, 0x00000000, 0x00000000, 0x00000000, 0x00000000, 0x00000000, 0x00000000,
    0x00000000, 0x00000000, 0x00000080]
  scalarMontgomeryFactor := 0x79a995c7
  scalarMontgomeryOne := [0xfb800000, 0x70b763cd, 0x28a24824, 0x23bb31dc, 0x17e2251b, 0x5b847b2d,
    0xca4019ff, 0x3e206834, 0x02d73cbc, 0x00000000, 0x00000000, 0x00000000, 0x00000000, 0x00000000,
    0x00000000, 0x00000000, 0x00000000]
  scalarMontgomeryR2 := [0x61c64ca7, 0x1163115a, 0x4374a642, 0x18354a56, 0x0791d9dc, 0x5d4dd6d3,
    0xd3402705, 0x4fb35b72, 0xb7756e3a, 0xcff3d142, 0xa8e567bc, 0x5bcc6d61, 0x492d0d45, 0x2d8e03d1,
    0x8c44383d, 0x5b5a3afe, 0x0000019a]
  scalarInverseExponent := [0x91386407, 0xbb6fb71e, 0x899c47ae, 0x3bb5c9b8, 0xf709a5d0, 0x7fcc0148,
    0xbf2f966b, 0x51868783, 0xfffffffa, 0xffffffff, 0xffffffff, 0xffffffff, 0xffffffff, 0xffffffff,
    0xffffffff, 0xffffffff, 0x000001ff]

def cryptoEcCurveGet : CryptoEcCurveId → CryptoEcCurve
  | .p256 => cryptoEcP256
  | .p384 => cryptoEcP384
  | .p521 => cryptoEcP521

end LiberaCrypt.EcCurves
