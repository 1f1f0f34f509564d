import LiberaCrypt.CountedLoop
import LiberaCrypt.Def
import LiberaCrypt.Endian
import LiberaCrypt.MerkleDamgard

namespace LiberaCrypt.Lsh

open LiberaCrypt.Outcome LiberaCrypt.Def LiberaCrypt.CountedLoop LiberaCrypt.Endian
open LiberaCrypt.BlockBuffer LiberaCrypt.MerkleDamgard

def tau : Array Nat := #[
  3, 2, 0, 1, 7, 4, 5, 6, 11, 10, 8, 9, 15, 12, 13, 14]

def gamma32 : Array Nat := #[0, 8, 16, 24, 24, 16, 8, 0]

def gamma64 : Array Nat := #[0, 16, 32, 48, 8, 24, 40, 56]

def delta : Array Nat := #[
  6, 4, 5, 7, 12, 15, 14, 13, 2, 0, 1, 3, 8, 11, 10, 9]

def sc32 : Array UInt32 := #[
  0x917caf90, 0x6c1b10a2, 0x6f352943, 0xcf778243, 0x2ceb7472, 0x29e96ff2, 0x8a9ba428, 0x2eeb2642,
  0x0e2c4021, 0x872bb30e, 0xa45e6cb2, 0x46f9c612, 0x185fe69e, 0x1359621b, 0x263fccb2, 0x1a116870,
  0x3a6c612f, 0xb2dec195, 0x02cb1f56, 0x40bfd858, 0x784684b6, 0x6cbb7d2e, 0x660c7ed8, 0x2b79d88a,
  0xa6cd9069, 0x91a05747, 0xcdea7558, 0x00983098, 0xbecb3b2e, 0x2838ab9a, 0x728b573e, 0xa55262b5,
  0x745dfa0f, 0x31f79ed8, 0xb85fce25, 0x98c8c898, 0x8a0669ec, 0x60e445c2, 0xfde295b0, 0xf7b5185a,
  0xd2580983, 0x29967709, 0x182df3dd, 0x61916130, 0x90705676, 0x452a0822, 0xe07846ad, 0xaccd7351,
  0x2a618d55, 0xc00d8032, 0x4621d0f5, 0xf2f29191, 0x00c6cd06, 0x6f322a67, 0x58bef48d, 0x7a40c4fd,
  0x8beee27f, 0xcd8db2f2, 0x67f2c63b, 0xe5842383, 0xc793d306, 0xa15c91d6, 0x17b381e5, 0xbb05c277,
  0x7ad1620a, 0x5b40a5bf, 0x5ab901a2, 0x69a7a768, 0x5b66d9cd, 0xfdee6877, 0xcb3566fc, 0xc0c83a32,
  0x4c336c84, 0x9be6651a, 0x13baa3fc, 0x114f0fd1, 0xc240a728, 0xec56e074, 0x009c63c7, 0x89026cf2,
  0x7f9ff0d0, 0x824b7fb5, 0xce5ea00f, 0x605ee0e2, 0x02e7cfea, 0x43375560, 0x9d002ac7, 0x8b6f5f7b,
  0x1f90c14f, 0xcdcb3537, 0x2cfeafdd, 0xbf3fc342, 0xeab7b9ec, 0x7a8cb5a3, 0x9d2af264, 0xfacedb06,
  0xb052106e, 0x99006d04, 0x2bae8d09, 0xff030601, 0xa271a6d6, 0x0742591d, 0xc81d5701, 0xc9a9e200,
  0x02627f1e, 0x996d719d, 0xda3b9634, 0x02090800, 0x14187d78, 0x499b7624, 0xe57458c9, 0x738be2c9,
  0x64e19d20, 0x06df0f36, 0x15d1cb0e, 0x0b110802, 0x2c95f58c, 0xe5119a6d, 0x59cd22ae, 0xff6eac3c,
  0x467ebd84, 0xe5ee453c, 0xe79cd923, 0x1c190a0d, 0xc28b81b8, 0xf6ac0852, 0x26efd107, 0x6e1ae93b,
  0xc53c41ca, 0xd4338221, 0x8475fd0a, 0x35231729, 0x4e0d3a7a, 0xa2b45b48, 0x16c0d82d, 0x890424a9,
  0x017e0c8f, 0x07b5a3f5, 0xfa73078e, 0x583a405e, 0x5b47b4c8, 0x570fa3ea, 0xd7990543, 0x8d28ce32,
  0x7f8a9b90, 0xbd5998fc, 0x6d7a9688, 0x927a9eb6, 0xa2fc7d23, 0x66b38e41, 0x709e491a, 0xb5f700bf,
  0x0a262c0f, 0x16f295b9, 0xe8111ef5, 0x0d195548, 0x9f79a0c5, 0x1a41cfa7, 0x0ee7638a, 0xacf7c074,
  0x30523b19, 0x09884ecf, 0xf93014dd, 0x266e9d55, 0x191a6664, 0x5c1176c1, 0xf64aed98, 0xa4b83520,
  0x828d5449, 0x91d71dd8, 0x2944f2d6, 0x950bf27b, 0x3380ca7d, 0x6d88381d, 0x4138868e, 0x5ced55c4,
  0x0fe19dcb, 0x68f4f669, 0x6e37c8ff, 0xa0fe6e10, 0xb44b47b0, 0xf5c0558a, 0x79bf14cf, 0x4a431a20,
  0xf17f68da, 0x5deb5fd1, 0xa600c86d, 0x9f6c7eb0, 0xff92f864, 0xb615e07f, 0x38d3e448, 0x8d5d3a6a,
  0x70e843cb, 0x494b312e, 0xa6c93613, 0x0beb2f4f, 0x928b5d63, 0xcbf66035, 0x0cb82c80, 0xea97a4f7,
  0x592c0f3b, 0x947c5f77, 0x6fff49b9, 0xf71a7e5a, 0x1de8c0f5, 0xc2569600, 0xc4e4ac8c, 0x823c9ce1]

def sc64 : Array UInt64 := #[
  0x97884283c938982a, 0xba1fca93533e2355, 0xc519a2e87aeb1c03, 0x9a0fc95462af17b1,
  0xfc3dda8ab019a82b, 0x02825d079a895407, 0x79f2d0a7ee06a6f7, 0xd76d15eed9fdf5fe,
  0x1fcac64d01d0c2c1, 0xd9ea5de69161790f, 0xdebc8b6366071fc8, 0xa9d91db711c6c94b,
  0x3a18653ac9c1d427, 0x84df64a223dd5b09, 0x6cc37895f4ad9e70, 0x448304c8d7f3f4d5,
  0xea91134ed29383e0, 0xc4484477f2da88e8, 0x9b47eec96d26e8a6, 0x82f6d4c8d89014f4,
  0x527da0048b95fb61, 0x644406c60138648d, 0x303c0e8aa24c0edc, 0xc787cda0cbe8ca19,
  0x7ba46221661764ca, 0x0c8cbc6acd6371ac, 0xe336b836940f8f41, 0x79cb9da168a50976,
  0xd01da49021915cb3, 0xa84accc7399cf1f1, 0x6c4a992cee5aeb0c, 0x4f556e6cb4b2e3e0,
  0x200683877d7c2f45, 0x9949273830d51db8, 0x19eeeecaa39ed124, 0x45693f0a0dae7fef,
  0xedc234b1b2ee1083, 0xf3179400d68ee399, 0xb6e3c61b4945f778, 0xa4c3db216796c42f,
  0x268a0b04f9ab7465, 0xe2705f6905f2d651, 0x08ddb96e426ff53d, 0xaea84917bc2e6f34,
  0xaff6e664a0fe9470, 0x0aab94d765727d8c, 0x9aa9e1648f3d702e, 0x689efc88fe5af3d3,
  0xb0950ffea51fd98b, 0x52cfc86ef8c92833, 0xe69727b0b2653245, 0x56f160d3ea9da3e2,
  0xa6dd4b059f93051f, 0xb6406c3cd7f00996, 0x448b45f3ccad9ec8, 0x079b8587594ec73b,
  0x45a50ea3c4f9653b, 0x22983767c1f15b85, 0x7dbed8631797782b, 0x485234be88418638,
  0x842850a5329824c5, 0xf6aca914c7f9a04c, 0xcfd139c07a4c670c, 0xa3210ce0a8160242,
  0xeab3b268be5ea080, 0xbacf9f29b34ce0a7, 0x3c973b7aaf0fa3a8, 0x9a86f346c9c7be80,
  0xac78f5d7cabcea49, 0xa355bddcc199ed42, 0xa10afa3ac6b373db, 0xc42ded88be1844e5,
  0x9e661b271cff216a, 0x8a6ec8dd002d8861, 0xd3d2b629beb34be4, 0x217a3a1091863f1a,
  0x256ecda287a733f5, 0xf9139a9e5b872fe5, 0xac0535017a274f7c, 0xf21b7646d65d2aa9,
  0x048142441c208c08, 0xf937a5dd2db5e9eb, 0xa688dfe871ff30b7, 0x9bb44aa217c5593b,
  0x943c702a2edb291a, 0x0cae38f9e2b715de, 0xb13a367ba176cc28, 0x0d91bd1d3387d49b,
  0x85c386603cac940c, 0x30dd830ae39fd5e4, 0x2f68c85a712fe85d, 0x4ffeecb9dd1e94d6,
  0xd0ac9a590a0443ae, 0xbae732dc99ccf3ea, 0xeb70b21d1842f4d9, 0x9f4eda50bb5c6fa8,
  0x4949e69ce940a091, 0x0e608dee8375ba14, 0x983122cba118458c, 0x4eeba696fbb36b25,
  0x7d46f3630e47f27e, 0xa21a0f7666c0dea4, 0x5c22cf355b37cec4, 0xee292b0c17cc1847,
  0x9330838629e131da, 0x6eee7c71f92fce22, 0xc953ee6cb95dd224, 0x3a923d92af1e9073,
  0xc43a5671563a70fb, 0xbc2985dd279f8346, 0x7ef2049093069320, 0x17543723e3e46035,
  0xc3b409b00b130c6d, 0x5d6aee6b28fdf090, 0x1d425b26172ff6ed, 0xcccfd041cdaf03ad,
  0xfe90c7c790ab6cbf, 0xe5af6304c722ca02, 0x70f695239999b39e, 0x6b8b5b07c844954c,
  0x77bdb9bb1e1f7a30, 0xc859599426ee80ed, 0x5f9d813d4726e40a, 0x9ca0120f7cb2b179,
  0x8f588f583c182cbd, 0x951267cbe9eccce7, 0x678bb8bd334d520e, 0xf6e662d00cd9e1b7,
  0x357774d93d99aaa7, 0x21b2edbb156f6eb5, 0xfd1ebe846e0aee69, 0x3cb2218c2f642b15,
  0xe7e7e7945444ea4c, 0xa77a33b5d6b9b47c, 0xf34475f0809f6075, 0xdd4932dce6bb99ad,
  0xacec4e16d74451dc, 0xd4a0a8d084de23d6, 0x1bdd42f278f95866, 0xeed3adbb938f4051,
  0xcfcf7be8992f3733, 0x21ade98c906e3123, 0x37ba66711fffd668, 0x267c0fc3a255478a,
  0x993a64ee1b962e88, 0x754979556301faaa, 0xf920356b7251be81, 0xc281694f22cf923f,
  0x9f4b6481c8666b02, 0xcf97761cfe9f5444, 0xf220d7911fd63e9f, 0xa28bd365f79cd1b0,
  0xd39f5309b1c4b721, 0xbec2ceb864fca51f, 0x1955a0ddc410407a, 0x43eab871f261d201,
  0xeaafe64a2ed16da1, 0x670d931b9df39913, 0x12f868b0f614de91, 0x2e5f395d946e8252,
  0x72f25cbb767bd8f4, 0x8191871d61a1c4dd, 0x6ef67ea1d450ba93, 0x2ea32a645433d344,
  0x9a963079003f0f8b, 0x74a0aeb9918cac7a, 0x0b6119a70af36fa3, 0x8d9896f202f0d480,
  0x654f1831f254cd66, 0x1318a47f0366a25e, 0x65752076250b4e01, 0xd1cd8eb888071772,
  0x30c6a9793f4e9b25, 0x154f684b1e3926ee, 0x6c7ac0b1fe6312ae, 0x262f88f4f3c5550d,
  0xb4674a24472233cb, 0x2bbd23826a090071, 0xda95969b30594f66, 0x9f5c47408f1e8a43,
  0xf77022b88de9c055, 0x64b7b36957601503, 0xe73b72b06175c11a, 0x55b87de8b91a6233,
  0x1bb16e6b6955ff7f, 0xe8e0a5ec7309719c, 0x702c31cb89a8b640, 0xfba387cfada8cde2,
  0x6792db4677aa164c, 0x1c6b1cc0b7751867, 0x22ae2311d736dc01, 0x0e3666a1d37c9588,
  0xcd1fd9d4bf557e9a, 0xc986925f7c7b0e84, 0x9c5dfd55325ef6b0, 0x9f2b577d5676b0dd,
  0xfa6e21be21c062b3, 0x8787dd782c8d7f83, 0xd0d134e90e12dd23, 0x449d087550121d96,
  0xecf9ae9414d41967, 0x5018f1dbf789934d, 0xfa5b52879155a74c, 0xca82d4d3cd278e7c,
  0x688fdfdfe22316ad, 0x0f6555a4ba0d030a, 0xa2061df720f000f3, 0xe1a57dc5622fb3da,
  0xe6a842a8e8ed8153, 0x690acdd3811ce09d, 0x55adda18e6fcf446, 0x4d57a8a0f4b60b46,
  0xf86fbfc20539c415, 0x74bafa5ec7100d19, 0xa824151810f0f495, 0x8723432791e38ebb,
  0x8eeaeb91d66ed539, 0x73d8a1549dfd7e06, 0x0387f2ffe3f13a9b, 0xa5004995aac15193,
  0x682f81c73efdda0d, 0x2fb55925d71d268d, 0xcc392d2901e58a3d, 0xaa666ab975724a42]

def ivLsh_256_224 : Vector UInt32 16 := #v[
  0x068608d3, 0x62d8f7a7, 0xd76652ab, 0x4c600a43, 0xbdc40aa8, 0x1eca0b68, 0xda1a89be, 0x3147d354,
  0x707eb4f9, 0xf65b3862, 0x6b0b2abe, 0x56b8ec0a, 0xcf237286, 0xee0d1727, 0x33636595, 0x8bb8d05f]

def ivLsh_256_256 : Vector UInt32 16 := #v[
  0x46a10f1f, 0xfddce486, 0xb41443a8, 0x198e6b9d, 0x3304388d, 0xb0f5a3c7, 0xb36061c4, 0x7adbd553,
  0x105d5378, 0x2f74de54, 0x5c2f2d95, 0xf2553fbe, 0x8051357a, 0x138668c8, 0x47aa4484, 0xe01afb41]

def ivLsh_512_224 : Vector UInt64 16 := #v[
  0x0c401e9fe8813a55, 0x4a5f446268fd3d35, 0xff13e452334f612a, 0xf8227661037e354a,
  0xa5f223723c9ca29d, 0x95d965a11aed3979, 0x01e23835b9ab02cc, 0x52d49cbad5b30616,
  0x9e5c2027773f4ed3, 0x66a5c8801925b701, 0x22bbc85b4c6779d9, 0xc13171a42c559c23,
  0x31e2b67d25be3813, 0xd522c4deed8e4d83, 0xa79f5509b43fbafe, 0xe00d2cd88b4b6c6a]

def ivLsh_512_256 : Vector UInt64 16 := #v[
  0x6dc57c33df989423, 0xd8ea7f6e8342c199, 0x76df8356f8603ac4, 0x40f1b44de838223a,
  0x39ffe7cfc31484cd, 0x39c4326cc5281548, 0x8a2ff85a346045d8, 0xff202aa46dbdd61e,
  0xcf785b3cd5fcdb8b, 0x1f0323b64a8150bf, 0xff75d972f29ea355, 0x2e567f30bf1ca9e1,
  0xb596875bf8ff6dba, 0xfcca39b089ef4615, 0xecff4017d020b4b6, 0x7e77384c772ed802]

def ivLsh_512_384 : Vector UInt64 16 := #v[
  0x53156a66292808f6, 0xb2c4f362b204c2bc, 0xb84b7213bfa05c4e, 0x976ceb7c1b299f73,
  0xdf0cc63c0570ae97, 0xda4441baa486ce3f, 0x6559f5d9b5f2acc2, 0x22dacf19b4b52a16,
  0xbbcdacefde80953a, 0xc9891a2879725b3e, 0x7c9fe6330237e440, 0xa30ba550553f7431,
  0xbb08043fb34e3e30, 0xa0dec48d54618ead, 0x150317267464bc57, 0x32d1501fde63dc93]

def ivLsh_512_512 : Vector UInt64 16 := #v[
  0xadd50f3c7f07094e, 0xe3f3cee8f9418a4f, 0xb527ecde5b3d0ae9, 0x2ef6dec68076f501,
  0x8cb994cae5aca216, 0xfbb9eae4bba48cc7, 0x650a526174725fea, 0x1f9a61a73f8d8085,
  0xb6607378173b539b, 0x1bc99853b0c0b9ed, 0xdf727fc19b182d47, 0xdbef360cf893a457,
  0x4981f5e570147e80, 0xd00c4490ca7d3e30, 0x5d73940c0e4ae1ec, 0x894085e2edb2d819]

/-- `msgExp[0 .. i + 1]`: the two halves of the block and the words computed from them. -/
def lsh256MsgExp (block : List UInt8) : Nat → Array (Array UInt32)
  | 0 => #[Array.ofFn fun j : Fin 16 => cryptoLoad32Le (block.drop (4 * j)),
      Array.ofFn fun j : Fin 16 => cryptoLoad32Le (block.drop (4 * (16 + j)))]
  | i + 1 =>
    let msgExp := lsh256MsgExp block i
    msgExp.push (Array.ofFn fun j : Fin 16 =>
      (msgExp.getD (i + 1) #[]).getD j 0 + (msgExp.getD i #[]).getD (tau.getD j 0) 0)

/-- Word `j` of the left half and word `j + 8` of the right half in round `i`. -/
def lsh256Mix (i j : Nat) (out : Array UInt32) : Array UInt32 :=
  let l := out.getD j 0 + out.getD (j + 8) 0
  let l := cryptoRotl32 l (if i % 2 = 1 then 5 else 29)
  let l := l ^^^ sc32.getD (i * 8 + j) 0
  let r := out.getD (j + 8) 0 + l
  let r := cryptoRotl32 r (if i % 2 = 1 then 17 else 1)
  let l := l + r
  let r := cryptoRotl32 r (gamma32.getD j 0)
  (out.setIfInBounds j l).setIfInBounds (j + 8) r

def lsh256Round (msgExp : Array (Array UInt32)) (i : Nat) (out : Array UInt32) : Array UInt32 :=
  let out := Array.ofFn fun j : Fin 16 => out.getD j 0 ^^^ (msgExp.getD i #[]).getD j 0
  let out := countUp 8 (lsh256Mix i) out
  Array.ofFn fun j : Fin 16 => out.getD (delta.getD j 0) 0

def lsh256CompressBlock (state : Vector UInt32 16) (block : List UInt8) : Vector UInt32 16 :=
  let msgExp := lsh256MsgExp block 25
  let out := countUp 26 (lsh256Round msgExp) state.toArray
  Vector.ofFn fun j : Fin 16 => out.getD j 0 ^^^ (msgExp.getD 26 #[]).getD j 0

/-- `msgExp[0 .. i + 1]`: the two halves of the block and the words computed from them. -/
def lsh512MsgExp (block : List UInt8) : Nat → Array (Array UInt64)
  | 0 => #[Array.ofFn fun j : Fin 16 => cryptoLoad64Le (block.drop (8 * j)),
      Array.ofFn fun j : Fin 16 => cryptoLoad64Le (block.drop (8 * (16 + j)))]
  | i + 1 =>
    let msgExp := lsh512MsgExp block i
    msgExp.push (Array.ofFn fun j : Fin 16 =>
      (msgExp.getD (i + 1) #[]).getD j 0 + (msgExp.getD i #[]).getD (tau.getD j 0) 0)

/-- Word `j` of the left half and word `j + 8` of the right half in round `i`. -/
def lsh512Mix (i j : Nat) (out : Array UInt64) : Array UInt64 :=
  let l := out.getD j 0 + out.getD (j + 8) 0
  let l := cryptoRotl64 l (if i % 2 = 1 then 7 else 23)
  let l := l ^^^ sc64.getD (i * 8 + j) 0
  let r := out.getD (j + 8) 0 + l
  let r := cryptoRotl64 r (if i % 2 = 1 then 3 else 59)
  let l := l + r
  let r := cryptoRotl64 r (gamma64.getD j 0)
  (out.setIfInBounds j l).setIfInBounds (j + 8) r

def lsh512Round (msgExp : Array (Array UInt64)) (i : Nat) (out : Array UInt64) : Array UInt64 :=
  let out := Array.ofFn fun j : Fin 16 => out.getD j 0 ^^^ (msgExp.getD i #[]).getD j 0
  let out := countUp 8 (lsh512Mix i) out
  Array.ofFn fun j : Fin 16 => out.getD (delta.getD j 0) 0

def lsh512CompressBlock (state : Vector UInt64 16) (block : List UInt8) : Vector UInt64 16 :=
  let msgExp := lsh512MsgExp block 27
  let out := countUp 28 (lsh512Round msgExp) state.toArray
  Vector.ofFn fun j : Fin 16 => out.getD j 0 ^^^ (msgExp.getD 28 #[]).getD j 0

/-- The words that `STATE` is copied to and from; `USE_LSH512` is which of them are in use. -/
inductive CryptoLshState
  | lsh256 (words : Vector UInt32 16)
  | lsh512 (words : Vector UInt64 16)

def lshCompressBlock : CryptoLshState → List UInt8 → CryptoLshState
  | .lsh256 words, block => .lsh256 (lsh256CompressBlock words block)
  | .lsh512 words, block => .lsh512 (lsh512CompressBlock words block)

structure CryptoLshContext where
  buffer : Buffer CryptoLshState UInt8
  blockLength : Nat

def cryptoLshStart (state : CryptoLshState) (blockLength : Nat) : CryptoLshContext :=
  ⟨⟨state, List.replicate 256 0, 0⟩, blockLength⟩

def cryptoLshInit : LiberaCAlgID → Except LiberaCError CryptoLshContext
  | .hashLsh_256_224 => .ok (cryptoLshStart (.lsh256 ivLsh_256_224) 128)
  | .hashLsh_256_256 => .ok (cryptoLshStart (.lsh256 ivLsh_256_256) 128)
  | .hashLsh_512_224 => .ok (cryptoLshStart (.lsh512 ivLsh_512_224) 256)
  | .hashLsh_512_256 => .ok (cryptoLshStart (.lsh512 ivLsh_512_256) 256)
  | .hashLsh_512_384 => .ok (cryptoLshStart (.lsh512 ivLsh_512_384) 256)
  | .hashLsh_512_512 => .ok (cryptoLshStart (.lsh512 ivLsh_512_512) 256)
  | _ => .error .invalidAlgId

def cryptoLshUpdate (ctx : CryptoLshContext) (input : List UInt8) :
    Except LiberaCError CryptoLshContext :=
  if ctx.blockLength ≠ 128 ∧ ctx.blockLength ≠ 256 then .error .invalidArgument
  else .ok { ctx with buffer := update lshCompressBlock ctx.blockLength ctx.buffer input }

def cryptoLshFinalize (ctx : CryptoLshContext) : CryptoLshContext :=
  if ctx.blockLength ≠ 128 ∧ ctx.blockLength ≠ 256 then ctx
  else
    let cleared := fillAt ctx.buffer.block ctx.buffer.bufferLength ctx.blockLength 0
    let block := copyAt cleared ctx.buffer.bufferLength [0x80]
    let state := lshCompressBlock ctx.buffer.state (block.take ctx.blockLength)
    { ctx with buffer := ⟨state, List.replicate 256 0, 0⟩ }

def lsh256Return (words : Vector UInt32 16) (dlen : Nat) : List UInt8 :=
  (List.range (dlen / 4)).flatMap fun j =>
    cryptoStore32Le (words.toArray.getD j 0 ^^^ words.toArray.getD (j + 8) 0)

/-- Half of a word is stored when the digest does not end with a whole one. -/
def lsh512Return (words : Vector UInt64 16) (dlen : Nat) : List UInt8 :=
  let full := dlen / 8
  let half := words.toArray.getD full 0 ^^^ words.toArray.getD (full + 8) 0
  ((List.range full).flatMap fun j =>
    cryptoStore64Le (words.toArray.getD j 0 ^^^ words.toArray.getD (j + 8) 0)) ++
    if dlen % 8 ≠ 0 then cryptoStore32Le half.toUInt32 else []

def CryptoLshState.digest (state : CryptoLshState) (dlen : Nat) : List UInt8 :=
  match state with
  | lsh256 words => lsh256Return words dlen
  | lsh512 words => lsh512Return words dlen

def cryptoLshSqueeze (ctx : CryptoLshContext) : LiberaCAlgID → List UInt8
  | .hashLsh_256_224 => ctx.buffer.state.digest 28
  | .hashLsh_256_256 => ctx.buffer.state.digest 32
  | .hashLsh_512_224 => ctx.buffer.state.digest 28
  | .hashLsh_512_256 => ctx.buffer.state.digest 32
  | .hashLsh_512_384 => ctx.buffer.state.digest 48
  | .hashLsh_512_512 => ctx.buffer.state.digest 64
  | _ => []

/-- The bytes of the left half of the state combined with the right half. -/
def CryptoLshState.halves : CryptoLshState → List UInt8
  | lsh256 words => (List.range 8).flatMap fun j =>
      cryptoStore32Le (words.toArray.getD j 0 ^^^ words.toArray.getD (j + 8) 0)
  | lsh512 words => (List.range 8).flatMap fun j =>
      cryptoStore64Le (words.toArray.getD j 0 ^^^ words.toArray.getD (j + 8) 0)

def CryptoLshState.blockLength : CryptoLshState → Nat
  | lsh256 _ => 128
  | lsh512 _ => 256

/-- The digest of `xs` of length `dlen`: the fold of the compression over the padded message. -/
def lshDigest (dlen : Nat) (start : CryptoLshState) (xs : List UInt8) : List UInt8 :=
  (foldPadded lshCompressBlock start.blockLength 0x80 0 [] start xs).halves.take dlen

theorem lsh256Return_eq (words : Vector UInt32 16) {k : Nat} (hk : k ≤ 8) :
    lsh256Return words (4 * k) = (CryptoLshState.lsh256 words).halves.take (4 * k) := by
  rw [lsh256Return, CryptoLshState.halves, Nat.mul_div_cancel_left k (by decide)]
  interval_cases k <;> rfl

theorem lsh512Return_eq (words : Vector UInt64 16) {k : Nat} (hk : k ≤ 16) :
    lsh512Return words (4 * k) = (CryptoLshState.lsh512 words).halves.take (4 * k) := by
  unfold lsh512Return CryptoLshState.halves
  interval_cases k <;> rfl

@[simp] theorem lshCompressBlock_blockLength (state : CryptoLshState) (block : List UInt8) :
    (lshCompressBlock state block).blockLength = state.blockLength := by
  cases state <;> rfl

theorem foldBlocks_blockLength (n : Nat) (state : CryptoLshState) (xs : List UInt8) :
    (foldBlocks lshCompressBlock n state xs).blockLength = state.blockLength := by
  unfold foldBlocks
  induction pieces n (xs.length / n) xs generalizing state with
  | nil => rfl
  | cons block blocks ih => rw [List.foldl_cons, ih, lshCompressBlock_blockLength]

/-- The context that has absorbed `xs` from the initial state `start`. -/
structure CryptoLshContext.Holds (ctx : CryptoLshContext) (start : CryptoLshState)
    (xs : List UInt8) : Prop where
  absorbed : Absorbed lshCompressBlock start.blockLength start xs ctx.buffer
  blockLength : ctx.blockLength = start.blockLength

section Streaming

variable {ctx : CryptoLshContext} {start : CryptoLshState} {xs : List UInt8}

theorem blockLength_check (state : CryptoLshState) :
    ¬ (state.blockLength ≠ 128 ∧ state.blockLength ≠ 256) := by
  cases state <;> simp [CryptoLshState.blockLength]

theorem blockLength_pos (state : CryptoLshState) : 0 < state.blockLength := by
  cases state <;> simp [CryptoLshState.blockLength]

theorem cryptoLshStart_holds (start : CryptoLshState) :
    (cryptoLshStart start start.blockLength).Holds start [] := by
  have hblock : start.blockLength ≤ 256 := by
    cases start <;> simp [CryptoLshState.blockLength]
  have hcapacity : start.blockLength ≤
      (cryptoLshStart start start.blockLength).buffer.block.length :=
    hblock.trans_eq List.length_replicate.symm
  exact ⟨absorbed_start hcapacity rfl, rfl⟩

theorem cryptoLshUpdate_holds (h : ctx.Holds start xs) (input : List UInt8) :
    ∃ after, cryptoLshUpdate ctx input = .ok after ∧ after.Holds start (xs ++ input) := by
  have hlength := h.blockLength
  unfold cryptoLshUpdate
  rw [hlength, if_neg (blockLength_check start)]
  exact ⟨_, rfl, update_absorbed (blockLength_pos start) h.absorbed input, rfl⟩

theorem cryptoLshFinalize_state (h : ctx.Holds start xs) :
    (cryptoLshFinalize ctx).buffer.state =
      foldPadded lshCompressBlock start.blockLength 0x80 0 [] start xs := by
  obtain ⟨full, pending, k, rfl, hfull, hpending, hstate, hblock⟩ := h.absorbed.split
  have hlt : ctx.buffer.bufferLength < start.blockLength := by
    rw [h.absorbed.waiting]
    exact Nat.mod_lt _ (blockLength_pos start)
  have hcapacity := h.absorbed.capacity
  have hpos := blockLength_pos start
  unfold cryptoLshFinalize
  rw [h.blockLength, if_neg (blockLength_check start)]
  dsimp only
  generalize start.blockLength = n at *
  generalize ctx.buffer.bufferLength = used at *
  have hzeros : (n - ((full ++ pending).length + 1 + ([] : List UInt8).length) % n) % n =
      n - (used + 1) := by
    apply zeros_eq (m := k + 1) (by omega)
    rw [List.length_append, hfull, hpending, List.length_nil, Nat.mul_add]
    omega
  have hclear := fillAt_take ctx.buffer.block (0 : UInt8) hlt.le (le_refl n) hcapacity
  have hclearlen := fillAt_length ctx.buffer.block (0 : UInt8) hcapacity hlt.le
  rw [hblock] at hclear
  generalize fillAt ctx.buffer.block used n 0 = cleared at *
  have hlast : (copyAt cleared used [0x80]).take n =
      pending ++ [0x80] ++ List.replicate (n - (used + 1)) 0 := by
    have hhead : cleared.take used = pending := by
      have htake := congrArg (List.take used) hclear
      rw [List.take_take, Nat.min_eq_left hlt.le, List.take_left' hpending] at htake
      exact htake
    have htail : (cleared.drop (used + 1)).take (n - (used + 1)) =
        List.replicate (n - (used + 1)) 0 := by
      have hdrop := congrArg (List.drop (used + 1)) hclear
      rw [List.drop_take, List.drop_append, List.drop_replicate,
        List.drop_eq_nil_of_le (show pending.length ≤ used + 1 by omega), List.nil_append] at hdrop
      rw [hdrop]
      congr 1
      omega
    rw [copyAt, hhead, List.length_singleton, List.take_append, List.length_append, hpending,
      List.length_singleton, htail, List.take_of_length_le]
    rw [List.length_append, hpending, List.length_singleton]
    omega
  have hlastlen : (pending ++ [0x80] ++ List.replicate (n - (used + 1)) 0).length = n := by
    rw [List.length_append, List.length_append, List.length_replicate, List.length_singleton,
      hpending]
    omega
  have hpad : pad n 0x80 0 [] (full ++ pending) =
      full ++ (pending ++ [0x80] ++ List.replicate (n - (used + 1)) 0) := by
    rw [pad, hzeros]
    simp only [List.append_assoc, List.append_nil, List.cons_append, List.nil_append]
  rw [foldPadded, hpad, foldBlocks_append hpos _ start hfull, foldBlocks_one hpos _ hlastlen, hlast,
    hstate]

theorem cryptoLshFinalize_digest (h : ctx.Holds start xs) {k : Nat}
    (hk : 8 * k ≤ start.blockLength / 2) :
    (cryptoLshFinalize ctx).buffer.state.digest (4 * k) = lshDigest (4 * k) start xs := by
  have hlast : (cryptoLshFinalize ctx).buffer.state.blockLength = start.blockLength := by
    rw [cryptoLshFinalize_state h]
    exact foldBlocks_blockLength _ _ _
  rw [lshDigest, ← cryptoLshFinalize_state h]
  rw [← hlast] at hk
  generalize (cryptoLshFinalize ctx).buffer.state = last at *
  cases last with
  | lsh256 words =>
    change 8 * k ≤ 128 / 2 at hk
    exact lsh256Return_eq words (by omega)
  | lsh512 words =>
    change 8 * k ≤ 256 / 2 at hk
    exact lsh512Return_eq words (by omega)

end Streaming

end LiberaCrypt.Lsh
