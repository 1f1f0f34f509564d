import LiberaCrypt.KPkeCorrect
import LiberaCrypt.MlKemCorrect
import LiberaCrypt.MlKemCodec
import LiberaCrypt.MlKemDecaps
import LiberaCrypt.Allocation
import LiberaCrypt.Bignum
import LiberaCrypt.BignumAdd
import LiberaCrypt.BignumMul
import LiberaCrypt.BignumSquare
import LiberaCrypt.BignumMod
import LiberaCrypt.Montgomery
import LiberaCrypt.ModExpSecure
import LiberaCrypt.ModExpAgree
import LiberaCrypt.Def
import LiberaCrypt.Sha1
import LiberaCrypt.Sha2
import LiberaCrypt.Lsh
import LiberaCrypt.HashFunction
import LiberaCrypt.HashStreaming
import LiberaCrypt.Sha3Streaming
import LiberaCrypt.Poly1305Tag
import LiberaCrypt.AeadCorrect
import LiberaCrypt.AeadCounters
import LiberaCrypt.CcmFormatting
import LiberaCrypt.CtrDrbgCorrect
import LiberaCrypt.CallSequence
import LiberaCrypt.HashStateMachine
import LiberaCrypt.CtrDrbgSequence
import LiberaCrypt.ElgamalCorrect
import LiberaCrypt.EcdsaNonceCorrect
import LiberaCrypt.Ecdh
import LiberaCrypt.BlockCipher
import LiberaCrypt.BignumDivision
import LiberaCrypt.BignumProduct
import LiberaCrypt.EcArithmetic
import LiberaCrypt.MillerRabin
import LiberaCrypt.KeyDerivationCorrect
import LiberaCrypt.Ed25519SignatureCorrect
import LiberaCrypt.X25519Correct
import LiberaCrypt.StreamCipher
import LiberaCrypt.MlKemSampleNtt
import LiberaCrypt.BignumCodec
import LiberaCrypt.EcScalarParsing
import LiberaCrypt.Gmac
import LiberaCrypt.TripleDesCorrect
import LiberaCrypt.PrimeGeneration
import LiberaCrypt.RsaInverse
import LiberaCrypt.EcScalarVartime
import LiberaCrypt.RsaWidth
import LiberaCrypt.EcdsaCorrect
import LiberaCrypt.RsaKeygen
import LiberaCrypt.RsaOaep
import LiberaCrypt.RsaPss
import LiberaCrypt.BignumRuns
import LiberaCrypt.SlhPlain
import LiberaCrypt.SlhWots
import LiberaCrypt.HaetaePacking
import LiberaCrypt.MlDsaHint
