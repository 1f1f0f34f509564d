import LiberaCrypt.EcGroup
import LiberaCrypt.PrimeCertificate
import LiberaCrypt.ShortJacobian
import Mathlib.GroupTheory.OrderOfElement

namespace LiberaCrypt.EcPrimes

open LiberaCrypt.EcCurves LiberaCrypt.EcGroup LiberaCrypt.EcMontgomery
open LiberaCrypt.PrimeCertificate LiberaCrypt.ShortJacobian LiberaCrypt.ShortWeierstrass

/-- The primes of the curves, and those that their certificates rest on. -/
def certificates : List Certificate := [
  ⟨domainP521.n, 3, [(2, 3), (7, 1), (11, 1), (1283, 1), (1458105463, 1),
    (0x15cee6fc86049407b0ef7, 1),
    (0x5bc065010a97a162f78b610a077bb97b53886bb266481d591d2d02fd6aa2bf7392c391499b2d8f744518c799a7c35911a7,
    1)]⟩,
  ⟨0x5bc065010a97a162f78b610a077bb97b53886bb266481d591d2d02fd6aa2bf7392c391499b2d8f744518c799a7c35911a7,
    3, [(2, 1), (3, 2), (11, 1), (31, 1), (161969, 1),
    (0x18c61e9d6f5364020bfb6e04363013a05dc6efa02ece541f304622ec35a464bdcd07d18a2ce4ee8b39c6438bdbf,
    1)]⟩,
  ⟨domainP384.p, 19, [(2, 1), (19, 1), (67, 1), (807145746439, 1),
    (0x23108c4e1b4108ec0ae7f9ac9f118677a6c53e44fd12fcacc07b805145240aae82349d3ce0e376778bd1, 1)]⟩,
  ⟨domainP384.n, 2, [(2, 1), (3, 2), (7, 2), (13, 1), (0x3a25040f77034a519673713, 1),
    (0x192a43d8f8a55b860e20c52b200024fbdd5c39850b80be9fa08e6156d781713c6b252c7, 1)]⟩,
  ⟨0x18c61e9d6f5364020bfb6e04363013a05dc6efa02ece541f304622ec35a464bdcd07d18a2ce4ee8b39c6438bdbf,
    19, [(2, 1), (5, 1), (19, 1), (263, 1), (5449, 1), (15601, 1), (370471, 1),
    (0x1bd2f9824f05fce70c4c7781f95073, 1), (0xa6fc66f961355bf57299eadf799cfd92769c4db1923363, 1)]⟩,
  ⟨0x23108c4e1b4108ec0ae7f9ac9f118677a6c53e44fd12fcacc07b805145240aae82349d3ce0e376778bd1, 3, [(2,
    4), (11, 3), (8389, 1), (38557, 1), (312289, 1), (1357291859799823621, 1),
    (0x1cb733b306cfe30dd1, 1), (0x8e5080f370d454d0f85c00e3e7c5cae209c3, 1)]⟩,
  ⟨0x192a43d8f8a55b860e20c52b200024fbdd5c39850b80be9fa08e6156d781713c6b252c7, 12, [(2, 1), (3, 1),
    (5, 1), (151, 1), (347, 1), (1276987, 1), (1436833069313, 1),
    (0xa8c55f664384d6fe203ca16a45d7238cad2d61237ce2fa5933, 1)]⟩,
  ⟨domainP256.p, 6, [(2, 1), (3, 1), (5, 2), (17, 1), (257, 1), (641, 1), (1531, 1), (65537, 1),
    (490463, 1), (6700417, 1), (0x926d1276e41fae13fdda5f78edb7802a76951509, 1)]⟩,
  ⟨domainP256.n, 7, [(2, 4), (3, 1), (71, 1), (131, 1), (373, 1), (3407, 1), (17449, 1), (38189,
    1), (187019741, 1), (622491383, 1), (1002328039319, 1), (0x87b23e9d09d3e637b2aa341, 1)]⟩,
  ⟨0xa8c55f664384d6fe203ca16a45d7238cad2d61237ce2fa5933, 2, [(2, 1), (251, 1), (248431, 1),
    (8463023, 1), (55942463741690639, 1), (0x39f9994f7b1e2d7bb9f2ce75, 1)]⟩,
  ⟨0xa6fc66f961355bf57299eadf799cfd92769c4db1923363, 2, [(2, 1), (10577321, 1), (101785224689, 1),
    (0x59692038853ba2a39463b0149af3859, 1)]⟩,
  ⟨0x926d1276e41fae13fdda5f78edb7802a76951509, 11, [(2, 3), (3, 3), (5, 1),
    (0x22b559b5c816ae00f2378e18df38c5410ed597, 1)]⟩,
  ⟨0x22b559b5c816ae00f2378e18df38c5410ed597, 3, [(2, 1), (3, 2), (2411, 1), (34282281433, 1),
    (11290956913871, 1), (46076956964474543, 1)]⟩,
  ⟨0x8e5080f370d454d0f85c00e3e7c5cae209c3, 2, [(2, 1), (3, 1), (5, 1),
    (0x4be6ab2c80713e4d5142229baecfe3abc0f, 1)]⟩,
  ⟨0x4be6ab2c80713e4d5142229baecfe3abc0f, 5, [(2, 1), (17, 1), (97, 1), (6051631, 1),
    (0x10556d4e5b6afe30f884b3399b9, 1)]⟩,
  ⟨0x59692038853ba2a39463b0149af3859, 3, [(2, 3), (5, 1), (43800962361397, 1),
    (0xe5d44c3fe9cf001873, 1)]⟩,
  ⟨0x1bd2f9824f05fce70c4c7781f95073, 11, [(2, 1), (3, 2), (11, 1), (109, 1), (14461, 1), (133279,
    1), (0xbc48448901e71a3ad5, 1)]⟩,
  ⟨0x10556d4e5b6afe30f884b3399b9, 5, [(2, 3), (3, 1), (0xae39e343cf1fecb5058777bbd, 1)]⟩,
  ⟨0xae39e343cf1fecb5058777bbd, 2, [(2, 2), (3, 2), (0x4d6f0fac5c0e3050743c3537, 1)]⟩,
  ⟨0x4d6f0fac5c0e3050743c3537, 5, [(2, 1), (336757, 1), (0x788dfeed61e9c29d3cf, 1)]⟩,
  ⟨0x39f9994f7b1e2d7bb9f2ce75, 6, [(2, 2), (3, 1), (0x4d4ccc69f97d91fa4d43bdf, 1)]⟩,
  ⟨0x87b23e9d09d3e637b2aa341, 7, [(2, 6), (3, 2), (1297, 1), (16879, 1), (208150935158385979,
    1)]⟩,
  ⟨0x4d4ccc69f97d91fa4d43bdf, 6, [(2, 1), (3, 3), (64901, 1), (0x1720b72947fc8b45d9, 1)]⟩,
  ⟨0x3a25040f77034a519673713, 2, [(2, 1), (3, 1), (1553, 1), (0x198f251db60be2e87753, 1)]⟩,
  ⟨0x15cee6fc86049407b0ef7, 13, [(2, 1), (17, 1), (547, 1), (88599952463812275001, 1)]⟩,
  ⟨0x198f251db60be2e87753, 3, [(2, 1), (3, 1), (13, 1), (34429, 1), (154950581, 1), (290064143,
    1)]⟩,
  ⟨0x788dfeed61e9c29d3cf, 5, [(2, 1), (17, 1), (41, 1), (568151, 1), (44925942675193, 1)]⟩,
  ⟨0xe5d44c3fe9cf001873, 2, [(2, 1), (3, 1), (61, 1), (193, 1), (60018716061994831, 1)]⟩,
  ⟨0xbc48448901e71a3ad5, 2, [(2, 2), (3, 2), (13, 1), (19, 1), (59, 1), (9227, 1), (65677, 1),
    (10924559, 1)]⟩,
  ⟨0x1cb733b306cfe30dd1, 3, [(2, 4), (7, 1), (181, 1), (105957871, 1), (246608641, 1)]⟩,
  ⟨0x1720b72947fc8b45d9, 11, [(2, 3), (3, 1), (13, 1), (89, 1), (659, 1), (23314383343543, 1)]⟩,
  ⟨88599952463812275001, 11, [(2, 3), (3, 1), (5, 5), (19, 1), (281, 1), (1187, 1), (186406729,
    1)]⟩,
  ⟨1357291859799823621, 2, [(2, 2), (3, 1), (5, 1), (67, 1), (6317, 1), (53448597593, 1)]⟩,
  ⟨208150935158385979, 2, [(2, 1), (3, 1), (11, 1), (43, 1), (127, 1), (3023, 1), (191039911,
    1)]⟩,
  ⟨60018716061994831, 7, [(2, 1), (3, 1), (5, 1), (7, 1), (19, 1), (777241, 1), (19353437, 1)]⟩,
  ⟨55942463741690639, 7, [(2, 1), (7, 1), (107, 1), (37344768852931, 1)]⟩,
  ⟨46076956964474543, 5, [(2, 1), (23, 1), (18169, 1), (78283, 1), (704251, 1)]⟩,
  ⟨44925942675193, 5, [(2, 3), (3, 1), (3517, 1), (532247449, 1)]⟩,
  ⟨43800962361397, 6, [(2, 2), (3, 1), (41, 1), (10861, 1), (8196883, 1)]⟩,
  ⟨37344768852931, 3, [(2, 1), (3, 1), (5, 1), (7, 1), (11, 2), (149, 1), (9863677, 1)]⟩,
  ⟨23314383343543, 3, [(2, 1), (3, 1), (17, 1), (228572385721, 1)]⟩,
  ⟨11290956913871, 13, [(2, 1), (5, 1), (17, 1), (66417393611, 1)]⟩,
  ⟨1436833069313, 3, [(2, 8), (16979, 1), (330563, 1)]⟩,
  ⟨1002328039319, 19, [(2, 1), (126241, 1), (3969899, 1)]⟩,
  ⟨807145746439, 3, [(2, 1), (3, 1), (47, 1), (2862218959, 1)]⟩,
  ⟨228572385721, 23, [(2, 3), (3, 1), (5, 1), (7, 1), (272109983, 1)]⟩,
  ⟨101785224689, 3, [(2, 4), (7, 1), (131, 1), (6937379, 1)]⟩,
  ⟨66417393611, 6, [(2, 1), (5, 1), (53, 1), (173, 1), (197, 1), (3677, 1)]⟩,
  ⟨53448597593, 3, [(2, 3), (13, 1), (513928823, 1)]⟩,
  ⟨34282281433, 17, [(2, 3), (3, 1), (7, 1), (204061199, 1)]⟩,
  ⟨2862218959, 3, [(2, 1), (3, 1), (157, 1), (1373, 1), (2213, 1)]⟩,
  ⟨1458105463, 3, [(2, 1), (3, 5), (11, 1), (311, 1), (877, 1)]⟩,
  ⟨622491383, 5, [(2, 1), (311245691, 1)]⟩,
  ⟨532247449, 7, [(2, 3), (3, 1), (61, 1), (363557, 1)]⟩,
  ⟨513928823, 5, [(2, 1), (11, 1), (59, 1), (599, 1), (661, 1)]⟩,
  ⟨311245691, 2, [(2, 1), (5, 1), (7, 1), (17, 1), (29, 2), (311, 1)]⟩,
  ⟨290064143, 5, [(2, 1), (79, 1), (491, 1), (3739, 1)]⟩,
  ⟨272109983, 5, [(2, 1), (19, 1), (73, 1), (233, 1), (421, 1)]⟩,
  ⟨246608641, 19, [(2, 8), (3, 2), (5, 1), (21407, 1)]⟩,
  ⟨204061199, 11, [(2, 1), (11, 1), (23, 1), (107, 1), (3769, 1)]⟩,
  ⟨191039911, 3, [(2, 1), (3, 1), (5, 1), (41, 1), (155317, 1)]⟩,
  ⟨187019741, 2, [(2, 2), (5, 1), (9350987, 1)]⟩,
  ⟨186406729, 7, [(2, 3), (3, 1), (61, 1), (157, 1), (811, 1)]⟩,
  ⟨154950581, 2, [(2, 2), (5, 1), (17, 1), (455737, 1)]⟩,
  ⟨105957871, 3, [(2, 1), (3, 1), (5, 1), (19, 1), (211, 1), (881, 1)]⟩,
  ⟨19353437, 2, [(2, 2), (277, 1), (17467, 1)]⟩,
  ⟨10924559, 7, [(2, 1), (59, 1), (92581, 1)]⟩,
  ⟨10577321, 17, [(2, 3), (5, 1), (13, 1), (20341, 1)]⟩,
  ⟨9863677, 5, [(2, 2), (3, 2), (311, 1), (881, 1)]⟩,
  ⟨9350987, 2, [(2, 1), (17, 1), (229, 1), (1201, 1)]⟩,
  ⟨8463023, 5, [(2, 1), (113, 1), (37447, 1)]⟩,
  ⟨8196883, 2, [(2, 1), (3, 1), (79, 1), (17293, 1)]⟩,
  ⟨6937379, 2, [(2, 1), (7, 1), (495527, 1)]⟩,
  ⟨6700417, 5, [(2, 7), (3, 1), (17449, 1)]⟩,
  ⟨6051631, 6, [(2, 1), (3, 1), (5, 1), (13, 1), (59, 1), (263, 1)]⟩,
  ⟨3969899, 2, [(2, 1), (19, 1), (104471, 1)]⟩,
  ⟨1276987, 2, [(2, 1), (3, 1), (29, 1), (41, 1), (179, 1)]⟩,
  ⟨777241, 7, [(2, 3), (3, 2), (5, 1), (17, 1), (127, 1)]⟩,
  ⟨704251, 2, [(2, 1), (3, 2), (5, 3), (313, 1)]⟩,
  ⟨568151, 17, [(2, 1), (5, 2), (11, 1), (1033, 1)]⟩,
  ⟨495527, 5, [(2, 1), (41, 1), (6043, 1)]⟩,
  ⟨490463, 14, [(2, 1), (7, 1), (53, 1), (661, 1)]⟩,
  ⟨455737, 11, [(2, 3), (3, 1), (17, 1), (1117, 1)]⟩,
  ⟨370471, 3, [(2, 1), (3, 1), (5, 1), (53, 1), (233, 1)]⟩,
  ⟨363557, 2, [(2, 2), (97, 1), (937, 1)]⟩,
  ⟨336757, 2, [(2, 2), (3, 1), (7, 1), (19, 1), (211, 1)]⟩,
  ⟨330563, 2, [(2, 1), (19, 1), (8699, 1)]⟩,
  ⟨312289, 14, [(2, 5), (3, 1), (3253, 1)]⟩,
  ⟨248431, 3, [(2, 1), (3, 1), (5, 1), (7, 2), (13, 2)]⟩,
  ⟨161969, 3, [(2, 4), (53, 1), (191, 1)]⟩,
  ⟨155317, 5, [(2, 2), (3, 1), (7, 1), (43, 2)]⟩,
  ⟨133279, 3, [(2, 1), (3, 1), (97, 1), (229, 1)]⟩,
  ⟨126241, 7, [(2, 5), (3, 1), (5, 1), (263, 1)]⟩,
  ⟨104471, 11, [(2, 1), (5, 1), (31, 1), (337, 1)]⟩,
  ⟨92581, 6, [(2, 2), (3, 1), (5, 1), (1543, 1)]⟩,
  ⟨78283, 3, [(2, 1), (3, 2), (4349, 1)]⟩,
  ⟨65677, 2, [(2, 2), (3, 1), (13, 1), (421, 1)]⟩,
  ⟨65537, 3, [(2, 16)]⟩]

theorem certificates_check : checkAll certificates = true := by decide +kernel

theorem certified_prime {p : Nat} (h : (certificates.any fun c => c.p == p) = true) :
    p.Prime := by
  obtain ⟨c, hc, hp⟩ := List.any_eq_true.mp h
  exact beq_iff_eq.mp hp ▸ prime_of_checkAll certificates_check c hc

theorem fieldPrime_prime (id : CryptoEcCurveId) : (fieldPrime (cryptoEcCurveGet id)).Prime := by
  cases id with
  | p256 =>
    rw [(matches_domain .p256).p]
    exact certified_prime (by decide +kernel)
  | p384 =>
    rw [(matches_domain .p384).p]
    exact certified_prime (by decide)
  | p521 => exact fieldPrime_p521

theorem groupOrder_prime (id : CryptoEcCurveId) : (groupOrder (cryptoEcCurveGet id)).Prime := by
  cases id with
  | p256 =>
    rw [(matches_domain .p256).n]
    exact certified_prime (by decide)
  | p384 =>
    rw [(matches_domain .p384).n]
    exact certified_prime (by decide)
  | p521 =>
    rw [(matches_domain .p521).n]
    exact certified_prime (by decide)

def generatorJacobian (id : CryptoEcCurveId) : Jacobian Nat :=
  ⟨(domain id).gx, (domain id).gy, 1⟩

theorem order_check (id : CryptoEcCurveId) :
    (Jacobian.multiplyMod (domain id).p 521 (domain id).n (generatorJacobian id)).z = 0 ∧
      (domain id).n < 2 ^ 521 := by
  cases id <;> decide +kernel

instance (id : CryptoEcCurveId) : Fact (fieldPrime (cryptoEcCurveGet id)).Prime :=
  ⟨fieldPrime_prime id⟩

theorem order_nsmul_generator (id : CryptoEcCurveId) :
    groupOrder (cryptoEcCurveGet id) • generator id = 0 := by
  obtain ⟨hz, hbits⟩ := order_check id
  have hstands : (Jacobian.residues (p := fieldPrime (cryptoEcCurveGet id))
      (generatorJacobian id)).Stands (generator id) := by
    refine ⟨?_, ?_, ?_⟩ <;> simp [Jacobian.residues, generatorJacobian]
  have hmultiple := Jacobian.multiplyMod_stands two_ne_zero hstands hbits
  rw [(matches_domain id).n]
  apply hmultiple.z_eq_zero.mp
  rw [← (matches_domain id).p] at hz
  rw [Jacobian.residues, hz, Nat.cast_zero]

theorem nsmul_generator_eq_zero (id : CryptoEcCurveId) (k : Nat) :
    k • generator id = 0 ↔ groupOrder (cryptoEcCurveGet id) ∣ k := by
  have hprime := Fact.mk (groupOrder_prime id)
  have horder : addOrderOf (generator id) = groupOrder (cryptoEcCurveGet id) :=
    addOrderOf_eq_prime (order_nsmul_generator id)
      (WeierstrassCurve.Affine.Point.some_ne_zero _)
  rw [← horder]
  exact addOrderOf_dvd_iff_nsmul_eq_zero.symm

end LiberaCrypt.EcPrimes
