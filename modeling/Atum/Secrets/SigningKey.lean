import Mathlib.Data.Int.GCD
import Mathlib.Data.Nat.Size
import Mathlib.NumberTheory.LucasPrimality
import Mathlib.Tactic.NormNum.Prime
import Mathlib.Tactic.Ring
import Atum.Go.Outcome

/-!
# The signing key of GitLab

`deriveGitLabOIDCSigningKey` derives an RSA key from two pieces of key material.  The
material is made a number of 1024 bits whose two highest bits and whose lowest bit are
set, and the search goes on from there, two by two, to a prime whose predecessor is not
a multiple of the exponent.

The two highest bits of the primes give the modulus its 2048 bits, and the condition on
the predecessors makes the exponent invertible (`signingKey_wellFormed`).
-/

namespace Atum.Secrets

open Atum.Go Nat

abbrev Bytes := List UInt8

/-! ## The model -/

def exponent : Nat := 65537

/-- `SetBytes`, the first byte is the highest. -/
def setBytes (material : Bytes) : Nat :=
  material.foldl (fun value byte => value * 256 + byte.toNat) 0

/-- The first candidate: the material with the bits 1023, 1022 and 0 set. -/
def firstCandidate (material : Bytes) : Nat :=
  setBytes material ||| 2 ^ 1023 ||| 2 ^ 1022 ||| 1

/-- The loop of `deterministicRSAPrime`, for candidates of some number of bits. -/
def searchPrime (probablyPrime : Nat → Bool) (bits candidate : Nat) : Except String Nat :=
  if _hsize : candidate.size = bits then
    if (candidate - 1) % exponent ≠ 0 ∧ probablyPrime candidate = true then .ok candidate
    else searchPrime probablyPrime bits (candidate + 2)
  else .error "derived RSA prime search exhausted 1024-bit range"
termination_by 2 ^ bits - candidate
decreasing_by
  have hlt := Nat.size_le.mp _hsize.le
  omega

def deterministicRSAPrime (probablyPrime : Nat → Bool) (material : Bytes) : Except String Nat :=
  if material.length ≠ 128 then
    .error s!"RSA prime material must be exactly 128 bytes, got {material.length}"
  else searchPrime probablyPrime 1024 (firstCandidate material)

/-- `ModInverse`; none if there is no inverse. -/
def modInverse (value modulus : Nat) : Option Nat :=
  if Nat.gcd value modulus = 1 then some (value.gcdA modulus % modulus).toNat else none

/-- `rsa.PrivateKey`. -/
structure PrivateKey where
  n : Nat
  e : Nat
  d : Nat
  primes : List Nat

/-- `deriveGitLabOIDCSigningKey`; `encode` validates a key and writes it down. -/
def deriveGitLabOIDCSigningKey (probablyPrime : Nat → Bool)
    (derive : String → Nat → Except String Bytes) (encode : PrivateKey → Except String Bytes) :
    Except String Bytes := do
  let pMaterial ← derive "gitlab-openid-connect-signing-key-p" 128
  let qMaterial ← derive "gitlab-openid-connect-signing-key-q" 128
  let p ← deterministicRSAPrime probablyPrime pMaterial
  let q ← deterministicRSAPrime probablyPrime qMaterial
  if p = q then throw "derived RSA primes are equal"
  match modInverse exponent ((p - 1) * (q - 1)) with
  | none => throw "derived RSA exponent is not invertible"
  | some d => encode { n := p * q, e := exponent, d := d, primes := [p, q] }

/-! ## The search -/

theorem three_mul_le_or (value : Nat) {bit highest : Nat} (h : highest = bit + 1) :
    3 * 2 ^ bit ≤ value ||| 2 ^ highest ||| 2 ^ bit ||| 1 := by
  subst h
  have hsum := Nat.two_pow_add_eq_or_of_lt
    (Nat.pow_lt_pow_right Nat.one_lt_two (Nat.lt_succ_self bit)) 1
  rw [mul_one, pow_succ] at hsum
  calc 3 * 2 ^ bit = 2 ^ bit * 2 ||| 2 ^ bit := by omega
    _ ≤ value ||| (2 ^ bit * 2 ||| 2 ^ bit) := right_le_or
    _ ≤ value ||| 2 ^ (bit + 1) ||| 2 ^ bit ||| 1 := by
      rw [pow_succ, Nat.or_assoc value]
      exact left_le_or

/-- The first candidate is odd and has its two highest bits set. -/
theorem firstCandidate_bounds (material : Bytes) :
    3 * 2 ^ 1022 ≤ firstCandidate material ∧ firstCandidate material % 2 = 1 := by
  refine ⟨three_mul_le_or _ rfl, ?_⟩
  rw [firstCandidate, or_mod_two_eq_one]
  exact .inr rfl

variable {probablyPrime : Nat → Bool} {material : Bytes} {p q : Nat}

/-- A prime that the search accepts. -/
structure Accepted (candidate : Nat) : Prop where
  prime : candidate.Prime
  predecessor : ¬ exponent ∣ candidate - 1

/-- What the search finds is the least accepted number that it can come to. -/
theorem searchPrime_ok (hexact : ∀ n, probablyPrime n = true ↔ n.Prime) {bits candidate : Nat}
    (h : searchPrime probablyPrime bits candidate = .ok p) :
    candidate ≤ p ∧ p % 2 = candidate % 2 ∧ p < 2 ^ bits ∧ Accepted p ∧
      ∀ other, candidate ≤ other → other < p → other % 2 = candidate % 2 → ¬ Accepted other := by
  have hacc : ∀ n, (n - 1) % exponent ≠ 0 ∧ probablyPrime n = true ↔ Accepted n := by
    intro n
    rw [hexact, Ne, ← dvd_iff_mod_eq_zero]
    exact ⟨fun hboth => ⟨hboth.2, hboth.1⟩, fun hboth => ⟨hboth.2, hboth.1⟩⟩
  induction candidate using searchPrime.induct probablyPrime bits with
  | case1 candidate hsize hfound =>
    rw [searchPrime, dif_pos hsize, if_pos hfound] at h
    cases h
    refine ⟨le_rfl, rfl, size_le.mp hsize.le, (hacc _).mp hfound, ?_⟩
    intro other hle hlt
    omega
  | case2 candidate hsize hmissed ih =>
    rw [searchPrime, dif_pos hsize, if_neg hmissed] at h
    obtain ⟨hle, hodd, hlt, hp, hleast⟩ := ih h
    refine ⟨by omega, by omega, hlt, hp, fun other hother hbelow hparity => ?_⟩
    by_cases hfirst : other = candidate
    · rw [hfirst, ← hacc]
      exact hmissed
    · exact hleast other (by omega) hbelow (by omega)
  | case3 candidate hsize =>
    rw [searchPrime, dif_neg hsize] at h
    cases h

/-- The number that `deterministicRSAPrime` returns. -/
structure FirstAccepted (start p : Nat) : Prop where
  odd : p % 2 = 1
  from_start : start ≤ p
  accepted : Accepted p
  least : ∀ other, other % 2 = 1 → start ≤ other → Accepted other → p ≤ other
  high : 3 * 2 ^ 1022 ≤ p
  low : p < 2 ^ 1024

theorem deterministicRSAPrime_ok (hexact : ∀ n, probablyPrime n = true ↔ n.Prime)
    (h : deterministicRSAPrime probablyPrime material = .ok p) :
    FirstAccepted (firstCandidate material) p := by
  rw [deterministicRSAPrime] at h
  split at h
  · cases h
  obtain ⟨hhigh, hodd⟩ := firstCandidate_bounds material
  obtain ⟨hle, hparity, hlt, hp, hleast⟩ := searchPrime_ok hexact h
  refine ⟨hparity.trans hodd, hle, hp, fun other hother hstart hacc => ?_, hhigh.trans hle, hlt⟩
  by_contra hbelow
  exact hleast other hstart (Nat.lt_of_not_le hbelow) (hother.trans hodd.symm) hacc

/-! ## The key -/

theorem prime_exponent : exponent.Prime := by norm_num [exponent]

/-- The product of two numbers of 1024 bits with the two highest bits set. -/
theorem size_mul {bits length : Nat} (hp : 3 * 2 ^ bits ≤ p) (hq : 3 * 2 ^ bits ≤ q)
    (hp' : p < 2 ^ length) (hq' : q < 2 ^ length) (hlen : length = bits + 2) :
    (p * q).size = 2 * bits + 3 + 1 := by
  subst hlen
  have hsquare : 2 ^ (2 * bits + 3) = 8 * (2 ^ bits * 2 ^ bits) := by ring
  have hsquare' : 2 ^ (2 * bits + 3 + 1) = 2 ^ (bits + 2) * 2 ^ (bits + 2) := by ring
  refine le_antisymm (size_le.mpr (hsquare' ▸ mul_lt_mul'' hp' hq')) (lt_size.mpr ?_)
  rw [hsquare]
  calc 8 * (2 ^ bits * 2 ^ bits) ≤ 3 * 2 ^ bits * (3 * 2 ^ bits) := by ring_nf; omega
    _ ≤ p * q := Nat.mul_le_mul hp hq

theorem modInverse_of_coprime {value modulus : Nat} (h : value.Coprime modulus)
    (hmodulus : 1 < modulus) :
    ∃ d, modInverse value modulus = some d ∧ value * d % modulus = 1 := by
  refine ⟨_, if_pos h, ?_⟩
  have hpos : (modulus : ℤ) ≠ 0 := by omega
  have hbezout := gcd_eq_gcd_ab value modulus
  rw [h.gcd_eq_one] at hbezout
  have hcast : ((value.gcdA modulus % modulus).toNat : ℤ) = value.gcdA modulus % modulus :=
    Int.toNat_of_nonneg (Int.emod_nonneg _ hpos)
  have hone : ((value * (value.gcdA modulus % modulus).toNat % modulus : Nat) : ℤ) = (1 : Nat) := by
    rw [Int.natCast_emod, cast_mul, hcast, Int.mul_emod, Int.emod_emod, ← Int.mul_emod]
    have hval : (value : ℤ) * value.gcdA modulus = 1 - modulus * value.gcdB modulus := by
      rw [cast_one] at hbezout
      omega
    rw [hval, Int.sub_mul_emod_self_left, cast_one]
    exact Int.emod_eq_of_lt one_pos.le (by omega)
  exact_mod_cast hone

theorem FirstAccepted.coprime {start start' : Nat} (hp : FirstAccepted start p)
    (hq : FirstAccepted start' q) : exponent.Coprime ((p - 1) * (q - 1)) := by
  rw [prime_exponent.coprime_iff_not_dvd, prime_exponent.dvd_mul]
  exact fun hdvd => hdvd.elim hp.accepted.predecessor hq.accepted.predecessor

theorem one_lt_mul_pred {bits : Nat} (hp : 3 * 2 ^ bits ≤ p) (hq : 3 * 2 ^ bits ≤ q) :
    1 < (p - 1) * (q - 1) := by
  have hpos := Nat.two_pow_pos bits
  calc 1 < 2 * 2 := by decide
    _ ≤ (p - 1) * (q - 1) := Nat.mul_le_mul (by omega) (by omega)

/-- Every number that the search returns is the first accepted one from its start, and has
its two highest bits set.  Two different ones give a key with a modulus of 2048 bits and an
inverse of the exponent. -/
theorem signingKey_wellFormed (probablyPrime : Nat → Bool)
    (hexact : ∀ n, probablyPrime n = true ↔ n.Prime) :
    (∀ material p, deterministicRSAPrime probablyPrime material = .ok p →
      FirstAccepted (firstCandidate material) p) ∧ ∀ derive encode pMaterial qMaterial p q,
      derive "gitlab-openid-connect-signing-key-p" 128 = .ok pMaterial →
      derive "gitlab-openid-connect-signing-key-q" 128 = .ok qMaterial →
      deterministicRSAPrime probablyPrime pMaterial = .ok p →
      deterministicRSAPrime probablyPrime qMaterial = .ok q → p ≠ q →
      ∃ key : PrivateKey, deriveGitLabOIDCSigningKey probablyPrime derive encode = encode key ∧
        key.n = p * q ∧ key.n.size = 2048 ∧ key.e = exponent ∧
        exponent * key.d % ((p - 1) * (q - 1)) = 1 := by
  refine ⟨fun material p hp => deterministicRSAPrime_ok hexact hp, ?_⟩
  intro derive encode pMaterial qMaterial p q hpMaterial hqMaterial hp hq hne
  have hp' := deterministicRSAPrime_ok hexact hp
  have hq' := deterministicRSAPrime_ok hexact hq
  obtain ⟨d, hd, hinverse⟩ :=
    modInverse_of_coprime (hp'.coprime hq') (one_lt_mul_pred hp'.high hq'.high)
  refine ⟨{ n := p * q, e := exponent, d := d, primes := [p, q] }, ?_, rfl,
    size_mul hp'.high hq'.high hp'.low hq'.low rfl, rfl, hinverse⟩
  simp only [deriveGitLabOIDCSigningKey, bind, Except.bind, hpMaterial, hqMaterial, hp, hq,
    if_neg hne, hd]

/-! ### A concrete key -/

/-- A power of a number, modulo another one; the exponent has some number of digits to
the base 16. -/
def powMod (modulus base : Nat) : (digits : Nat) → (e : Nat) → Nat
  | 0, _ => 1 % modulus
  | digits + 1, e => powMod modulus base digits (e / 16) ^ 16 * base ^ (e % 16) % modulus

theorem powMod_eq (modulus base : Nat) : ∀ {digits e : Nat}, e < 16 ^ digits →
    powMod modulus base digits e = base ^ e % modulus
  | 0, e, h => by
    obtain rfl : e = 0 := by simpa using h
    rfl
  | digits + 1, e, h => by
    have hdigits : e / 16 < 16 ^ digits := by
      rw [pow_succ] at h
      omega
    rw [powMod, powMod_eq modulus base hdigits, Nat.mul_mod, ← Nat.pow_mod, ← pow_mul,
      ← Nat.mul_mod, ← pow_add, mul_comm (e / 16), Nat.div_add_mod]

/-- A number is prime if its predecessor has the prime factors 2, 3 and 5 only, and is
the order of some number. -/
theorem prime_of_generator {order g a b c : Nat} (horder : order = 2 ^ a * 3 ^ b * 5 ^ c)
    (hsize : order < 16 ^ 256) (hone : powMod (order + 1) g 256 order = 1 % (order + 1))
    (hmore : ∀ factor ∈ [2, 3, 5],
      powMod (order + 1) g 256 (order / factor) ≠ 1 % (order + 1)) : (order + 1).Prime := by
  have hcast : ∀ e, e ≤ order →
      (((g : ZMod (order + 1)) ^ e = 1) ↔ powMod (order + 1) g 256 e = 1 % (order + 1)) := by
    intro e he
    rw [powMod_eq _ _ (he.trans_lt hsize), ← ZMod.natCast_eq_natCast_iff', cast_pow, cast_one]
  refine lucas_primality (order + 1) g ((hcast order le_rfl).mpr hone) fun factor hprime hdvd => ?_
  rw [Nat.add_sub_cancel] at hdvd ⊢
  rw [Ne, hcast _ (Nat.div_le_self _ _)]
  refine hmore factor ?_
  have hfactor : ∀ {base e : Nat}, base.Prime → factor ∣ base ^ e → factor = base :=
    fun hbase hpow => (prime_dvd_prime_iff_eq hprime hbase).mp (hprime.dvd_of_dvd_pow hpow)
  rw [horder, hprime.dvd_mul, hprime.dvd_mul] at hdvd
  rcases hdvd with (htwo | hthree) | hfive
  · simp [hfactor prime_two htwo]
  · simp [hfactor prime_three hthree]
  · simp [hfactor prime_five hfive]

/-- The predecessors of two primes of 1024 bits. -/
def pOrder : Nat := 2 ^ 863 * 3 ^ 100 * 5 ^ 1

def qOrder : Nat := 2 ^ 832 * 3 ^ 118 * 5 ^ 2

theorem prime_pOrder : (pOrder + 1).Prime :=
  @prime_of_generator pOrder 22 _ _ _ rfl (by decide +kernel) (by decide +kernel)
    (by decide +kernel)

theorem prime_qOrder : (qOrder + 1).Prime :=
  @prime_of_generator qOrder 7 _ _ _ rfl (by decide +kernel) (by decide +kernel)
    (by decide +kernel)

/-- A number as 128 bytes. -/
def bigEndian (value : Nat) : Bytes :=
  (List.range 128).map fun i => UInt8.ofNat (value / 256 ^ (127 - i))

theorem size_eq {bits length n : Nat} (hle : 2 ^ bits ≤ n) (hlt : n < 2 ^ length)
    (hlen : length = bits + 1) : n.size = length :=
  le_antisymm (size_le.mpr hlt) (hlen ▸ lt_size.mpr hle)

/-- The search goes on from a composite number to the prime after it. -/
theorem deterministicRSAPrime_next {order : Nat} (hprime : (order + 1).Prime)
    (hcomposite : ¬(order - 1).Prime) (hexponent : order % exponent ≠ 0)
    (hlow : 2 ^ 1023 < order) (hhigh : order + 1 < 2 ^ 1024)
    (hcandidate : firstCandidate (bigEndian (order - 1)) = order - 1) :
    deterministicRSAPrime (fun n => decide n.Prime) (bigEndian (order - 1)) = .ok (order + 1) := by
  have hstart : (order - 1).size = 1024 := size_eq (Nat.le_sub_one_of_lt hlow)
    ((Nat.sub_le _ _).trans_lt (Nat.lt_of_succ_lt hhigh)) rfl
  have hpos : 0 < order := Nat.pos_of_ne_zero fun hzero => by simp [hzero] at hexponent
  have hnext : order - 1 + 2 = order + 1 := by
    rw [← Nat.sub_add_cancel hpos, Nat.add_sub_cancel]
  have hlength : (bigEndian (order - 1)).length = 128 := by simp [bigEndian]
  rw [deterministicRSAPrime, if_neg (not_not.mpr hlength), hcandidate, searchPrime, dif_pos hstart,
    if_neg (by simp [hcomposite]), hnext, searchPrime,
    dif_pos (size_eq (hlow.le.trans (Nat.le_succ _)) hhigh rfl),
    if_pos ⟨hexponent, decide_eq_true hprime⟩]

/-- Material for the two primes. -/
def sampleMaterial (label : String) (_length : Nat) : Except String Bytes :=
  if label = "gitlab-openid-connect-signing-key-p" then .ok (bigEndian (pOrder - 1))
  else .ok (bigEndian (qOrder - 1))

theorem signingKey_wellFormed_trial :
    FirstAccepted (firstCandidate (bigEndian (pOrder - 1))) (pOrder + 1) ∧
    ∃ key : PrivateKey, deriveGitLabOIDCSigningKey (fun n => decide n.Prime) sampleMaterial
        (fun key => .ok (bigEndian key.d)) = .ok (bigEndian key.d) ∧
      key.n = (pOrder + 1) * (qOrder + 1) ∧ key.n.size = 2048 ∧ key.e = exponent ∧
      exponent * key.d % ((pOrder + 1 - 1) * (qOrder + 1 - 1)) = 1 := by
  have hcomposite : ∀ n factor, 1 < factor → factor < n → factor ∣ n → ¬n.Prime :=
    fun n factor hone hlt hdvd => not_prime_of_dvd_of_lt hdvd hone hlt
  have hp : deterministicRSAPrime (fun n => decide n.Prime) (bigEndian (pOrder - 1)) =
      .ok (pOrder + 1) := by
    refine deterministicRSAPrime_next prime_pOrder (hcomposite _ 13 ?_ ?_ ?_) ?_ ?_ ?_ ?_
    all_goals decide +kernel
  have hq : deterministicRSAPrime (fun n => decide n.Prime) (bigEndian (qOrder - 1)) =
      .ok (qOrder + 1) := by
    refine deterministicRSAPrime_next prime_qOrder (hcomposite _ 17 ?_ ?_ ?_) ?_ ?_ ?_ ?_
    all_goals decide +kernel
  obtain ⟨hfirst, hkey⟩ := signingKey_wellFormed (fun n => decide n.Prime)
    fun _ => decide_eq_true_iff
  have hne : pOrder + 1 ≠ qOrder + 1 := by decide +kernel
  exact ⟨hfirst _ _ hp, hkey sampleMaterial (fun key => .ok (bigEndian key.d)) _ _ _ _ rfl rfl hp
    hq hne⟩

end Atum.Secrets
