import Mathlib.Data.Nat.Size
import Mathlib.Tactic.LinearCombination
import TrustFlow.Library.Interpolation
import TrustFlow.Library.Primality

/-!
# Shamir arithmetic

The arithmetic of `core/secret_sharing.py`: the field order `PRIME`, inverses
by the extended Euclidean algorithm, polynomial evaluation and Lagrange
interpolation at zero, each as the loop the source runs over Python integers.

* `prime_PRIME` — `PRIME = 2^256 - 189` is prime, by a chain of certificates;
  nothing downstream assumes it.
* `cast_modInverse`, `cast_evaluatePolynomial`, `cast_lagrangeInterpolation` —
  the three functions computed in `ZMod p`.
* `lagrangeInterpolation_evaluatePolynomial` — enough points of one polynomial
  interpolate to its constant coefficient, exactly and not only modulo `PRIME`.
-/

namespace TrustFlow.SecretSharing

open Library List

/-! ## The field order -/

/-- `PRIME = 2**256 - 189`. -/
def PRIME : ℕ := 2 ^ 256 - 189

/-- The certificates, each built on those before it. -/
private theorem certificates :
    Certifies 10262543633 3 34 [2, 2, 2, 2, 11, 83, 702529] ∧
      Certifies 246301047193 5 38 [2, 2, 2, 3, 10262543633] ∧
      Certifies 68964293214041 12 46 [2, 2, 2, 5, 7, 246301047193] ∧
      Certifies 1219974856409 6 41 [2, 2, 2, 7, 11, 3761, 526583] ∧
      Certifies 23236691026952546459 2 65 [2, 7, 41, 587, 68964293214041] ∧
      Certifies 14220365526706201077871 6 74 [2, 3, 3, 5, 23, 2221, 36151, 87881, 973591] ∧
      Certifies 440208639276132997491800604758226661590679912188273141493 2 189
        [2, 2, 3, 7, 13, 1219974856409, 23236691026952546459, 14220365526706201077871] ∧
      Certifies PRIME 2 256 [2, 3, 29, 222587, 1521613, 4463413,
        440208639276132997491800604758226661590679912188273141493] := by
  decide +kernel

/-- **The field order is prime.** -/
theorem prime_PRIME : Nat.Prime PRIME := by
  obtain ⟨h₁, h₂, h₃, h₄, h₅, h₆, h₇, h₈⟩ := certificates
  have hprime₁ := prime_of_pratt h₁ (by simp only [forall_mem_cons]; norm_num)
  have hprime₂ := prime_of_pratt h₂ (by simp only [forall_mem_cons, hprime₁]; norm_num)
  have hprime₃ := prime_of_pratt h₃ (by simp only [forall_mem_cons, hprime₂]; norm_num)
  have hprime₄ := prime_of_pratt h₄ (by simp only [forall_mem_cons]; norm_num)
  have hprime₅ := prime_of_pratt h₅ (by simp only [forall_mem_cons, hprime₃]; norm_num)
  have hprime₆ := prime_of_pratt h₆ (by simp only [forall_mem_cons]; norm_num)
  -- the largest prime factor of `PRIME - 1`
  have hprime₇ := prime_of_pratt h₇
    (by simp only [forall_mem_cons, hprime₄, hprime₅, hprime₆]; norm_num)
  exact prime_of_pratt h₈ (by simp only [forall_mem_cons, hprime₇]; norm_num)

instance : Fact (Nat.Prime PRIME) := ⟨prime_PRIME⟩

theorem PRIME_pos : 0 < PRIME := prime_PRIME.pos

/-! ## Inverses -/

/-- `extended_gcd(a, b)`: `(gcd, x, y)` with `a * x + b * y = gcd`. -/
def extendedGcd (a b : ℕ) : ℤ × ℤ × ℤ :=
  if a = 0 then (b, 0, 1)
  else
    let (gcd, x1, y1) := extendedGcd (b % a) a
    (gcd, y1 - (b / a : ℕ) * x1, x1)
termination_by a
decreasing_by exact Nat.mod_lt _ (Nat.pos_of_ne_zero ‹_›)

/-- `_mod_inverse(a, p)`. -/
def modInverse (a : ℤ) (p : ℕ) : ℤ :=
  let (_, x, _) := extendedGcd (a % p).toNat p
  (x % p + p) % p

/-- The first component is the greatest common divisor, and the other two are
its Bézout coefficients. -/
theorem extendedGcd_spec (a b : ℕ) :
    (extendedGcd a b).1 = Nat.gcd a b ∧
      a * (extendedGcd a b).2.1 + b * (extendedGcd a b).2.2 = Nat.gcd a b := by
  induction a using Nat.strong_induction_on generalizing b with
  | _ a ih =>
    rw [extendedGcd]
    by_cases ha : a = 0
    · simp [ha]
    · obtain ⟨hgcd, hbezout⟩ := ih (b % a) (Nat.mod_lt _ (Nat.pos_of_ne_zero ha)) a
      rw [← Nat.gcd_rec] at hgcd hbezout
      rw [if_neg ha]
      refine ⟨hgcd, ?_⟩
      have hdivmod : (b : ℤ) = a * (b / a : ℕ) + (b % a : ℕ) := by
        exact_mod_cast (Nat.div_add_mod b a).symm
      rw [← hbezout]
      linear_combination (extendedGcd (b % a) a).2.1 * hdivmod

variable {p : ℕ}

/-- The Bézout identity of `_mod_inverse`, modulo any `p`. -/
theorem mul_modInverse (hp : 0 < p) (a : ℤ) :
    (a : ZMod p) * modInverse a p = (a.gcd p : ℕ) := by
  have hr : ((a % p).toNat : ℤ) = a % p :=
    Int.toNat_of_nonneg (Int.emod_nonneg _ (by exact_mod_cast hp.ne'))
  have hgcd : Nat.gcd (a % p).toNat p = a.gcd p := by
    rw [← Int.gcd_natCast_natCast, hr, Int.gcd_emod]
  have hbezout := congrArg (Int.cast : ℤ → ZMod p) (extendedGcd_spec (a % p).toNat p).2
  rw [hr, hgcd] at hbezout
  simpa [modInverse] using hbezout

/-- `_mod_inverse` is the inverse of `ZMod p`, also at zero. -/
theorem cast_modInverse (p : ℕ) [Fact p.Prime] (a : ℤ) :
    (modInverse a p : ZMod p) = (a : ZMod p)⁻¹ := by
  by_cases hdvd : (p : ℤ) ∣ a
  · rw [(ZMod.intCast_zmod_eq_zero_iff_dvd a p).mpr hdvd, inv_zero, modInverse,
      Int.emod_eq_zero_of_dvd hdvd, Int.toNat_zero, extendedGcd]
    simp
  · have hcoprime : a.gcd p = 1 :=
      ((Fact.out : p.Prime).coprime_iff_not_dvd.mpr (mt Int.natCast_dvd.mpr hdvd)).symm
    have hinverse := mul_modInverse (Fact.out : p.Prime).pos a
    rw [hcoprime, Nat.cast_one] at hinverse
    exact eq_inv_of_mul_eq_one_right hinverse

/-- `extended_gcd` under a limit on the nested calls; `none` is `RecursionError`. -/
def extendedGcdWithin : ℕ → ℕ → ℕ → Option (ℤ × ℤ × ℤ)
  | 0, _, _ => none
  | calls + 1, a, b =>
    if a = 0 then some (b, 0, 1)
    else (extendedGcdWithin calls (b % a) a).map fun (gcd, x1, y1) =>
      (gcd, y1 - (b / a : ℕ) * x1, x1)

/-- Two nested calls halve the first argument, so two for each of its bits and a
last one are enough. -/
theorem extendedGcdWithin_eq {bits calls a : ℕ} (ha : a < 2 ^ bits) (hcalls : 2 * bits < calls)
    (b : ℕ) : extendedGcdWithin calls a b = some (extendedGcd a b) := by
  induction bits generalizing calls a b with
  | zero =>
    obtain ⟨calls, rfl⟩ := Nat.exists_eq_add_of_lt hcalls
    obtain rfl : a = 0 := by omega
    rw [extendedGcd]
    simp [extendedGcdWithin]
  | succ bits ih =>
    match calls, hcalls with
    | calls + 2, hcalls =>
      rw [extendedGcd, extendedGcdWithin]
      by_cases hzero : a = 0
      · rw [if_pos hzero, if_pos hzero]
      · rw [if_neg hzero, if_neg hzero, extendedGcd, extendedGcdWithin]
        by_cases hnext : b % a = 0
        · rw [if_pos hnext, if_pos hnext]
          rfl
        · -- the third call's argument is a remainder by the second's
          have hhalf : a % (b % a) < 2 ^ bits := by
            have hlt := Nat.mod_lt b (Nat.pos_of_ne_zero hzero)
            have hmod := Nat.mod_lt a (Nat.pos_of_ne_zero hnext)
            have hdiv := Nat.div_add_mod a (b % a)
            have hone := Nat.div_pos hlt.le (Nat.pos_of_ne_zero hnext)
            have hmul := Nat.le_mul_of_pos_right (b % a) hone
            omega
          rw [if_neg hnext, if_neg hnext, ih hhalf (by omega)]
          rfl

/-- **The modular inverse.** `_mod_inverse` returns the one inverse of `a` below
`p`, and its extended Euclid nests at most two calls for each bit of `p` and one. -/
theorem modInverse_spec (hp : 1 < p) {a : ℤ} (hcoprime : a.gcd p = 1) :
    (∀ r : ℤ, 0 ≤ r ∧ r < p ∧ a * r ≡ 1 [ZMOD p] ↔ r = modInverse a p) ∧
      extendedGcdWithin (2 * p.size + 1) (a % p).toNat p = some (extendedGcd (a % p).toNat p) := by
  have hpos : (0 : ℤ) < p := by omega
  have hinverse := mul_modInverse (Nat.zero_lt_of_lt hp) a
  rw [hcoprime, Nat.cast_one] at hinverse
  constructor
  · intro r
    constructor
    · rintro ⟨hlow, hhigh, hr⟩
      have hcast : (a : ZMod p) * r = 1 := by
        exact_mod_cast (ZMod.intCast_eq_intCast_iff _ _ _).mpr hr
      have hsame : (r : ZMod p) = modInverse a p := by
        calc (r : ZMod p) = (a * modInverse a p) * r := by rw [hinverse, one_mul]
          _ = (a * r) * modInverse a p := by ring
          _ = modInverse a p := by rw [hcast, one_mul]
      have hemod := (ZMod.intCast_eq_intCast_iff _ _ _).mp hsame
      rw [Int.ModEq, Int.emod_eq_of_lt hlow hhigh] at hemod
      rw [hemod]
      exact Int.emod_emod_of_dvd _ dvd_rfl
    · rintro rfl
      refine ⟨Int.emod_nonneg _ hpos.ne', Int.emod_lt_of_pos _ hpos, ?_⟩
      exact (ZMod.intCast_eq_intCast_iff _ _ _).mp (by exact_mod_cast hinverse)
  · have hsize : (a % p).toNat < 2 ^ p.size := by
      have hlt := Int.emod_lt_of_pos a hpos
      have hbits := p.lt_size_self
      omega
    exact extendedGcdWithin_eq hsize (Nat.lt_succ_self _) p

theorem modInverse_spec_negative :
    (∀ r : ℤ, 0 ≤ r ∧ r < 7 ∧ -3 * r ≡ 1 [ZMOD 7] ↔ r = modInverse (-3) 7) ∧
      extendedGcdWithin (2 * Nat.size 7 + 1) 4 7 = some (extendedGcd 4 7) :=
  modInverse_spec (by decide) (by decide)

/-! ## Polynomial evaluation -/

/-- `_evaluate_polynomial(coefficients, x, prime)`. -/
def evaluatePolynomial (coefficients : List ℤ) (x : ℤ) (prime : ℕ) : ℤ :=
  coefficients.zipIdx.foldl (fun result term => (result + term.1 * (x ^ term.2 % prime)) % prime) 0

theorem cast_evaluatePolynomial (p : ℕ) [Fact p.Prime] (coefficients : List ℤ) (x : ℤ) :
    (evaluatePolynomial coefficients x p : ZMod p)
      = (polyOf (coefficients.map (Int.cast : ℤ → ZMod p))).eval (x : ZMod p) := by
  have hsum := sum_zipIdx_eq_eval (coefficients.map (Int.cast : ℤ → ZMod p)) (x : ZMod p) 0
  rw [pow_zero, one_mul, zipIdx_map, map_map] at hsum
  rw [evaluatePolynomial, cast_foldl_add_emod, Int.cast_zero, zero_add, ← hsum]
  congr 1
  refine map_congr_left fun term _ => ?_
  simp

/-- A loop whose last operation reduces modulo `p` leaves a residue. -/
private theorem foldl_emod_mem {ι : Type*} {p : ℕ} (hp : 0 < p) (step : ℤ → ι → ℤ) (l : List ι)
    (start : ℤ) (hstart : 0 ≤ start ∧ start < p) :
    0 ≤ l.foldl (fun acc i => step acc i % p) start ∧
      l.foldl (fun acc i => step acc i % p) start < p := by
  have hp' : (0 : ℤ) < p := by exact_mod_cast hp
  induction l generalizing start with
  | nil => exact hstart
  | cons i l ih =>
    exact ih _ ⟨Int.emod_nonneg _ hp'.ne', Int.emod_lt_of_pos _ hp'⟩

theorem evaluatePolynomial_mem (hp : 0 < p) (coefficients : List ℤ) (x : ℤ) :
    0 ≤ evaluatePolynomial coefficients x p ∧ evaluatePolynomial coefficients x p < p :=
  foldl_emod_mem hp (fun result (term : ℤ × ℕ) => result + term.1 * (x ^ term.2 % p)) _ 0
    ⟨le_rfl, by exact_mod_cast hp⟩

/-! ## Interpolation -/

/-- The inner loop of `_lagrange_interpolation`: the numerator and denominator
of the `i`-th coefficient. -/
def lagrangeFraction (shares : List (ℤ × ℤ)) (prime : ℕ) (i : ℕ) : ℤ × ℤ :=
  let xi := (shares.getD i (0, 0)).1
  (List.range shares.length).foldl (fun acc j =>
      if i ≠ j then
        let xj := (shares.getD j (0, 0)).1
        (acc.1 * (-xj) % prime, acc.2 * (xi - xj) % prime)
      else acc) (1, 1)

/-- `_lagrange_interpolation(shares, prime)`. -/
def lagrangeInterpolation (shares : List (ℤ × ℤ)) (prime : ℕ) : ℤ :=
  (List.range shares.length).foldl (fun secret i =>
      let yi := (shares.getD i (0, 0)).2
      let (numerator, denominator) := lagrangeFraction shares prime i
      let lagrangeCoeff := numerator * modInverse denominator prime % prime
      (secret + yi * lagrangeCoeff) % prime) 0

/-- The two components of a loop over pairs run independently. -/
private theorem foldl_pair {ι : Type*} (test : ι → Prop) [DecidablePred test] (f g : ℤ → ι → ℤ)
    (l : List ι) (start : ℤ × ℤ) :
    l.foldl (fun acc i => if test i then (f acc.1 i, g acc.2 i) else acc) start
      = (l.foldl (fun acc i => if test i then f acc i else acc) start.1,
         l.foldl (fun acc i => if test i then g acc i else acc) start.2) := by
  induction l generalizing start with
  | nil => rfl
  | cons i l ih =>
    rw [foldl_cons, foldl_cons, foldl_cons, ih]
    by_cases htest : test i <;> simp [htest]

/-- A product over a range that skips `i`, as the loops write it. -/
private theorem prod_map_range_ite {F : Type*} [CommMonoid F] (n i : ℕ) (f : ℕ → F) :
    ((List.range n).map fun j => if i ≠ j then f j else 1).prod
      = ∏ j ∈ (Finset.range n).erase i, f j := by
  have herase := Finset.prod_erase (Finset.range n) (f := fun j => if i ≠ j then f j else 1)
    (a := i) (by simp)
  have hlist : ((List.range n).map fun j => if i ≠ j then f j else 1).prod
      = ∏ j ∈ Finset.range n, if i ≠ j then f j else 1 := rfl
  rw [hlist, ← herase]
  refine Finset.prod_congr rfl fun j hj => ?_
  rw [if_pos (Finset.ne_of_mem_erase hj).symm]

/-- `_lagrange_interpolation` computes the Lagrange formula at zero. -/
theorem cast_lagrangeInterpolation (p : ℕ) [Fact p.Prime] (shares : List (ℤ × ℤ)) :
    (lagrangeInterpolation shares p : ZMod p)
      = interpolateZero (shares.map fun s => ((s.1 : ZMod p), (s.2 : ZMod p))) := by
  have hget : ∀ i, (shares.map fun s => ((s.1 : ZMod p), (s.2 : ZMod p))).getD i (0, 0)
      = (((shares.getD i (0, 0)).1 : ZMod p), ((shares.getD i (0, 0)).2 : ZMod p)) := by
    intro i
    rw [getD_eq_getElem?_getD, getD_eq_getElem?_getD, List.getElem?_map]
    cases shares[i]? with
    | none => simp
    | some s => rfl
  have hfraction : ∀ i, ((lagrangeFraction shares p i).1 : ZMod p)
        = ∏ j ∈ (Finset.range shares.length).erase i, -((shares.getD j (0, 0)).1 : ZMod p) ∧
      ((lagrangeFraction shares p i).2 : ZMod p)
        = ∏ j ∈ (Finset.range shares.length).erase i,
            (((shares.getD i (0, 0)).1 : ZMod p) - ((shares.getD j (0, 0)).1 : ZMod p)) := by
    intro i
    rw [lagrangeFraction, foldl_pair (fun j => i ≠ j)
      (fun acc j => acc * (-(shares.getD j (0, 0)).1) % p)
      (fun acc j => acc * ((shares.getD i (0, 0)).1 - (shares.getD j (0, 0)).1) % p)]
    constructor
    · rw [cast_foldl_mul_emod, prod_map_range_ite]
      simp
    · rw [cast_foldl_mul_emod, prod_map_range_ite]
      simp
  rw [lagrangeInterpolation, cast_foldl_add_emod p
    (fun i => (shares.getD i (0, 0)).2 * ((lagrangeFraction shares p i).1
      * modInverse (lagrangeFraction shares p i).2 p % p)), interpolateZero, Int.cast_zero,
    zero_add, length_map]
  change ∑ i ∈ Finset.range shares.length, _ = _
  refine Finset.sum_congr rfl fun i _ => ?_
  simp only [hget]
  push_cast
  rw [cast_modInverse, (hfraction i).1, (hfraction i).2]

theorem lagrangeInterpolation_mem (hp : 0 < p) (shares : List (ℤ × ℤ)) :
    0 ≤ lagrangeInterpolation shares p ∧ lagrangeInterpolation shares p < p :=
  foldl_emod_mem hp (fun secret i => secret + (shares.getD i (0, 0)).2 *
    ((lagrangeFraction shares p i).1 * modInverse (lagrangeFraction shares p i).2 p % p)) _ 0
    ⟨le_rfl, by exact_mod_cast hp⟩

/-- Residues with one image in `ZMod p` are equal. -/
theorem eq_of_cast_eq {a b : ℤ} (ha : 0 ≤ a ∧ a < p) (hb : 0 ≤ b ∧ b < p)
    (hcast : (a : ZMod p) = (b : ZMod p)) : a = b := by
  have hmod : a % p = b % p := (ZMod.intCast_eq_intCast_iff' a b p).mp hcast
  rwa [Int.emod_eq_of_lt ha.1 ha.2, Int.emod_eq_of_lt hb.1 hb.2] at hmod

/-- **Enough points recover the constant coefficient.**  Points of one
polynomial at distinct abscissae below `p`, at least as many as the polynomial
has coefficients, interpolate to its constant coefficient. -/
theorem lagrangeInterpolation_evaluatePolynomial (p : ℕ) [Fact p.Prime] (secret : ℤ)
    (hsecret : 0 ≤ secret ∧ secret < p) (rest : List ℤ) (xs : List ℤ)
    (hxs : ∀ x ∈ xs, 0 ≤ x ∧ x < p) (hdistinct : xs.Nodup)
    (henough : (secret :: rest).length ≤ xs.length) :
    lagrangeInterpolation (xs.map fun x => (x, evaluatePolynomial (secret :: rest) x p)) p
      = secret := by
  refine eq_of_cast_eq (lagrangeInterpolation_mem (Fact.out : p.Prime).pos _) hsecret ?_
  rw [cast_lagrangeInterpolation, map_map]
  set f := polyOf ((secret :: rest).map (Int.cast : ℤ → ZMod p)) with hf
  rw [interpolateZero_eq f]
  · rw [hf, map_cons, eval_zero_polyOf_cons]
  · rw [map_map]
    refine (nodup_map_iff_inj_on hdistinct).mpr fun x hx y hy hxy => ?_
    exact eq_of_cast_eq (hxs x hx) (hxs y hy) hxy
  · intro pt hpt
    obtain ⟨x, -, rfl⟩ := mem_map.mp hpt
    exact cast_evaluatePolynomial p (secret :: rest) x
  · refine lt_of_lt_of_le (degree_polyOf_lt _) ?_
    rw [length_map, length_map]
    exact_mod_cast henough

end TrustFlow.SecretSharing
