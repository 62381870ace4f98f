import Mathlib.NumberTheory.LucasPrimality
import Mathlib.Tactic.NormNum.Prime

/-!
# Pratt certificates by kernel evaluation

`lucas_primality` reduces the primality of `p` to modular powers of one base,
one for each prime factor of `p - 1`.  For a 256-bit `p` those powers cannot be
computed in `ZMod p` directly, so this module evaluates them by repeated
squaring on `ℕ` (`powMod`) and transports the answers back.

* `powMod` — `a ^ e % m`, by structural recursion on a bit budget.
* `Certifies` — the numerical conditions of a certificate: a base and the factor
  list of `p - 1`.
* `prime_of_pratt` — the certificate rule: with prime factors they make `p` prime.

The certificates themselves are data; a caller supplies one factor list per
prime and has the kernel evaluate the conditions.
-/

namespace TrustFlow.Library

/-- `a ^ e % m` by repeated squaring, for exponents below `2 ^ fuel`. -/
def powMod (m a : ℕ) : ℕ → ℕ → ℕ
  | 0, _ => 1 % m
  | fuel + 1, e =>
    let half := powMod m a fuel (e / 2)
    if e % 2 = 1 then half * half % m * a % m else half * half % m

/-- Repeated squaring computes the power in `ZMod m`. -/
theorem powMod_cast (m a : ℕ) :
    ∀ fuel e : ℕ, e < 2 ^ fuel → (powMod m a fuel e : ZMod m) = (a : ZMod m) ^ e := by
  intro fuel
  induction fuel with
  | zero =>
    intro e he
    obtain rfl : e = 0 := by simpa using he
    simp [powMod]
  | succ fuel ih =>
    intro e he
    have hhalf := ih (e / 2) (by rw [pow_succ] at he; omega)
    rcases Nat.mod_two_eq_zero_or_one e with hpar | hpar
    · have hsplit : e = e / 2 + e / 2 := by omega
      conv_rhs => rw [hsplit, pow_add]
      simp [powMod, hpar, ZMod.natCast_mod, hhalf]
    · have hsplit : e = e / 2 + e / 2 + 1 := by omega
      conv_rhs => rw [hsplit, pow_succ, pow_add]
      simp [powMod, hpar, ZMod.natCast_mod, hhalf]

/-- Every computed power is a residue. -/
theorem powMod_lt {m : ℕ} (hm : 0 < m) (a fuel e : ℕ) : powMod m a fuel e < m := by
  cases fuel with
  | zero => exact Nat.mod_lt _ hm
  | succ fuel =>
    unfold powMod
    dsimp only
    split <;> exact Nat.mod_lt _ hm

/-- A computed power other than `1` is a power other than `1` in `ZMod m`. -/
theorem pow_ne_one_of_powMod {m a fuel e : ℕ} (hm : 1 < m) (he : e < 2 ^ fuel)
    (hne : powMod m a fuel e ≠ 1) : (a : ZMod m) ^ e ≠ 1 := by
  intro hpow
  rw [← powMod_cast m a fuel e he] at hpow
  have hmod : powMod m a fuel e % m = 1 % m :=
    (ZMod.natCast_eq_natCast_iff' _ 1 m).mp (by simpa using hpow)
  rw [Nat.mod_eq_of_lt (powMod_lt (by omega) a fuel e), Nat.mod_eq_of_lt hm] at hmod
  exact hne hmod

/-- The base and the factors certify the number: `a ^ (p - 1) = 1` modulo `p`, no
`a ^ ((p - 1) / q)` is `1`, and the factors have the product `p - 1`. -/
def Certifies (p a fuel : ℕ) (factors : List ℕ) : Prop :=
  1 < p ∧ factors.prod = p - 1 ∧ p < 2 ^ fuel ∧ powMod p a fuel (p - 1) = 1 ∧
    ∀ q ∈ factors, powMod p a fuel ((p - 1) / q) ≠ 1

instance (p a fuel : ℕ) (factors : List ℕ) : Decidable (Certifies p a fuel factors) :=
  inferInstanceAs (Decidable (_ ∧ _))

/-- **Pratt's certificate**: a number with certified prime factors is prime. -/
theorem prime_of_pratt {p a fuel : ℕ} {factors : List ℕ} (h : Certifies p a fuel factors)
    (hprime : ∀ q ∈ factors, q.Prime) : p.Prime := by
  obtain ⟨hp, hprod, hfuel, hone, hord⟩ := h
  refine lucas_primality p (a : ZMod p) ?_ ?_
  · rw [← powMod_cast p a fuel (p - 1) (by omega), hone, Nat.cast_one]
  · intro q hq hdvd
    have hmem : q ∈ factors := by
      obtain ⟨r, hr, hqr⟩ :=
        (Nat.prime_iff.mp hq).dvd_prod_iff.mp (hprod ▸ hdvd : q ∣ factors.prod)
      rwa [(Nat.prime_dvd_prime_iff_eq hq (hprime r hr)).mp hqr]
    have hbound : (p - 1) / q < 2 ^ fuel :=
      lt_of_le_of_lt (Nat.div_le_self _ _) (by omega)
    exact pow_ne_one_of_powMod hp hbound (hord q hmem)

end TrustFlow.Library
