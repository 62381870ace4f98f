import Mathlib.LinearAlgebra.Lagrange
import Mathlib.Data.ZMod.Basic

/-!
# Interpolation at zero and vanishing masks

The field side of threshold secret sharing, over an arbitrary field `F`.

* `polyOf cs` — the polynomial with coefficient list `cs`, lowest degree first.
* `interpolateZero pts` — the Lagrange formula for the value at `0` of the
  polynomial through the points `pts`.
* `interpolateZero_eq` — the formula returns `f.eval 0` for every `f` of degree
  below the number of points, whatever their order.
* `exists_mask` — a polynomial of degree at most `k` with prescribed value at
  `0` that vanishes at up to `k` given nonzero points: adding it to a sharing
  polynomial changes the secret and nothing the holders of those points see.

The last section transports accumulating loops, which reduce modulo `p` after
every step, to sums and products in `ZMod p`.
-/

namespace TrustFlow.Library

open List

open Polynomial

section Field

variable {F : Type*} [Field F]

/-! ## Polynomials from coefficient lists -/

/-- The polynomial with the coefficients `cs`, lowest degree first. -/
noncomputable def polyOf : List F → F[X]
  | [] => 0
  | c :: cs => C c + X * polyOf cs

theorem eval_zero_polyOf_cons (c : F) (cs : List F) : (polyOf (c :: cs)).eval 0 = c := by
  simp [polyOf]

theorem degree_polyOf_lt (cs : List F) : (polyOf cs).degree < cs.length := by
  induction cs with
  | nil => simp [polyOf]
  | cons c cs ih =>
    rw [degree_lt_iff_coeff_zero] at ih ⊢
    intro exponent hexponent
    obtain ⟨lower, rfl⟩ := Nat.exists_eq_add_of_lt
      (lt_of_lt_of_le (Nat.succ_pos cs.length) hexponent)
    have hlower : cs.length ≤ 0 + lower := by simpa using hexponent
    rw [polyOf, coeff_add, coeff_X_mul, ih _ hlower, coeff_C_succ, add_zero]

/-- Evaluation is the sum of the terms of the coefficient list, counted from
any starting exponent. -/
theorem sum_zipIdx_eq_eval (cs : List F) (x : F) (start : ℕ) :
    ((cs.zipIdx start).map fun term => term.1 * x ^ term.2).sum
      = x ^ start * (polyOf cs).eval x := by
  induction cs generalizing start with
  | nil => simp [polyOf]
  | cons c cs ih =>
    rw [zipIdx_cons, map_cons, sum_cons, ih (start + 1)]
    simp [polyOf]
    ring

/-- Coefficientwise addition of lists of one length adds the polynomials. -/
theorem polyOf_zipWith_add {cs ds : List F} (hlen : cs.length = ds.length) :
    polyOf (List.zipWith (· + ·) cs ds) = polyOf cs + polyOf ds := by
  induction cs generalizing ds with
  | nil =>
    obtain rfl : ds = [] := length_eq_zero_iff.mp hlen.symm
    simp [polyOf]
  | cons c cs ih =>
    cases ds with
    | nil => simp at hlen
    | cons d ds =>
      rw [zipWith_cons_cons, polyOf, polyOf, polyOf, ih (by simpa using hlen), C_add]
      ring

/-- Every polynomial of degree below `k` has a coefficient list of length `k`. -/
theorem exists_polyOf_eq (k : ℕ) (f : F[X]) (hf : f.degree < k) :
    ∃ cs : List F, cs.length = k ∧ polyOf cs = f := by
  induction k generalizing f with
  | zero =>
    have hzero : f = 0 := by
      rw [← degree_eq_bot]
      exact (Nat.WithBot.lt_zero_iff).mp (by simpa using hf)
    exact ⟨[], rfl, by simp [polyOf, hzero]⟩
  | succ k ih =>
    have hdiv : f.divX.degree < k := by
      by_cases hdivX : f.divX = 0
      · rw [hdivX, degree_zero]
        exact WithBot.bot_lt_coe _
      · have hne : f ≠ 0 := fun h => hdivX (by rw [h, divX_zero])
        have hlt : f.natDegree < k + 1 := by
          rw [degree_eq_natDegree hne] at hf
          exact_mod_cast hf
        have hpos : f.natDegree ≠ 0 := fun h => hdivX (divX_eq_zero_iff.mpr
          (eq_C_of_natDegree_eq_zero h))
        rw [degree_eq_natDegree hdivX, natDegree_divX_eq_natDegree_tsub_one]
        exact_mod_cast (by omega : f.natDegree - 1 < k)
    obtain ⟨cs, hlen, hcs⟩ := ih f.divX hdiv
    refine ⟨f.coeff 0 :: cs, by rw [length_cons, hlen], ?_⟩
    rw [polyOf, hcs, add_comm, mul_comm]
    exact divX_mul_X_add f

/-! ## The value at zero -/

/-- The Lagrange formula at `0` for the points `pts`. -/
def interpolateZero (pts : List (F × F)) : F :=
  ∑ i ∈ Finset.range pts.length, (pts.getD i (0, 0)).2 *
    ((∏ j ∈ (Finset.range pts.length).erase i, -(pts.getD j (0, 0)).1) *
      (∏ j ∈ (Finset.range pts.length).erase i, ((pts.getD i (0, 0)).1 - (pts.getD j (0, 0)).1))⁻¹)

/-- **Interpolation at zero.**  Points with distinct first coordinates on the
graph of `f`, more of them than the degree of `f`, determine `f.eval 0`. -/
theorem interpolateZero_eq (f : F[X]) (pts : List (F × F))
    (hdistinct : (pts.map Prod.fst).Nodup) (hgraph : ∀ pt ∈ pts, pt.2 = f.eval pt.1)
    (hdegree : f.degree < pts.length) : interpolateZero pts = f.eval 0 := by
  classical
  set nodes : ℕ → F := fun i => (pts.getD i (0, 0)).1 with hnodes
  have hget : ∀ i < pts.length, pts[i]? = some (pts.getD i (0, 0)) := by
    intro i hi
    simp [List.getElem?_eq_getElem hi]
  have hinj : Set.InjOn nodes (Finset.range pts.length) := by
    intro i hi j hj hij
    have hi' : i < pts.length := by simpa using hi
    have hj' : j < pts.length := by simpa using hj
    refine (List.getElem?_inj (by simpa using hi') hdistinct).mp ?_
    rw [List.getElem?_map, List.getElem?_map, hget i hi', hget j hj']
    exact congrArg some hij
  have hinterp := Lagrange.eq_interpolate_of_eval_eq
    (fun i => (pts.getD i (0, 0)).2) hinj (by simpa using hdegree)
    (fun i hi => (hgraph _ (mem_of_getElem? (hget i (Finset.mem_range.mp hi)))).symm)
  rw [hinterp, Lagrange.interpolate_apply, eval_finsetSum]
  refine Finset.sum_congr rfl fun i _ => ?_
  rw [eval_mul, eval_C, Lagrange.basis, eval_prod, ← Finset.prod_inv_distrib,
    ← Finset.prod_mul_distrib]
  congr 1
  refine Finset.prod_congr rfl fun j _ => ?_
  simp [Lagrange.basisDivisor, hnodes, mul_comm]

/-! ## Vanishing masks -/

/-- **Masks.**  For at most `k` nonzero points and any `d` there are `k`
coefficients which, put after the constant coefficient `d`, give a polynomial
that vanishes at all the points. -/
theorem exists_mask (points : Finset F) (k : ℕ) (hcard : points.card ≤ k)
    (hnonzero : (0 : F) ∉ points) (d : F) :
    ∃ cs : List F, cs.length = k ∧ ∀ x ∈ points, (polyOf (d :: cs)).eval x = 0 := by
  set mask : F[X] := C (d * (∏ x ∈ points, -x)⁻¹) * Lagrange.nodal points id with hmask
  have hprod : (∏ x ∈ points, -x) ≠ 0 := by
    refine Finset.prod_ne_zero_iff.mpr fun x hx => ?_
    rw [neg_ne_zero]
    rintro rfl
    exact hnonzero hx
  have hzero : mask.eval 0 = d := by
    rw [hmask, eval_mul, eval_C, Lagrange.eval_nodal]
    simp only [id, zero_sub]
    rw [mul_assoc, inv_mul_cancel₀ hprod, mul_one]
  have hdegree : mask.degree < (k + 1 : ℕ) := by
    calc mask.degree ≤ (Lagrange.nodal points id).degree := by
          rw [hmask, ← smul_eq_C_mul]
          exact degree_smul_le _ _
      _ = points.card := Lagrange.degree_nodal
      _ < (k + 1 : ℕ) := by exact_mod_cast Nat.lt_succ_of_le hcard
  obtain ⟨cs, hlen, hcs⟩ := exists_polyOf_eq (k + 1) mask hdegree
  cases cs with
  | nil => simp at hlen
  | cons c cs =>
    have hc : c = d := by rw [← eval_zero_polyOf_cons c cs, hcs, hzero]
    refine ⟨cs, by simpa using hlen, fun x hx => ?_⟩
    have hnode : (Lagrange.nodal points id).eval x = 0 :=
      Lagrange.eval_nodal_at_node (v := id) hx
    rw [← hc, hcs, hmask, eval_mul, hnode, mul_zero]

end Field

/-! ## Loops that reduce modulo `p` -/

section Loops

variable {ι : Type*} (p : ℕ)

/-- A sum accumulated modulo `p` is the sum in `ZMod p`. -/
theorem cast_foldl_add_emod (term : ι → ℤ) (l : List ι) (start : ℤ) :
    ((l.foldl (fun acc i => (acc + term i) % p) start : ℤ) : ZMod p)
      = start + (l.map fun i => (term i : ZMod p)).sum := by
  induction l generalizing start with
  | nil => simp
  | cons i l ih => rw [foldl_cons, ih, map_cons, sum_cons]; simp [add_assoc]

/-- A product accumulated modulo `p`, over the loop indices that pass a test,
is the product in `ZMod p`. -/
theorem cast_foldl_mul_emod (test : ι → Prop) [DecidablePred test] (factor : ι → ℤ) (l : List ι)
    (start : ℤ) :
    ((l.foldl (fun acc i => if test i then (acc * factor i) % p else acc) start : ℤ) : ZMod p)
      = start * (l.map fun i => if test i then (factor i : ZMod p) else 1).prod := by
  induction l generalizing start with
  | nil => simp
  | cons i l ih =>
    rw [foldl_cons, ih, map_cons, prod_cons]
    by_cases htest : test i <;> simp [htest, mul_assoc]

end Loops

end TrustFlow.Library
