import TrustFlow.SecretSharing.Shares

/-!
# Secrecy below the threshold

Fewer than `k` share values say nothing about the shared bytes, as a statement
about two runs: for any two secrets with the same number of chunks the
coefficient choices are matched one to one so that matched runs show the same
values at the observed indices.

The matching adds, chunk by chunk, the coefficients of a mask (`exists_mask`)
that moves the constant coefficient from one secret to the other and vanishes
at the observed indices.

* `Choice m k` — the random coefficients of `m` chunks at threshold `k`.
* `Coins.withCoefficients` — random choices with these coefficients.
* `shareValues_secrecy` — **perfect secrecy** of at most `k - 1` shares.
-/

namespace TrustFlow.SecretSharing

open Library List

/-! ## Coefficient choices -/

/-- The coefficients drawn for `m` chunks at threshold `k`: `k - 1` residues
for each chunk. -/
abbrev Choice (m : ℕ) (k : ℤ) : Type := Fin m → Fin (k - 1).toNat → Fin PRIME

/-- The coins `base` with the coefficients of the first `m` chunks replaced. -/
def Coins.withCoefficients (base : Coins) {m : ℕ} {k : ℤ} (choice : Choice m k) : Coins :=
  { base with
    coefficient := fun chunkIdx j =>
      if h : chunkIdx < m ∧ j < (k - 1).toNat then choice ⟨chunkIdx, h.1⟩ ⟨j, h.2⟩
      else base.coefficient chunkIdx j }

variable {k n : ℤ} {observed : Finset ℤ}

theorem Coins.coefficient_withCoefficients (base : Coins) {m : ℕ} (choice : Choice m k)
    {chunkIdx j : ℕ} (hchunk : chunkIdx < m) (hj : j < (k - 1).toNat) :
    (base.withCoefficients choice).coefficient chunkIdx j = choice ⟨chunkIdx, hchunk⟩ ⟨j, hj⟩ :=
  dif_pos ⟨hchunk, hj⟩

/-- The values of the shares of a byte string: what `split_secret` does between
`_split_into_chunks` and the construction of the `Share` objects. -/
def shareValues (coins : Coins) (threshold numShares : ℤ) (secretBytes : Bytes) :
    Except ShareError (List Str) := do
  let chunks ← splitIntoChunks secretBytes
  return (List.range numShares.toNat).map
    (combinedValue (allSharesData coins threshold numShares chunks))

/-- The values of a split are those of its shared bytes. -/
theorem shareValues_sharedBytes (aes : AesGcm) (coins : Coins) (content : Str)
    {threshold numShares : ℤ} (hthreshold : 2 ≤ threshold) (hnum : threshold ≤ numShares) :
    (splitSecret aes coins content threshold numShares).map (fun result => result.1.map Share.value)
      = shareValues coins threshold numShares (sharedBytes coins content) := by
  obtain ⟨chunks, hchunks, -⟩ := splitIntoChunks_spec (length_sharedBytes coins content)
  rw [splitSecret_eq aes coins content hthreshold hnum hchunks, shareValues, hchunks]
  simp only [Except.map, ok_bind, pure_eq_ok, map_map]
  refine congrArg Except.ok (map_congr_left fun i hi => ?_)
  exact (combinedValue_allSharesData coins threshold numShares chunks (mem_range.mp hi)).symm

/-! ## Residues -/

/-- The residues below `PRIME` are the field. -/
def residueEquiv : Fin PRIME ≃ ZMod PRIME where
  toFun a := ((a : ℕ) : ZMod PRIME)
  invFun z := ⟨z.val, ZMod.val_lt z⟩
  left_inv a := Fin.ext (ZMod.val_cast_of_lt a.isLt)
  right_inv z := ZMod.natCast_zmod_val z

/-- Translation of a residue by a field element. -/
def translate (z : ZMod PRIME) : Fin PRIME ≃ Fin PRIME :=
  (residueEquiv.trans (Equiv.addRight z)).trans residueEquiv.symm

theorem cast_translate (z : ZMod PRIME) (a : Fin PRIME) :
    ((translate z a : ℕ) : ZMod PRIME) = ((a : ℕ) : ZMod PRIME) + z := by
  show residueEquiv (residueEquiv.symm (residueEquiv a + z)) = residueEquiv a + z
  exact residueEquiv.apply_symm_apply _

/-! ## The mask of one chunk -/

section

variable (hn : n < PRIME) (hobserved : ∀ x ∈ observed, 1 ≤ x ∧ x ≤ n)
include hn hobserved

/-- Indices between `1` and `n < PRIME` are distinct nonzero field elements. -/
theorem observed_image :
    (observed.image (Int.cast : ℤ → ZMod PRIME)).card ≤ observed.card ∧
      (0 : ZMod PRIME) ∉ observed.image (Int.cast : ℤ → ZMod PRIME) := by
  refine ⟨Finset.card_image_le, fun hzero => ?_⟩
  obtain ⟨x, hx, hcast⟩ := Finset.mem_image.mp hzero
  obtain ⟨hlow, hhigh⟩ := hobserved x hx
  have hx0 : x = 0 := eq_of_cast_eq (p := PRIME) ⟨by omega, by omega⟩
    ⟨le_rfl, by exact_mod_cast PRIME_pos⟩ (by simpa using hcast)
  omega

/-- **The mask of one chunk.**  Moving the constant coefficient from `secret₁`
to `secret₂` and translating the others by a suitable mask leaves the values at
the observed indices as they were. -/
theorem exists_chunk_mask (hcard : (observed.card : ℤ) ≤ k - 1) (secret₁ secret₂ : ℤ) :
    ∃ mask : ℕ → ZMod PRIME, ∀ coefficient : ℕ → Fin PRIME, ∀ x ∈ observed,
      evaluatePolynomial (secret₁ :: (List.range (k - 1).toNat).map
          fun j => ((coefficient j : ℕ) : ℤ)) x PRIME
        = evaluatePolynomial (secret₂ :: (List.range (k - 1).toNat).map
          fun j => ((translate (mask j) (coefficient j) : ℕ) : ℤ)) x PRIME := by
  obtain ⟨himage, hzero⟩ := observed_image hn hobserved
  obtain ⟨cs, hlen, hvanish⟩ := exists_mask (observed.image (Int.cast : ℤ → ZMod PRIME))
    (k - 1).toNat (by omega) hzero ((secret₂ : ZMod PRIME) - secret₁)
  refine ⟨fun j => cs.getD j 0, fun coefficient x hx => ?_⟩
  refine eq_of_cast_eq (evaluatePolynomial_mem PRIME_pos _ x)
    (evaluatePolynomial_mem PRIME_pos _ x) ?_
  rw [cast_evaluatePolynomial, cast_evaluatePolynomial]
  set before := (List.range (k - 1).toNat).map fun j => ((coefficient j : ℕ) : ZMod PRIME)
    with hbefore
  have hsum : ((secret₂ :: (List.range (k - 1).toNat).map
        fun j => ((translate (cs.getD j 0) (coefficient j) : ℕ) : ℤ)).map
          (Int.cast : ℤ → ZMod PRIME))
      = List.zipWith (· + ·) ((secret₁ : ZMod PRIME) :: before)
          (((secret₂ : ZMod PRIME) - secret₁) :: cs) := by
    rw [map_cons, zipWith_cons_cons, add_sub_cancel, map_map]
    congr 1
    apply ext_getElem (by simp [hbefore, hlen])
    intro j hleft hright
    have hj : j < cs.length := by simpa [hlen] using hleft
    simp [hbefore, cast_translate, hj]
  rw [hsum, polyOf_zipWith_add (by simp [hbefore, hlen]), Polynomial.eval_add,
    hvanish _ (Finset.mem_image_of_mem _ hx), add_zero]
  simp [hbefore, Function.comp_def]

/-! ## All chunks -/

/-- The matching of the coefficient choices for two lists of chunks. -/
theorem exists_choice_equiv (hcard : (observed.card : ℤ) ≤ k - 1) (chunks₁ chunks₂ : List Bytes)
    (hsame : chunks₁.length = chunks₂.length) (base₁ base₂ : Coins) :
    ∃ matching : Choice chunks₁.length k ≃ Choice chunks₁.length k, ∀ choice, ∀ x ∈ observed,
      shareValue (base₁.withCoefficients choice) k chunks₁ x
        = shareValue (base₂.withCoefficients (matching choice)) k chunks₂ x := by
  choose mask hmask using fun i : ℕ => exists_chunk_mask hn hobserved hcard
    (fromBytesBE (chunks₁.getD i [])) (fromBytesBE (chunks₂.getD i []))
  refine ⟨Equiv.piCongrRight fun i => Equiv.piCongrRight fun j => translate (mask i j),
    fun choice x hx => ?_⟩
  rw [shareValue, shareValue]
  congr 1
  apply ext_getElem (by simp [hsame])
  intro i hleft hright
  have hi₁ : i < chunks₁.length := by simpa using hleft
  have hi₂ : i < chunks₂.length := hsame ▸ hi₁
  have heval := hmask i ((base₁.withCoefficients choice).coefficient i) x hx
  simp only [getD_eq_getElem?_getD, List.getElem?_eq_getElem hi₁,
    List.getElem?_eq_getElem hi₂, Option.getD_some] at heval
  simp only [getElem_map, getElem_zipIdx, Nat.zero_add, chunkCoefficients]
  rw [heval]
  congr 3
  refine map_congr_left fun j hj => ?_
  have hj' : j < (k - 1).toNat := mem_range.mp hj
  rw [Coins.coefficient_withCoefficients base₁ choice hi₁ hj',
    Coins.coefficient_withCoefficients base₂ _ hi₁ hj']
  rfl

end

/-- The value of the share with index `x` in a list of values for `1, 2, …`. -/
def valueAt (values : Except ShareError (List Str)) (x : ℤ) : Option Str :=
  match values with
  | .error _ => none
  | .ok values => values[(x - 1).toNat]?

theorem valueAt_shareValues (coins : Coins) {threshold numShares : ℤ} {secretBytes : Bytes}
    {chunks : List Bytes} (hchunks : splitIntoChunks secretBytes = .ok chunks) {x : ℤ}
    (hlow : 1 ≤ x) (hhigh : x ≤ numShares) :
    valueAt (shareValues coins threshold numShares secretBytes) x
      = some (shareValue coins threshold chunks x) := by
  have hpos : (x - 1).toNat < numShares.toNat := by omega
  have hvalues : shareValues coins threshold numShares secretBytes
      = .ok ((List.range numShares.toNat).map
          (combinedValue (allSharesData coins threshold numShares chunks))) := by
    rw [shareValues, hchunks]
    rfl
  rw [hvalues, valueAt, List.getElem?_map, List.getElem?_range hpos, Option.map_some,
    combinedValue_allSharesData coins threshold numShares chunks hpos]
  congr 2
  omega

/-- **Perfect secrecy below the threshold.**  Take `k ≥ 2`, `n < PRIME`, at most
`k - 1` observed indices and two byte strings that split into equally many
chunks.  There is a bijection of the coefficient choices under which the values
at the observed indices are the same for both; so every view arises from
equally many choices whichever secret is shared.  The last part says the same
of the shares `split_secret` returns for contents with these shared bytes. -/
theorem shareValues_secrecy (k n : ℤ) (hk : 2 ≤ k) (hn : n < PRIME) (base₁ base₂ : Coins)
    (secret₁ secret₂ : Bytes) (chunks₁ chunks₂ : List Bytes)
    (hchunks₁ : splitIntoChunks secret₁ = .ok chunks₁)
    (hchunks₂ : splitIntoChunks secret₂ = .ok chunks₂)
    (hsame : chunks₁.length = chunks₂.length) (observed : Finset ℤ)
    (hobserved : ∀ x ∈ observed, 1 ≤ x ∧ x ≤ n) (hcard : (observed.card : ℤ) ≤ k - 1) :
    ∃ matching : Choice chunks₁.length k ≃ Choice chunks₁.length k,
      (∀ choice, ∀ x ∈ observed,
        (valueAt (shareValues (base₁.withCoefficients choice) k n secret₁) x).isSome ∧
        valueAt (shareValues (base₁.withCoefficients choice) k n secret₁) x
          = valueAt (shareValues (base₂.withCoefficients (matching choice)) k n secret₂) x) ∧
      (∀ view : ℤ → Option Str,
        Nat.card {choice : Choice chunks₁.length k // ∀ x ∈ observed,
            valueAt (shareValues (base₁.withCoefficients choice) k n secret₁) x = view x}
          = Nat.card {choice : Choice chunks₁.length k // ∀ x ∈ observed,
            valueAt (shareValues (base₂.withCoefficients choice) k n secret₂) x = view x}) ∧
      (∀ (aes : AesGcm) (content₁ content₂ : Str), k ≤ n →
        sharedBytes base₁ content₁ = secret₁ → sharedBytes base₂ content₂ = secret₂ →
        ∀ choice, ∀ x ∈ observed,
          valueAt ((splitSecret aes (base₁.withCoefficients choice) content₁ k n).map
              fun result => result.1.map Share.value) x
            = valueAt ((splitSecret aes (base₂.withCoefficients (matching choice)) content₂ k n).map
              fun result => result.1.map Share.value) x) := by
  obtain ⟨matching, hmatching⟩ :=
    exists_choice_equiv hn hobserved hcard chunks₁ chunks₂ hsame base₁ base₂
  have hvalue₁ : ∀ choice : Choice chunks₁.length k, ∀ x ∈ observed,
      valueAt (shareValues (base₁.withCoefficients choice) k n secret₁) x
        = some (shareValue (base₁.withCoefficients choice) k chunks₁ x) := fun choice x hx =>
    valueAt_shareValues _ hchunks₁ (hobserved x hx).1 (hobserved x hx).2
  have hequal : ∀ choice : Choice chunks₁.length k, ∀ x ∈ observed,
      valueAt (shareValues (base₁.withCoefficients choice) k n secret₁) x
        = valueAt (shareValues (base₂.withCoefficients (matching choice)) k n secret₂) x := by
    intro choice x hx
    rw [hvalue₁ choice x hx, hmatching choice x hx,
      valueAt_shareValues _ hchunks₂ (hobserved x hx).1 (hobserved x hx).2]
  refine ⟨matching, fun choice x hx => ⟨?_, hequal choice x hx⟩, fun view => ?_, ?_⟩
  · rw [hvalue₁ choice x hx, Option.isSome_some]
  · refine Nat.card_congr (matching.subtypeEquiv fun choice => ?_)
    exact forall₂_congr fun x hx => by rw [hequal choice x hx]
  · rintro aes content₁ content₂ hkn rfl rfl choice x hx
    rw [shareValues_sharedBytes aes _ content₁ hk hkn, shareValues_sharedBytes aes _ content₂ hk hkn]
    exact hequal choice x hx

/-- One share of a two-of-three split does not tell two contents apart. -/
theorem shareValues_secrecy_yes_no :
    ∃ matching : Choice 2 2 ≃ Choice 2 2, ∀ choice,
      valueAt (shareValues (fixedCoins.withCoefficients choice) 2 3 (encodeUtf8 "yes")) 2
        = valueAt (shareValues (fixedCoins.withCoefficients (matching choice)) 2 3
            (encodeUtf8 "no")) 2 := by
  obtain ⟨matching, hmatching, -⟩ := shareValues_secrecy 2 3 le_rfl (by norm_num [PRIME])
    fixedCoins fixedCoins (encodeUtf8 "yes") (encodeUtf8 "no")
    [[0, 0, 0, 3] ++ List.replicate 27 0, [121, 101, 115] ++ List.replicate 28 0]
    [[0, 0, 0, 2] ++ List.replicate 27 0, [110, 111] ++ List.replicate 29 0]
    (by decide) (by decide) rfl {2} (by simp) (by simp)
  exact ⟨matching, fun choice => (hmatching choice 2 (by simp)).2⟩

end TrustFlow.SecretSharing
