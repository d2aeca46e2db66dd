import SnarkVM.Bech32.Bits

/-!
The BCH checksum of `bech32` (BIP-173) and `bech32m` (BIP-350): `polymod` over the expanded
human-readable part and the data, the checksum the `Bech32Writer` appends, and
`verify_checksum`, which reads the variant off the remainder.

`polymod_step` shifts five bits in and folds the five bits shifted out back through `GEN`. Only
those top bits choose what is folded, so six steps are linear in the six values they read
(`polymodFrom_eq_xor_pack`). Hence the six groups the writer appends bring the remainder to the
variant's constant (`fromRemainder_checksum`), and they are the only six 5-bit values that do
(`eq_checksum_of_fromRemainder`). Over any number of steps `polymod` is linear in the remainder
it starts from (`polymodFrom_xor`), and a nonzero difference never dies out, so one wrong value
anywhere changes the remainder (`polymodFrom_ne_of_substitution`).
-/

namespace SnarkVM.Bech32

/-- `GEN`, the generator of the code. -/
def GEN : List Nat := [0x3b6a57b2, 0x26508e6d, 0x1ea119fa, 0x3d4233dd, 0x2a1462b3]

/-- The `for (i, item) in GEN.iter().enumerate()` loop of `polymod_step`: xor in `GEN[i]` for
every set bit `i` of `b`. -/
def genXor (b : Nat) : Nat → List Nat → Nat → Nat
  | _, [], chk => chk
  | i, g :: gs, chk => genXor b (i + 1) gs (if (b >>> i) &&& 1 = 1 then chk ^^^ g else chk)

/-- `polymod_step`: `chk` is a `u32` below `2 ^ 30`, so the shift never leaves it. -/
def polymodStep (chk v : Nat) : Nat :=
  genXor (chk >>> 25) 0 GEN (((chk &&& 0x1ffffff) <<< 5) ^^^ v)

/-- `polymod`'s loop from the checksum `chk`. -/
def polymodFrom (chk : Nat) (values : List Nat) : Nat := values.foldl polymodStep chk

/-- `polymod`. -/
def polymod (values : List Nat) : Nat := polymodFrom 1 values

/-- `hrp_expand`: the high three bits of each byte of the human-readable part, a zero, and the
low five bits of each byte. -/
def hrpExpand (hrp : List Nat) : List Nat := hrp.map (· >>> 5) ++ [0] ++ hrp.map (· &&& 0x1f)

/-- The two checksum variants. -/
inductive Variant
  | bech32
  | bech32m
  deriving DecidableEq, Repr

/-- `Variant::constant`. -/
def Variant.constant : Variant → Nat
  | .bech32 => 1
  | .bech32m => 0x2bc830a3

/-- `Variant::from_remainder`. -/
def Variant.fromRemainder (c : Nat) : Option Variant :=
  if c = 1 then some .bech32 else if c = 0x2bc830a3 then some .bech32m else none

/-- The six 5-bit groups of `x`, most significant first. -/
def groups : Nat → Nat → List Nat
  | 0, _ => []
  | k + 1, x => ((x >>> (5 * k)) &&& 0x1f) :: groups k x

/-- `write_checksum` of the `Bech32Writer`, from the running `chk` after the expanded
human-readable part and the data: six zero steps, the variant's constant, and the six groups
`(plm >> (5 * (5 - p))) & 0x1f` for `p` in `0..6`. -/
def checksum (chk : Nat) (variant : Variant) : List Nat :=
  let plm := polymodFrom chk (List.replicate 6 0) ^^^ variant.constant
  (List.range 6).map fun p => (plm >>> (5 * (5 - p))) &&& 0x1f

/-- `verify_checksum`: the variant whose constant is the remainder, if any. -/
def verifyChecksum (hrp data : List Nat) : Option Variant :=
  Variant.fromRemainder (polymod (hrpExpand hrp ++ data))

/-! ### The remainder stays below `2 ^ 30` -/

theorem genXor_xor (b : Nat) : ∀ (i : Nat) (gs : List Nat) (x y : Nat),
    genXor b i gs (x ^^^ y) = genXor b i gs x ^^^ y
  | _, [], _, _ => rfl
  | i, g :: gs, x, y => by
    simp only [genXor]
    split_ifs
    · rw [Nat.xor_assoc, Nat.xor_comm y g, ← Nat.xor_assoc, genXor_xor]
    · rw [genXor_xor]

theorem genXor_lt (b : Nat) : ∀ (i : Nat) (gs : List Nat) (x : Nat), x < 2 ^ 30 →
    (∀ g ∈ gs, g < 2 ^ 30) → genXor b i gs x < 2 ^ 30
  | _, [], _, hx, _ => hx
  | i, g :: gs, x, hx, hg => by
    simp only [genXor]
    refine genXor_lt b (i + 1) gs _ ?_ (fun g' h => hg g' (by simp [h]))
    split_ifs
    exacts [Nat.xor_lt_two_pow hx (hg g (by simp)), hx]

theorem polymodStep_lt (chk : Nat) {v : Nat} (hv : v < 2 ^ 30) : polymodStep chk v < 2 ^ 30 := by
  refine genXor_lt _ _ _ _ (Nat.xor_lt_two_pow ?_ hv) (by decide)
  rw [Nat.shiftLeft_eq]
  have : chk &&& 0x1ffffff < 2 ^ 25 := lt_of_le_of_lt Nat.and_le_right (by decide)
  calc (chk &&& 0x1ffffff) * 2 ^ 5 < 2 ^ 25 * 2 ^ 5 := Nat.mul_lt_mul_of_pos_right this (by decide)
    _ = 2 ^ 30 := (Nat.pow_add 2 25 5).symm

theorem polymodFrom_lt : ∀ {chk : Nat} {vs : List Nat}, chk < 2 ^ 30 →
    (∀ v ∈ vs, v < 2 ^ 30) → polymodFrom chk vs < 2 ^ 30
  | _, [], hc, _ => hc
  | chk, v :: vs, _, hvs =>
    @polymodFrom_lt (polymodStep chk v) vs (polymodStep_lt chk (hvs v (by simp)))
      (fun w hw => hvs w (by simp [hw]))

/-! ### Six steps are linear in the values they read -/

/-- A value read by a step lands in the low five bits and nowhere else. -/
theorem polymodStep_eq_xor (chk v : Nat) : polymodStep chk v = polymodStep chk 0 ^^^ v := by
  unfold polymodStep; rw [Nat.xor_zero, genXor_xor]

/-- The bits of `chk` below position 25 do not choose what a step folds in: they only move up
five places. -/
theorem polymodStep_xor_low (c v : Nat) {d : Nat} (hd : d < 2 ^ 25) :
    polymodStep (c ^^^ d) v = polymodStep c v ^^^ (d <<< 5) := by
  have hmask : (0x1ffffff : Nat) = 2 ^ 25 - 1 := by decide
  have hb : (c ^^^ d) >>> 25 = c >>> 25 := by
    refine Nat.eq_of_testBit_eq fun i => ?_
    rw [Nat.testBit_shiftRight, Nat.testBit_shiftRight, Nat.testBit_xor,
      testBit_eq_false_of_lt hd (Nat.le_add_right 25 i), Bool.xor_false]
  have hm : ((c ^^^ d) &&& 0x1ffffff) <<< 5 ^^^ v =
      (((c &&& 0x1ffffff) <<< 5) ^^^ v) ^^^ (d <<< 5) := by
    refine Nat.eq_of_testBit_eq fun i => ?_
    simp only [hmask, Nat.and_pow_two_sub_one_eq_mod, Nat.testBit_xor, Nat.testBit_shiftLeft,
      Nat.testBit_mod_two_pow]
    by_cases h5 : 5 ≤ i
    · by_cases h25 : i - 5 < 25
      · simp only [h5, h25, decide_True, Bool.true_and]
        cases c.testBit (i - 5) <;> cases d.testBit (i - 5) <;> cases v.testBit i <;> rfl
      · simp [h5, h25, testBit_eq_false_of_lt hd (by omega : 25 ≤ i - 5)]
    · simp [h5]
  unfold polymodStep; rw [hb, hm, genXor_xor]

/-- Steps carry a low difference `d` up five places each, as long as it stays below `2 ^ 30`. -/
theorem polymodFrom_xor_low : ∀ (vs : List Nat) (c d : Nat), d <<< (5 * vs.length) < 2 ^ 30 →
    polymodFrom (c ^^^ d) vs = polymodFrom c vs ^^^ (d <<< (5 * vs.length))
  | [], c, d, _ => by simp [polymodFrom]
  | v :: vs, c, d, hd => by
    have hshift : d <<< (5 * (vs.length + 1)) = (d <<< 5) <<< (5 * vs.length) := by
      rw [Nat.shiftLeft_eq, Nat.shiftLeft_eq, Nat.shiftLeft_eq, Nat.mul_assoc, ← Nat.pow_add]
      congr 2; omega
    simp only [List.length_cons] at hd ⊢
    rw [hshift] at hd ⊢
    have hd25 : d < 2 ^ 25 := by
      have h1 : d <<< 5 ≤ (d <<< 5) <<< (5 * vs.length) := by
        rw [Nat.shiftLeft_eq (d <<< 5)]; exact Nat.le_mul_of_pos_right _ (Nat.two_pow_pos _)
      have h2 : d <<< 5 < 2 ^ 30 := lt_of_le_of_lt h1 hd
      rw [Nat.shiftLeft_eq] at h2
      have : 2 ^ 30 = 2 ^ 25 * 2 ^ 5 := Nat.pow_add 2 25 5
      omega
    show polymodFrom (polymodStep (c ^^^ d) v) vs = polymodFrom (polymodStep c v) vs ^^^ _
    rw [polymodStep_xor_low c v hd25, polymodFrom_xor_low vs _ _ hd]

/-- The values `vs`, read as one number, five bits each, most significant first. -/
def pack : List Nat → Nat
  | [] => 0
  | v :: vs => (v <<< (5 * vs.length)) ^^^ pack vs

/-- **Linearity of the last six steps.** Up to six 5-bit values shift through `polymod` as an
xor onto the remainder of as many zeros. -/
theorem polymodFrom_eq_xor_pack : ∀ (vs : List Nat) (c : Nat), vs.length ≤ 6 →
    (∀ v ∈ vs, v < 32) →
      polymodFrom c vs = polymodFrom c (List.replicate vs.length 0) ^^^ pack vs
  | [], c, _, _ => by simp [polymodFrom, pack]
  | v :: vs, c, hl, hv => by
    simp only [List.length_cons] at hl
    have hv32 : v < 32 := hv v (by simp)
    have hsmall : v <<< (5 * vs.length) < 2 ^ 30 := by
      rw [Nat.shiftLeft_eq]
      calc v * 2 ^ (5 * vs.length) < 2 ^ 5 * 2 ^ (5 * vs.length) :=
            Nat.mul_lt_mul_of_pos_right (by simpa using hv32) (Nat.two_pow_pos _)
        _ = 2 ^ (5 + 5 * vs.length) := (Nat.pow_add 2 5 _).symm
        _ ≤ 2 ^ 30 := Nat.pow_le_pow_right Nat.two_pos (by omega)
    show polymodFrom (polymodStep c v) vs = polymodFrom (polymodStep c 0) _ ^^^ _
    rw [polymodStep_eq_xor, polymodFrom_xor_low vs _ _ hsmall,
      polymodFrom_eq_xor_pack vs _ (by omega) (fun w hw => hv w (by simp [hw])), pack,
      Nat.xor_assoc, Nat.xor_comm (pack vs)]

/-! ### The six groups of a checksum -/

theorem groups_length : ∀ k x, (groups k x).length = k
  | 0, _ => rfl
  | k + 1, x => by simp [groups, groups_length k x]

theorem groups_lt : ∀ k x, ∀ g ∈ groups k x, g < 32
  | 0, _ => by simp [groups]
  | k + 1, x => by
    simp only [groups, List.mem_cons]
    rintro g (rfl | hg)
    · exact lt_of_le_of_lt Nat.and_le_right (by decide)
    · exact groups_lt k x g hg

theorem bitsOf_groups : ∀ k x, bitsOf 5 (groups k x) = lowBits (5 * k) x
  | 0, _ => rfl
  | k + 1, x => by
    rw [groups, bitsOf_cons, bitsOf_groups k x, show 5 * (k + 1) = 5 + 5 * k by omega,
      lowBits_add]
    congr 1
    rw [lowBits_eq_iff]; intro i hi
    rw [Nat.testBit_land, show (0x1f : Nat) = 2 ^ 5 - 1 by decide, Nat.testBit_two_pow_sub_one]
    simp [hi]

/-- `pack` reads five bits a value, and is below `2 ^ (5 * length)`. -/
theorem lowBits_pack : ∀ vs : List Nat, (∀ v ∈ vs, v < 32) →
    pack vs < 2 ^ (5 * vs.length) ∧ lowBits (5 * vs.length) (pack vs) = bitsOf 5 vs
  | [], _ => ⟨by decide, rfl⟩
  | v :: vs, hv => by
    obtain ⟨hlt, hbits⟩ := lowBits_pack vs (fun w hw => hv w (by simp [hw]))
    have hv32 : v < 2 ^ 5 := hv v (by simp)
    have hk : 5 * (v :: vs).length = 5 + 5 * vs.length := by simp; omega
    rw [hk, pack]
    refine ⟨Nat.xor_lt_two_pow ?_ (lt_of_lt_of_le hlt (Nat.pow_le_pow_right Nat.two_pos (by omega))), ?_⟩
    · rw [Nat.shiftLeft_eq, Nat.pow_add]
      exact Nat.mul_lt_mul_of_pos_right hv32 (Nat.two_pow_pos _)
    · rw [lowBits_add, bitsOf_cons, ← hbits]
      congr 1 <;> rw [lowBits_eq_iff] <;> intro i hi
      · rw [Nat.testBit_shiftRight, Nat.testBit_xor, Nat.testBit_shiftLeft,
          testBit_eq_false_of_lt hlt (Nat.le_add_right _ i)]
        simp
      · rw [Nat.testBit_xor, Nat.testBit_shiftLeft]
        simp [show ¬ 5 * vs.length ≤ i by omega]

theorem pack_groups {x : Nat} (hx : x < 2 ^ 30) : pack (groups 6 x) = x := by
  obtain ⟨hlt, hbits⟩ := lowBits_pack (groups 6 x) (groups_lt 6 x)
  rw [groups_length] at hlt hbits
  exact lowBits_inj hlt hx (hbits.trans (bitsOf_groups 6 x))

theorem groups_pack {vs : List Nat} (hl : vs.length = 6) (hv : ∀ v ∈ vs, v < 32) :
    groups 6 (pack vs) = vs := by
  obtain ⟨-, hbits⟩ := lowBits_pack vs hv
  rw [hl] at hbits
  exact bitsOf_inj (by decide) (groups_lt 6 _) hv ((bitsOf_groups 6 _).trans hbits)

theorem checksum_eq (chk : Nat) (variant : Variant) :
    checksum chk variant = groups 6 (polymodFrom chk (List.replicate 6 0) ^^^ variant.constant) :=
  rfl

theorem fromRemainder_eq_some {c : Nat} {variant : Variant} :
    Variant.fromRemainder c = some variant ↔ c = variant.constant := by
  unfold Variant.fromRemainder
  cases variant <;> split_ifs <;> simp_all [Variant.constant]

theorem constant_lt (variant : Variant) : variant.constant < 2 ^ 30 := by
  cases variant <;> decide

/-! ### The checksum -/

theorem polymod_append (xs ys : List Nat) : polymod (xs ++ ys) = polymodFrom (polymod xs) ys :=
  List.foldl_append _ _ _ _

theorem polymodFrom_zeros_lt (c : Nat) : polymodFrom c (List.replicate 6 0) < 2 ^ 30 :=
  @polymodFrom_lt (polymodStep c 0) (List.replicate 5 0) (polymodStep_lt c (by decide))
    (by simp)

/-- **The writer's checksum verifies**: after the six groups `write_checksum` appends, the
remainder is the variant's constant. -/
theorem fromRemainder_checksum (xs : List Nat) (variant : Variant) :
    Variant.fromRemainder (polymod (xs ++ checksum (polymod xs) variant)) = some variant := by
  set r := polymodFrom (polymod xs) (List.replicate 6 0)
  have hplm : r ^^^ variant.constant < 2 ^ 30 :=
    Nat.xor_lt_two_pow (polymodFrom_zeros_lt _) (constant_lt variant)
  rw [fromRemainder_eq_some, polymod_append, checksum_eq,
    polymodFrom_eq_xor_pack _ _ (by rw [groups_length]) (groups_lt 6 _), groups_length,
    pack_groups hplm, Nat.xor_cancel_left]

/-- **Only the checksum verifies**: six 5-bit values that bring the remainder to a variant's
constant are the groups the writer would append. -/
theorem eq_checksum_of_fromRemainder {xs cs : List Nat} {variant : Variant} (hl : cs.length = 6)
    (hc : ∀ v ∈ cs, v < 32) (h : Variant.fromRemainder (polymod (xs ++ cs)) = some variant) :
    cs = checksum (polymod xs) variant := by
  rw [fromRemainder_eq_some, polymod_append, polymodFrom_eq_xor_pack _ _ (by omega) hc, hl] at h
  rw [checksum_eq, ← h, ← Nat.xor_assoc, Nat.xor_self, Nat.zero_xor, groups_pack hl hc]

/-! ### One wrong value changes the remainder -/

theorem genXor_cons_zero (b i g : Nat) (gs : List Nat) :
    genXor b i (g :: gs) 0 =
      genXor b (i + 1) gs 0 ^^^ (if (b >>> i) &&& 1 = 1 then g else 0) := by
  rw [genXor, ← genXor_xor, Nat.zero_xor]
  split_ifs <;> simp

theorem bit_iff_testBit (b i : Nat) : ((b >>> i) &&& 1 = 1) ↔ b.testBit i = true := by
  rw [Nat.testBit, Nat.and_comm]
  simp [Nat.and_one_is_mod]

/-- The folded generators are linear in the selector. -/
theorem genXor_xor_selector (b₁ b₂ : Nat) : ∀ (i : Nat) (gs : List Nat),
    genXor (b₁ ^^^ b₂) i gs 0 = genXor b₁ i gs 0 ^^^ genXor b₂ i gs 0
  | _, [] => (Nat.xor_self 0).symm
  | i, g :: gs => by
    have hsel : (if ((b₁ ^^^ b₂) >>> i) &&& 1 = 1 then g else 0) =
        (if (b₁ >>> i) &&& 1 = 1 then g else 0) ^^^
          (if (b₂ >>> i) &&& 1 = 1 then g else 0) := by
      simp only [bit_iff_testBit, Nat.testBit_xor]
      cases b₁.testBit i <;> cases b₂.testBit i <;> simp
    rw [genXor_cons_zero, genXor_cons_zero, genXor_cons_zero, hsel, genXor_xor_selector b₁ b₂]
    ac_rfl

theorem polymodStep_eq_genXor (c v : Nat) :
    polymodStep c v = genXor (c >>> 25) 0 GEN 0 ^^^ (((c &&& 0x1ffffff) <<< 5) ^^^ v) := by
  rw [polymodStep, ← genXor_xor, Nat.zero_xor]

/-- A step is linear in the remainder it starts from. -/
theorem polymodStep_xor (c d v : Nat) :
    polymodStep (c ^^^ d) v = polymodStep c v ^^^ polymodStep d 0 := by
  have hhi : (c ^^^ d) >>> 25 = (c >>> 25) ^^^ (d >>> 25) :=
    Nat.eq_of_testBit_eq fun i => by simp only [Nat.testBit_shiftRight, Nat.testBit_xor]
  have hlo : ((c ^^^ d) &&& 0x1ffffff) <<< 5 =
      ((c &&& 0x1ffffff) <<< 5) ^^^ ((d &&& 0x1ffffff) <<< 5) :=
    Nat.eq_of_testBit_eq fun i => by
      simp only [Nat.testBit_shiftLeft, Nat.testBit_and, Nat.testBit_xor]
      cases decide (i ≥ 5) <;> simp [Bool.and_xor_distrib_right]
  rw [polymodStep_eq_genXor, polymodStep_eq_genXor, polymodStep_eq_genXor, hhi, hlo,
    genXor_xor_selector, Nat.xor_zero]
  ac_rfl

/-- `GEN` folds a nonzero selector into nonzero low five bits. -/
theorem genXor_low_ne_zero : ∀ b < 32, genXor b 0 GEN 0 % 32 = 0 → b = 0 := by decide

/-- A step from a nonzero remainder with a zero value is nonzero: what the top five bits fold in
has nonzero low five bits, and the other bits only move up. -/
theorem polymodStep_zero_ne_zero {d : Nat} (hd : 0 < d) (hd30 : d < 2 ^ 30) :
    polymodStep d 0 ≠ 0 := by
  rw [polymodStep_eq_genXor, Nat.xor_zero, Ne, Nat.xor_eq_zero]
  intro h
  have hmask : d &&& 0x1ffffff = d % 2 ^ 25 := Nat.and_pow_two_sub_one_eq_mod d 25
  have hhi : d >>> 25 < 32 := by rw [Nat.shiftRight_eq_div_pow]; omega
  have hlow : genXor (d >>> 25) 0 GEN 0 % 32 = 0 := by
    rw [h, Nat.shiftLeft_eq]; omega
  have h0 := genXor_low_ne_zero _ hhi hlow
  rw [h0, show genXor 0 0 GEN 0 = 0 by decide, hmask, Nat.shiftLeft_eq] at h
  rw [Nat.shiftRight_eq_div_pow] at h0
  omega

theorem polymodFrom_zeros_ne_zero : ∀ (n : Nat) {d : Nat}, 0 < d → d < 2 ^ 30 →
    polymodFrom d (List.replicate n 0) ≠ 0
  | 0, _, hd, _ => Nat.pos_iff_ne_zero.1 hd
  | n + 1, d, hd, hd30 =>
    polymodFrom_zeros_ne_zero n (Nat.pos_iff_ne_zero.2 (polymodStep_zero_ne_zero hd hd30))
      (polymodStep_lt d (Nat.two_pow_pos 30))

/-- **Linearity of `polymod`.** A difference in the starting remainder runs through the steps
on its own, as through zeros. -/
theorem polymodFrom_xor (c d : Nat) : ∀ vs : List Nat,
    polymodFrom (c ^^^ d) vs = polymodFrom c vs ^^^ polymodFrom d (List.replicate vs.length 0)
  | [] => rfl
  | v :: vs => by
    show polymodFrom (polymodStep (c ^^^ d) v) vs =
      polymodFrom (polymodStep c v) vs ^^^ polymodFrom (polymodStep d 0) _
    rw [polymodStep_xor, polymodFrom_xor]

/-- **One wrong value changes the remainder.** Replacing one 5-bit value by another changes what
`polymod` computes, wherever the value stands. -/
theorem polymodFrom_ne_of_substitution (c : Nat) (pre post : List Nat) {v v' : Nat} (hv : v < 32)
    (hv' : v' < 32) (hne : v ≠ v') :
    polymodFrom c (pre ++ v :: post) ≠ polymodFrom c (pre ++ v' :: post) := by
  have hsplit : ∀ w, polymodFrom c (pre ++ w :: post) =
      polymodFrom (polymodStep (polymodFrom c pre) w) post := fun w => by
    simp only [polymodFrom, List.foldl_append, List.foldl_cons]
  rw [hsplit, hsplit]
  set a := polymodFrom c pre
  have hstep : polymodStep a v = polymodStep a v' ^^^ (v' ^^^ v) := by
    rw [polymodStep_eq_xor a v, polymodStep_eq_xor a v', Nat.xor_assoc, Nat.xor_cancel_left]
  have hδ : 0 < v' ^^^ v := Nat.pos_iff_ne_zero.2 fun h => hne (Nat.xor_eq_zero.1 h).symm
  have hδ30 : v' ^^^ v < 2 ^ 30 := lt_of_lt_of_le (@Nat.xor_lt_two_pow v' v 5 hv' hv)
    (Nat.pow_le_pow_right Nat.two_pos (by omega))
  intro h
  have hlin := polymodFrom_xor (polymodStep a v') (v' ^^^ v) post
  rw [← hstep, h] at hlin
  exact polymodFrom_zeros_ne_zero _ hδ hδ30 (by
    rw [← Nat.xor_cancel_left (polymodFrom (polymodStep a v') post) (polymodFrom (v' ^^^ v) _),
      ← hlin, Nat.xor_self])

end SnarkVM.Bech32
