import Mathlib

/-!
The degree bounds of an indexed circuit (`circuit_info.rs`): the counters of `CircuitInfo`,
the size of the FFT domain a count needs, and the four strict degree bounds the AHP enforces,
one for each of `g_1`, `g_A`, `g_B` and `g_C`; and `ToBytes::write_le`, which writes the six
counters as `u64`s of eight little-endian bytes each. The writer is a `Vec` of bytes, so the
`io::Error`s of `write_le` do not arise and the bytes are a `List UInt8`.

A `usize` is 64 bits wide. Its arithmetic is kept on `Nat`, and each place where the code
leaves the range is explicit: `checked_next_power_of_two` gives `none` past `2 ^ 63`, and a
subtraction below zero (a panic in a debug build, a wrap-around in a release one) is `none`.
-/

namespace SnarkVM.Varuna

/-! ### `usize` arithmetic -/

/-- The number of values of a 64-bit `usize`. -/
def usizeSize : Nat := 2 ^ 64

/-- `usize::checked_add`. -/
def checkedAdd (a b : Nat) : Option Nat := if a + b < usizeSize then some (a + b) else none

/-- The `usize` subtraction `a - b`, `none` where it would go below zero. -/
def checkedSub (a b : Nat) : Option Nat := if b ≤ a then some (a - b) else none

/-- `usize::one_less_than_next_power_of_two`: `0` up to `1`, else
`usize::MAX >> (n - 1).leading_zeros()`, the `log2 (n - 1) + 1` low bits set. -/
def oneLessThanNextPowerOfTwo (n : Nat) : Nat :=
  if n ≤ 1 then 0 else 2 ^ (Nat.log2 (n - 1) + 1) - 1

/-- `usize::checked_next_power_of_two`. -/
def checkedNextPowerOfTwo (n : Nat) : Option Nat :=
  checkedAdd (oneLessThanNextPowerOfTwo n) 1

/-- From `2` on, the bits of `n - 1` count the doublings that reach `n`. -/
lemma clog_two_eq_log2 {n : Nat} (h : 2 ≤ n) : Nat.clog 2 n = Nat.log2 (n - 1) + 1 := by
  have hlt : n - 1 < 2 ^ (Nat.log2 (n - 1) + 1) := Nat.lt_log2_self
  refine le_antisymm ((Nat.le_pow_iff_clog_le Nat.one_lt_two).1 (by omega)) ?_
  by_contra hk
  have h1 : 2 ^ Nat.clog 2 n ≤ 2 ^ Nat.log2 (n - 1) :=
    Nat.pow_le_pow_right Nat.two_pos (by omega)
  have h2 : 2 ^ Nat.log2 (n - 1) ≤ n - 1 := Nat.log2_self_le (by omega)
  have h3 : n ≤ 2 ^ Nat.clog 2 n := Nat.le_pow_clog Nat.one_lt_two n
  omega

/-- A `usize` has a next power of two exactly up to `2 ^ 63`, and it is `2 ^ clog 2 n`. -/
theorem checkedNextPowerOfTwo_eq (n : Nat) :
    checkedNextPowerOfTwo n = if n ≤ 2 ^ 63 then some (2 ^ Nat.clog 2 n) else none := by
  unfold checkedNextPowerOfTwo oneLessThanNextPowerOfTwo checkedAdd usizeSize
  by_cases h1 : n ≤ 1
  · rw [if_pos h1, if_pos (show n ≤ 2 ^ 63 by omega), Nat.clog_of_right_le_one h1]; rfl
  · rw [if_neg h1, clog_two_eq_log2 (by omega), Nat.sub_add_cancel (Nat.two_pow_pos _)]
    have hlog : Nat.log2 (n - 1) < 63 ↔ n - 1 < 2 ^ 63 := Nat.log2_lt (by omega)
    have hpow : 2 ^ (Nat.log2 (n - 1) + 1) < 2 ^ 64 ↔ Nat.log2 (n - 1) + 1 < 64 :=
      Nat.pow_lt_pow_iff_right Nat.one_lt_two
    split_ifs <;> first | rfl | omega

/-! ### The size of an evaluation domain -/

/-- Modelled from the spec: `EvaluationDomain::compute_size_of_domain`, which is not under
src/. The domain for `numCoeffs` coefficients has "the smallest power of two ≥ n" elements, as
`checked_next_power_of_two` computes it, and there is none ("DomainTooLarge") when that size
exceeds the field's power-of-two domain `2 ^ twoAdicity`. -/
def computeSizeOfDomain (twoAdicity numCoeffs : Nat) : Option Nat :=
  (checkedNextPowerOfTwo numCoeffs).bind fun size =>
    if size ≤ 2 ^ twoAdicity then some size else none

/-- A count has a domain exactly up to `2 ^ min twoAdicity 63`: the field's limit, or the
`usize` one, whichever comes first. -/
theorem computeSizeOfDomain_eq (twoAdicity n : Nat) :
    computeSizeOfDomain twoAdicity n =
      if n ≤ 2 ^ min twoAdicity 63 then some (2 ^ Nat.clog 2 n) else none := by
  have hle : ∀ k, 2 ^ Nat.clog 2 n ≤ 2 ^ k ↔ n ≤ 2 ^ k := fun k =>
    (Nat.pow_le_pow_iff_right Nat.one_lt_two).trans (Nat.le_pow_iff_clog_le Nat.one_lt_two).symm
  have hmin : n ≤ 2 ^ min twoAdicity 63 ↔ n ≤ 2 ^ 63 ∧ n ≤ 2 ^ twoAdicity := by
    rcases le_total twoAdicity 63 with h | h
    · have := Nat.pow_le_pow_right Nat.two_pos h
      rw [min_eq_left h]; omega
    · have := Nat.pow_le_pow_right Nat.two_pos h
      rw [min_eq_right h]; omega
  unfold computeSizeOfDomain
  rw [checkedNextPowerOfTwo_eq]
  by_cases h63 : n ≤ 2 ^ 63
  · simp only [h63, if_true, Option.some_bind, hle, hmin, true_and]
  · simp only [h63, if_false, Option.none_bind, hmin, false_and]

/-! ### Little-endian bytes -/

/-- The `k` low bytes of `n`, least significant first. -/
def leBytes : Nat → Nat → List UInt8
  | 0, _ => []
  | k + 1, n => UInt8.ofNat n :: leBytes k (n / 256)

/-- `u64::write_le`: the eight bytes of the integer, least significant first. -/
def writeU64Le (n : UInt64) : List UInt8 := leBytes 8 n.toNat

@[simp] theorem leBytes_length : ∀ (k n : Nat), (leBytes k n).length = k
  | 0, _ => rfl
  | k + 1, n => by rw [leBytes, List.length_cons, leBytes_length]

/-- Two numbers have the same `k` low bytes exactly when they agree modulo `256 ^ k`. -/
theorem leBytes_eq_iff : ∀ {k a b : Nat}, leBytes k a = leBytes k b ↔ a % 256 ^ k = b % 256 ^ k
  | 0, _, _ => by simp only [leBytes, pow_zero, Nat.mod_one]
  | k + 1, a, b => by
    have hbyte : UInt8.ofNat a = UInt8.ofNat b ↔ a % 256 = b % 256 :=
      ⟨congrArg UInt8.toNat, fun h => UInt8.toNat.inj h⟩
    rw [leBytes, leBytes, List.cons.injEq, hbyte, leBytes_eq_iff, Nat.pow_succ', Nat.mod_mul,
      Nat.mod_mul]
    omega

/-- A `usize` is cast to `u64` unchanged, so its eight bytes tell it apart. -/
theorem writeU64Le_ofNat_inj {a b : Nat} (ha : a < usizeSize) (hb : b < usizeSize) :
    writeU64Le (UInt64.ofNat a) = writeU64Le (UInt64.ofNat b) ↔ a = b := by
  rw [writeU64Le, writeU64Le, leBytes_eq_iff, UInt64.toNat_ofNat_of_lt ha,
    UInt64.toNat_ofNat_of_lt hb, Nat.mod_eq_of_lt (show a < 256 ^ 8 from ha),
    Nat.mod_eq_of_lt (show b < 256 ^ 8 from hb)]

/-- Lists of one length whose elements are written in a fixed width, by a writer one-to-one on
the elements that satisfy `p`, are written alike only when they are equal. -/
theorem flatMap_inj_of_fixedWidth {f : α → List β} {p : α → Prop} {w : Nat}
    (hw : ∀ x, (f x).length = w) (hf : ∀ {x y}, p x → p y → f x = f y → x = y) :
    ∀ {l₁ l₂ : List α}, l₁.length = l₂.length → (∀ x ∈ l₁, p x) → (∀ x ∈ l₂, p x) →
      l₁.flatMap f = l₂.flatMap f → l₁ = l₂
  | [], [], _, _, _, _ => rfl
  | x :: l₁, y :: l₂, hlen, h₁, h₂, h => by
    rw [List.flatMap_cons, List.flatMap_cons] at h
    obtain ⟨hxy, hl⟩ := List.append_inj h (by rw [hw, hw])
    rw [hf (h₁ x (.head _)) (h₂ y (.head _)) hxy,
      flatMap_inj_of_fixedWidth hw hf (Nat.succ.inj hlen) (fun z hz => h₁ z (.tail _ hz))
        (fun z hz => h₂ z (.tail _ hz)) hl]

/-! ### The degree bounds -/

/-- `CircuitInfo`: the counters of an indexed circuit, each a `usize`. -/
structure CircuitInfo where
  /-- The number of public inputs after padding. -/
  numPublicInputs : Nat
  /-- The total number of variables in the constraint system. -/
  numVariables : Nat
  /-- The number of constraints. -/
  numConstraints : Nat
  /-- The number of non-zero entries in the A matrix. -/
  numNonZeroA : Nat
  /-- The number of non-zero entries in the B matrix. -/
  numNonZeroB : Nat
  /-- The number of non-zero entries in the C matrix. -/
  numNonZeroC : Nat
  deriving DecidableEq, Repr

namespace CircuitInfo

/-- The counts whose domains bound `g_1`, `g_A`, `g_B` and `g_C`, in that order. -/
def degreeCounts (c : CircuitInfo) : List Nat :=
  [c.numVariables, c.numNonZeroA, c.numNonZeroB, c.numNonZeroC]

/-- One entry of `get_degree_bounds`: `compute_size_of_domain(n).unwrap() - 2`. -/
def degreeBound (twoAdicity n : Nat) : Option Nat :=
  (computeSizeOfDomain twoAdicity n).bind fun size => checkedSub size 2

/-- `CircuitInfo::get_degree_bounds`: `none` where an `unwrap` panics or a `- 2` underflows. -/
def getDegreeBounds (twoAdicity : Nat) (c : CircuitInfo) : Option (List Nat) :=
  c.degreeCounts.mapM (degreeBound twoAdicity)

theorem degreeBound_eq (twoAdicity n : Nat) :
    degreeBound twoAdicity n =
      if 2 ≤ n ∧ n ≤ 2 ^ min twoAdicity 63 then some (2 ^ Nat.clog 2 n - 2) else none := by
  have htwo : 2 ≤ 2 ^ Nat.clog 2 n ↔ 2 ≤ n := by
    rcases Nat.lt_or_ge n 2 with h | h
    · rw [Nat.clog_of_right_le_one (by omega)]; omega
    · have := Nat.le_pow_clog Nat.one_lt_two n; omega
  unfold degreeBound checkedSub
  rw [computeSizeOfDomain_eq]
  by_cases hn : n ≤ 2 ^ min twoAdicity 63
  · simp only [hn, if_true, Option.some_bind, htwo, and_true]
  · simp only [hn, if_false, Option.none_bind, and_false]

/-- `mapM` in `Option` of a function that is `some` exactly where `p` holds. -/
lemma mapM_ite {p : Nat → Prop} [DecidablePred p] (f : Nat → Option Nat) (g : Nat → Nat)
    (hf : ∀ n, f n = if p n then some (g n) else none) :
    ∀ l : List Nat, l.mapM f = if ∀ n ∈ l, p n then some (l.map g) else none
  | [] => by rw [if_pos (List.forall_mem_nil _)]; rfl
  | n :: l => by
    rw [List.mapM_cons, hf, mapM_ite f g hf l]
    by_cases hl : ∀ m ∈ l, p m
    · by_cases hn : p n <;> simp [hn, if_pos hl, hl]
    · simp [if_neg hl, hl]

/-- **The degree bounds.** `get_degree_bounds` returns exactly when each of the four counts
lies in `[2, 2 ^ min twoAdicity 63]`, and then each bound is the least power of two at or
above its count, less two. -/
theorem getDegreeBounds_eq (twoAdicity : Nat) (c : CircuitInfo) :
    c.getDegreeBounds twoAdicity =
      if ∀ n ∈ c.degreeCounts, 2 ≤ n ∧ n ≤ 2 ^ min twoAdicity 63
      then some (c.degreeCounts.map fun n => 2 ^ Nat.clog 2 n - 2) else none :=
  mapM_ite _ _ (degreeBound_eq twoAdicity) _

/-- A field whose two-adicity reaches `64` has a domain for `2 ^ 63 + 1` elements, but a
`usize` does not: the count lies in `[2, 2 ^ twoAdicity]` and still has no degree bound. -/
theorem getDegreeBounds_usize_overflow :
    (∀ n ∈ (⟨0, 2 ^ 63 + 1, 0, 2, 2, 2⟩ : CircuitInfo).degreeCounts, 2 ≤ n ∧ n ≤ 2 ^ 64) ∧
      (⟨0, 2 ^ 63 + 1, 0, 2, 2, 2⟩ : CircuitInfo).getDegreeBounds 64 = none := by
  refine ⟨by decide, ?_⟩
  simp only [getDegreeBounds, degreeCounts, List.mapM_cons, degreeBound_eq]
  decide

/-! ### `ToBytes` -/

/-- The six counters, in the order of the fields. -/
def counters (c : CircuitInfo) : List Nat :=
  [c.numPublicInputs, c.numVariables, c.numConstraints, c.numNonZeroA, c.numNonZeroB,
    c.numNonZeroC]

/-- `ToBytes::write_le`: each counter cast to `u64` and written little-endian, in the order of
the fields. -/
def writeLe (c : CircuitInfo) : List UInt8 :=
  writeU64Le (UInt64.ofNat c.numPublicInputs) ++ writeU64Le (UInt64.ofNat c.numVariables) ++
    writeU64Le (UInt64.ofNat c.numConstraints) ++ writeU64Le (UInt64.ofNat c.numNonZeroA) ++
    writeU64Le (UInt64.ofNat c.numNonZeroB) ++ writeU64Le (UInt64.ofNat c.numNonZeroC)

theorem writeLe_eq_flatMap (c : CircuitInfo) :
    c.writeLe = c.counters.flatMap fun n => writeU64Le (UInt64.ofNat n) := by
  simp [writeLe, counters]

theorem counters_inj {c₁ c₂ : CircuitInfo} : c₁.counters = c₂.counters ↔ c₁ = c₂ := by
  refine ⟨fun h => ?_, congrArg _⟩
  cases c₁; cases c₂
  simpa [counters] using h

/-- **`write_le` is of a fixed width and one-to-one.** Every `CircuitInfo` is written in `48`
bytes, and two whose counters are `usize`s are written alike exactly when they are equal. -/
theorem writeLe_injective_fixedWidth :
    (∀ c : CircuitInfo, c.writeLe.length = 48) ∧
    ∀ {c₁ c₂ : CircuitInfo}, (∀ n ∈ c₁.counters, n < usizeSize) →
      (∀ n ∈ c₂.counters, n < usizeSize) → (c₁.writeLe = c₂.writeLe ↔ c₁ = c₂) := by
  refine ⟨fun c => by simp [writeLe, writeU64Le], fun h₁ h₂ => ⟨fun h => ?_, congrArg _⟩⟩
  rw [writeLe_eq_flatMap, writeLe_eq_flatMap] at h
  exact counters_inj.1 <| flatMap_inj_of_fixedWidth (fun _ => leBytes_length 8 _)
    (fun ha hb => (writeU64Le_ofNat_inj ha hb).1) rfl h₁ h₂ h

/-- Two circuits that differ only in their number of constraints are written differently. -/
theorem writeLe_injective_fixedWidth_sample :
    (∀ n ∈ (⟨1, 2, 3, 4, 5, 6⟩ : CircuitInfo).counters, n < usizeSize) ∧
    (∀ n ∈ (⟨1, 2, 259, 4, 5, 6⟩ : CircuitInfo).counters, n < usizeSize) ∧
    ((⟨1, 2, 3, 4, 5, 6⟩ : CircuitInfo).writeLe = (⟨1, 2, 259, 4, 5, 6⟩ : CircuitInfo).writeLe ↔
      (⟨1, 2, 3, 4, 5, 6⟩ : CircuitInfo) = ⟨1, 2, 259, 4, 5, 6⟩) :=
  ⟨by decide, by decide, writeLe_injective_fixedWidth.2 (by decide) (by decide)⟩

end CircuitInfo

end SnarkVM.Varuna
