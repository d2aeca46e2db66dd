import Mathlib.Data.Nat.Bitwise
import Mathlib.Data.List.Basic

/-!
Bit strings for the `bech32` regrouping and checksum: the `k` low bits of a number, most
significant first, and the bits of a list of `w`-bit values. The 8-to-5 and 5-to-8
regroupings of the crate are loops over an accumulator; their specifications compare the bit
strings of what goes in and what comes out, and everything about the accumulator is read off
`Nat.testBit`.
-/

namespace SnarkVM.Bech32

/-- The `k` low bits of `n`, most significant first. -/
def lowBits : Nat → Nat → List Bool
  | 0, _ => []
  | k + 1, n => n.testBit k :: lowBits k n

@[simp] theorem lowBits_zero (n : Nat) : lowBits 0 n = [] := rfl

@[simp] theorem lowBits_length (k n : Nat) : (lowBits k n).length = k := by
  induction k with
  | zero => rfl
  | succ k ih => simp [lowBits, ih]

/-- Two numbers have the same `k` low bits when they agree on every bit below `k`. -/
theorem lowBits_eq_iff {a b : Nat} : ∀ {k : Nat},
    lowBits k a = lowBits k b ↔ ∀ i < k, a.testBit i = b.testBit i
  | 0 => by simp
  | k + 1 => by
    simp only [lowBits, List.cons.injEq, @lowBits_eq_iff a b k]
    constructor
    · rintro ⟨h1, h2⟩ i hi
      rcases Nat.lt_succ_iff_lt_or_eq.1 hi with hi | rfl
      exacts [h2 i hi, h1]
    · intro h
      exact ⟨h k (Nat.lt_succ_self k), fun i hi => h i (Nat.lt_succ_of_lt hi)⟩

/-- The `k + m` low bits split into the `k` bits above position `m` and the `m` below. -/
theorem lowBits_add (m n : Nat) : ∀ k, lowBits (k + m) n = lowBits k (n >>> m) ++ lowBits m n
  | 0 => by simp
  | k + 1 => by
    rw [Nat.add_right_comm, lowBits, lowBits_add m n k, lowBits, Nat.testBit_shiftRight,
      Nat.add_comm m k, List.cons_append]

theorem lowBits_eq_replicate_iff {k n : Nat} :
    lowBits k n = List.replicate k false ↔ ∀ i < k, n.testBit i = false := by
  have h0 : List.replicate k false = lowBits k 0 := by
    induction k with
    | zero => rfl
    | succ k ih => simp [lowBits, List.replicate_succ, ih]
  rw [h0, lowBits_eq_iff]
  simp

theorem testBit_eq_false_of_lt {a k i : Nat} (ha : a < 2 ^ k) (hi : k ≤ i) :
    a.testBit i = false :=
  Nat.testBit_lt_two_pow (lt_of_lt_of_le ha (Nat.pow_le_pow_right Nat.two_pos hi))

/-- A number below `2 ^ k` is its `k` low bits. -/
theorem lowBits_inj {k a b : Nat} (ha : a < 2 ^ k) (hb : b < 2 ^ k)
    (h : lowBits k a = lowBits k b) : a = b := by
  refine Nat.eq_of_testBit_eq fun i => ?_
  rcases Nat.lt_or_ge i k with hi | hi
  · exact lowBits_eq_iff.1 h i hi
  · rw [testBit_eq_false_of_lt ha hi, testBit_eq_false_of_lt hb hi]

/-- The bits of a list of `w`-bit values, each most significant first. -/
def bitsOf (w : Nat) (l : List Nat) : List Bool := l.flatMap (lowBits w)

@[simp] theorem bitsOf_nil (w : Nat) : bitsOf w [] = [] := rfl

@[simp] theorem bitsOf_cons (w a : Nat) (l : List Nat) :
    bitsOf w (a :: l) = lowBits w a ++ bitsOf w l := rfl

@[simp] theorem bitsOf_append (w : Nat) (l₁ l₂ : List Nat) :
    bitsOf w (l₁ ++ l₂) = bitsOf w l₁ ++ bitsOf w l₂ := by
  simp [bitsOf]

@[simp] theorem bitsOf_length (w : Nat) (l : List Nat) : (bitsOf w l).length = w * l.length := by
  induction l with
  | nil => rfl
  | cons a l ih => simp [ih, Nat.mul_succ, Nat.add_comm]

/-- Lists of `w`-bit values, `w > 0`, are told apart by their bits. -/
theorem bitsOf_inj {w : Nat} (hw : 0 < w) : ∀ {l₁ l₂ : List Nat}, (∀ a ∈ l₁, a < 2 ^ w) →
    (∀ a ∈ l₂, a < 2 ^ w) → bitsOf w l₁ = bitsOf w l₂ → l₁ = l₂
  | [], [], _, _, _ => rfl
  | [], b :: l₂, _, _, h => by
    have := congrArg List.length h
    simp at this; omega
  | a :: l₁, [], _, _, h => by
    have := congrArg List.length h
    simp at this; omega
  | a :: l₁, b :: l₂, h₁, h₂, h => by
    obtain ⟨hab, hl⟩ := List.append_inj h (by simp)
    rw [lowBits_inj (h₁ a (by simp)) (h₂ b (by simp)) hab,
      bitsOf_inj hw (fun x hx => h₁ x (by simp [hx])) (fun x hx => h₂ x (by simp [hx])) hl]

end SnarkVM.Bech32
