import SnarkVM.Bech32.Bits

/-!
The bits of the Merkle leaf of a transaction
(`console/program/src/state_path/transaction_leaf/to_bits.rs`): `write_bits_le` and
`write_bits_be` write the leaf's `variant`, `index` and `id` one after the other, each in the
bit order of the method.

The leaf's struct and the bit formats of `u8`, `u16` and field elements are not in this source.
A leaf is a `u8` variant, a `u16` index and a field element. An integer of `w` bits, or a field
element of `size_in_bits` bits, is written as exactly that many bits, least significant first by
`write_bits_le` and most significant first by `write_bits_be`. A `BitOrder` is such a way of
writing `w`-bit numbers: `w` bits, telling apart any two numbers below `2 ^ w`.

Main result: in either order every leaf has the same number of bits, and two leaves have the
same bits only when they are equal (`toBits_injective_fixedWidth`).
-/

namespace SnarkVM.Console

open Bech32

/-- A prime field as its elements' bits are written: the modulus, and `size_in_bits`, which is
enough bits for every element. -/
structure PrimeField where
  MODULUS : Nat
  SIZE_IN_BITS : Nat
  modulus_le : MODULUS ≤ 2 ^ SIZE_IN_BITS

/-- A way of writing numbers of `w` bits as exactly `w` bits that tells apart any two numbers
below `2 ^ w`. -/
structure BitOrder where
  bits : Nat → Nat → List Bool
  length_bits : ∀ w n, (bits w n).length = w
  bits_inj : ∀ {w a b : Nat}, a < 2 ^ w → b < 2 ^ w → bits w a = bits w b → a = b

/-- `write_bits_le`: the least significant bit first. -/
def bitsLe : BitOrder where
  bits w n := (lowBits w n).reverse
  length_bits w n := by rw [List.length_reverse, lowBits_length]
  bits_inj ha hb h := lowBits_inj ha hb (List.reverse_inj.1 h)

/-- `write_bits_be`: the most significant bit first. -/
def bitsBe : BitOrder where
  bits := lowBits
  length_bits := lowBits_length
  bits_inj := lowBits_inj

/-- `TransactionLeaf`. -/
structure TransactionLeaf (F : PrimeField) where
  variant : UInt8
  index : UInt16
  id : Fin F.MODULUS
  deriving DecidableEq, Repr

namespace TransactionLeaf

variable {F : PrimeField}

/-- `write_bits_le` and `write_bits_be`: `variant || index || id`, each in the order `o`. -/
def writeBits (o : BitOrder) (leaf : TransactionLeaf F) : List Bool :=
  o.bits 8 leaf.variant.toNat ++ o.bits 16 leaf.index.toNat ++ o.bits F.SIZE_IN_BITS leaf.id.val

/-- `ToBits::to_bits_le`. -/
def toBitsLe (leaf : TransactionLeaf F) : List Bool := leaf.writeBits bitsLe

/-- `ToBits::to_bits_be`. -/
def toBitsBe (leaf : TransactionLeaf F) : List Bool := leaf.writeBits bitsBe

theorem writeBits_length (o : BitOrder) (leaf : TransactionLeaf F) :
    (leaf.writeBits o).length = 8 + 16 + F.SIZE_IN_BITS := by
  simp only [writeBits, List.length_append, o.length_bits]

/-- Each part is written in a fixed number of bits, so the bits of a leaf split back into the
bits of its parts, and each part is read off its own. -/
theorem writeBits_inj (o : BitOrder) {L₁ L₂ : TransactionLeaf F} :
    L₁.writeBits o = L₂.writeBits o ↔ L₁ = L₂ := by
  refine ⟨fun h => ?_, congrArg _⟩
  obtain ⟨hhead, hid⟩ := List.append_inj h (by simp only [List.length_append, o.length_bits])
  obtain ⟨hvariant, hindex⟩ := List.append_inj hhead (by rw [o.length_bits, o.length_bits])
  have hv := o.bits_inj (L₁.variant.toNat_lt_size.trans_eq rfl)
    (L₂.variant.toNat_lt_size.trans_eq rfl) hvariant
  have hi := o.bits_inj (L₁.index.toNat_lt_size.trans_eq rfl)
    (L₂.index.toNat_lt_size.trans_eq rfl) hindex
  have hd := o.bits_inj (lt_of_lt_of_le L₁.id.isLt F.modulus_le)
    (lt_of_lt_of_le L₂.id.isLt F.modulus_le) hid
  cases L₁; cases L₂
  exact (mk.injEq ..).mpr ⟨UInt8.toNat.inj hv, UInt16.toNat.inj hi, Fin.ext hd⟩

/-- **The leaf's bits are one-to-one and of a fixed width.** For every field, two leaves have the
same little-endian bits exactly when they are equal, and every leaf has `8 + 16 + size_in_bits`
of them; the same holds of the big-endian bits. -/
theorem toBits_injective_fixedWidth (F : PrimeField) :
    (∀ L₁ L₂ : TransactionLeaf F, L₁.toBitsLe = L₂.toBitsLe ↔ L₁ = L₂) ∧
    (∀ L : TransactionLeaf F, L.toBitsLe.length = 8 + 16 + F.SIZE_IN_BITS) ∧
    (∀ L₁ L₂ : TransactionLeaf F, L₁.toBitsBe = L₂.toBitsBe ↔ L₁ = L₂) ∧
    (∀ L : TransactionLeaf F, L.toBitsBe.length = 8 + 16 + F.SIZE_IN_BITS) :=
  ⟨fun _ _ => writeBits_inj bitsLe, fun L => writeBits_length bitsLe L,
    fun _ _ => writeBits_inj bitsBe, fun L => writeBits_length bitsBe L⟩

/-- A field of five elements, written in three bits. -/
def smallField : PrimeField := ⟨5, 3, by decide⟩

example : (⟨1, 2, ⟨3, by decide⟩⟩ : TransactionLeaf smallField).toBitsLe =
    [true] ++ List.replicate 7 false ++ [false, true] ++ List.replicate 14 false ++
      [true, true, false] := by
  decide

end TransactionLeaf

end SnarkVM.Console
