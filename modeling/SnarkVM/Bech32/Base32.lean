import SnarkVM.Bech32.Bits
import SnarkVM.Result

/-!
The 8-to-5 and 5-to-8 regroupings of the `bech32` crate, which `VerifyingKey`'s `Display` and
`FromStr` call as `bytes.to_base32()` and `Vec::<u8>::from_base32(&data)`.

`to_base32` (`ToBase32 for [u8]`) keeps a `u8` buffer whose top `buffer_bits` bits are pending;
`from_base32` is `convert_bits(data, 5, 8, false)`, which keeps a `u32` accumulator and checks
that the last group's padding is short and zero. Each loop is specified by the bit strings it
relates (`toBase32_bits`, `convertBits_ok_iff`), and the two round trips follow:
`fromBase32_toBase32` and `toBase32_of_fromBase32`.
-/

namespace SnarkVM.Bech32

/-- The error kinds of the `bech32` crate that the decoding path can return. -/
inductive Error
  | missingSeparator
  | invalidChecksum
  | invalidLength
  | invalidChar (c : Char)
  | invalidData (v : Nat)
  | invalidPadding
  | mixedCase
  deriving DecidableEq, Repr

/-- The crate's `Display` texts of its errors. -/
def Error.toString : Error → String
  | .missingSeparator => "missing human-readable separator, \"1\""
  | .invalidChecksum => "invalid checksum"
  | .invalidLength => "invalid length"
  | .invalidChar c => s!"invalid character (code={c.toNat})"
  | .invalidData v => s!"invalid data point ({v})"
  | .invalidPadding => "invalid padding"
  | .mixedCase => "mixed-case strings not allowed"

instance : ToString Error := ⟨Error.toString⟩

/-! ### `convert_bits` -/

/-- The inner `while bits >= to` loop of `convert_bits`, run with `fuel ≥ bits`: push the top
`to` of the `bits` pending bits of `acc` while there are that many. -/
def drain (toBits acc : Nat) : Nat → Nat → List UInt8 → Nat × List UInt8
  | 0, bits, ret => (bits, ret)
  | fuel + 1, bits, ret =>
    if toBits ≤ bits then
      drain toBits acc fuel (bits - toBits)
        (ret ++ [UInt8.ofNat ((acc >>> (bits - toBits)) &&& (2 ^ toBits - 1))])
    else (bits, ret)

/-- The variables of `convert_bits` between two input values. -/
structure ConvertState where
  acc : Nat
  bits : Nat
  ret : List UInt8

/-- One turn of the `for value in data` loop of `convert_bits`: `acc` is a `u32`, so the shift
keeps its low 32 bits. -/
def convertStep (fromBits toBits : Nat) (s : ConvertState) (v : Nat) : Except Error ConvertState :=
  if v >>> fromBits ≠ 0 then .error (.invalidData v)
  else
    let acc := ((s.acc <<< fromBits) % 2 ^ 32) ||| v
    let (bits, ret) := drain toBits acc (s.bits + fromBits) (s.bits + fromBits) s.ret
    .ok ⟨acc, bits, ret⟩

/-- `bech32::convert_bits(data, from, to, pad)` (the crate panics on widths outside `1..=8`; it
is called here with `5` and `8`). -/
def convertBits (data : List Nat) (fromBits toBits : Nat) (pad : Bool) :
    Except Error (List UInt8) := do
  let s ← data.foldlM (convertStep fromBits toBits) ⟨0, 0, []⟩
  let maxv := 2 ^ toBits - 1
  if pad then
    if 0 < s.bits then
      pure (s.ret ++ [UInt8.ofNat (((s.acc <<< (toBits - s.bits)) % 2 ^ 32) &&& maxv)])
    else pure s.ret
  else if fromBits ≤ s.bits then throw .invalidPadding
  else if ((s.acc <<< (toBits - s.bits)) % 2 ^ 32) &&& maxv ≠ 0 then throw .invalidPadding
  else pure s.ret

/-- `FromBase32 for Vec<u8>`: `convert_bits(data, 5, 8, false)`. -/
def fromBase32 (data : List Nat) : Except Error (List UInt8) := convertBits data 5 8 false

/-- The bits of a byte string. -/
def byteBits (bs : List UInt8) : List Bool := bitsOf 8 (bs.map UInt8.toNat)

@[simp] theorem byteBits_length (bs : List UInt8) : (byteBits bs).length = 8 * bs.length := by
  simp [byteBits]

@[simp] theorem byteBits_append (bs : List UInt8) (b : UInt8) :
    byteBits (bs ++ [b]) = byteBits bs ++ lowBits 8 b.toNat := by
  simp [byteBits]

/-- The drained chunks are the top bits, `to` at a time, and fewer than `to` stay pending. -/
theorem drain_spec {toBits acc : Nat} (hto : 0 < toBits) (hto8 : toBits ≤ 8) :
    ∀ fuel bits ret, bits ≤ fuel →
      (drain toBits acc fuel bits ret).1 < toBits ∧
      bitsOf toBits ((drain toBits acc fuel bits ret).2.map UInt8.toNat) ++
          lowBits (drain toBits acc fuel bits ret).1 acc =
        bitsOf toBits (ret.map UInt8.toNat) ++ lowBits bits acc
  | 0, bits, ret, h => by
    have : bits = 0 := by omega
    subst this; simp [drain]; omega
  | fuel + 1, bits, ret, h => by
    unfold drain
    split_ifs with hb
    · obtain ⟨ih1, ih2⟩ := drain_spec hto hto8 fuel (bits - toBits)
        (ret ++ [UInt8.ofNat ((acc >>> (bits - toBits)) &&& (2 ^ toBits - 1))]) (by omega)
      refine ⟨ih1, ?_⟩
      rw [ih2]
      have hc : (acc >>> (bits - toBits)) &&& (2 ^ toBits - 1) < 256 :=
        lt_of_le_of_lt Nat.and_le_right
          (lt_of_lt_of_le (Nat.sub_lt (Nat.two_pow_pos _) Nat.one_pos)
            (Nat.pow_le_pow_right Nat.two_pos hto8))
      have hsplit := lowBits_add (bits - toBits) acc toBits
      rw [Nat.add_sub_of_le hb] at hsplit
      rw [hsplit, List.map_append, bitsOf_append, List.append_assoc]
      congr 2
      simp only [List.map_cons, List.map_nil, bitsOf_cons, bitsOf_nil, List.append_nil,
        UInt8.toNat_ofNat_of_lt hc]
      rw [lowBits_eq_iff]
      intro i hi
      simp [Nat.testBit_land, Nat.testBit_two_pow_sub_one, hi]
    · exact ⟨by omega, rfl⟩

/-- What the `convert_bits` loop keeps after reading the values `pre`: the pushed chunks and
the pending bits of `acc` are the bits read, and fewer than `to` bits are pending. -/
def ConvertState.Represents (fromBits toBits : Nat) (s : ConvertState) (pre : List Nat) : Prop :=
  s.bits < toBits ∧
    bitsOf toBits (s.ret.map UInt8.toNat) ++ lowBits s.bits s.acc = bitsOf fromBits pre

/-- Shifting a value into the accumulator appends its bits to the pending ones. -/
theorem lowBits_shiftIn {acc v bits fromBits : Nat} (hv : v < 2 ^ fromBits)
    (hb : bits + fromBits ≤ 32) :
    lowBits (bits + fromBits) (((acc <<< fromBits) % 2 ^ 32) ||| v) =
      lowBits bits acc ++ lowBits fromBits v := by
  rw [lowBits_add]
  congr 1 <;> rw [lowBits_eq_iff] <;> intro i hi
  · have hv' : v.testBit (fromBits + i) = false := testBit_eq_false_of_lt hv (by omega)
    rw [Nat.testBit_shiftRight, Nat.testBit_or, Nat.testBit_mod_two_pow, Nat.testBit_shiftLeft, hv']
    simp [show fromBits + i < 32 by omega]
  · rw [Nat.testBit_or, Nat.testBit_mod_two_pow, Nat.testBit_shiftLeft]
    simp [show ¬ fromBits ≤ i by omega]

theorem convertStep_error {fromBits toBits : Nat} {s : ConvertState} {v : Nat}
    (hv : 2 ^ fromBits ≤ v) : convertStep fromBits toBits s v = .error (.invalidData v) := by
  have : v >>> fromBits ≠ 0 := by
    rw [Nat.shiftRight_eq_div_pow]; exact (Nat.div_pos hv (Nat.two_pow_pos _)).ne'
  simp [convertStep, this]

section Loop

variable {fromBits toBits : Nat} (hf : fromBits ≤ 8) (ht0 : 0 < toBits) (ht : toBits ≤ 8)
include hf ht0 ht

theorem convertStep_ok {s : ConvertState} {pre : List Nat} {v : Nat}
    (hs : s.Represents fromBits toBits pre) (hv : v < 2 ^ fromBits) :
    ∃ s', convertStep fromBits toBits s v = .ok s' ∧ s'.Represents fromBits toBits (pre ++ [v]) := by
  have hv0 : v >>> fromBits = 0 := by rw [Nat.shiftRight_eq_div_pow]; exact Nat.div_eq_of_lt hv
  set acc := ((s.acc <<< fromBits) % 2 ^ 32) ||| v with hacc
  set d := drain toBits acc (s.bits + fromBits) (s.bits + fromBits) s.ret with hd
  obtain ⟨h1, h2⟩ := @drain_spec _ acc ht0 ht (s.bits + fromBits) (s.bits + fromBits) s.ret le_rfl
  refine ⟨⟨acc, d.1, d.2⟩, ?_, h1, ?_⟩
  · unfold convertStep; rw [if_neg (by simp [hv0])]
  · rw [h2, lowBits_shiftIn hv (by have := hs.1; omega), ← List.append_assoc, hs.2,
      bitsOf_append, bitsOf_cons, bitsOf_nil, List.append_nil]

/-- **The `convert_bits` loop.** It reads every value when all fit in `from` bits, and what it
keeps then represents all of them. -/
theorem foldlM_convertStep_ok : ∀ (data : List Nat) (s : ConvertState) (pre : List Nat),
    s.Represents fromBits toBits pre → (∀ v ∈ data, v < 2 ^ fromBits) →
      ∃ s', data.foldlM (convertStep fromBits toBits) s = .ok s' ∧
        s'.Represents fromBits toBits (pre ++ data)
  | [], s, pre, hs, _ => ⟨s, rfl, by simpa using hs⟩
  | v :: data, s, pre, hs, hv => by
    obtain ⟨s₁, h₁, hs₁⟩ := convertStep_ok hf ht0 ht hs (hv v (by simp))
    obtain ⟨s', h', hs'⟩ :=
      foldlM_convertStep_ok data s₁ (pre ++ [v]) hs₁ (fun w hw => hv w (by simp [hw]))
    exact ⟨s', by rw [List.foldlM_cons, h₁, except_ok_bind, h'], by simpa using hs'⟩

/-- A loop that ends normally has read only values that fit in `from` bits. -/
theorem foldlM_convertStep_eq_ok : ∀ {data : List Nat} {s s' : ConvertState} {pre : List Nat},
    s.Represents fromBits toBits pre → data.foldlM (convertStep fromBits toBits) s = .ok s' →
      (∀ v ∈ data, v < 2 ^ fromBits) ∧ s'.Represents fromBits toBits (pre ++ data)
  | [], s, s', pre, hs, h => by
    cases h; exact ⟨by simp, by simpa using hs⟩
  | v :: data, s, s', pre, hs, h => by
    by_cases hv : v < 2 ^ fromBits
    · obtain ⟨s₁, h₁, hs₁⟩ := convertStep_ok hf ht0 ht hs hv
      rw [List.foldlM_cons, h₁, except_ok_bind] at h
      obtain ⟨hd, hs'⟩ := foldlM_convertStep_eq_ok hs₁ h
      exact ⟨List.forall_mem_cons.2 ⟨hv, hd⟩, by simpa using hs'⟩
    · rw [List.foldlM_cons, convertStep_error (by omega)] at h
      cases h

end Loop

/-- The padding check of `convert_bits` with `to = 8`: the pending bits shifted to the top of a
byte are zero exactly when they are all zero. -/
theorem padding_eq_zero_iff {acc bits : Nat} (hb : bits ≤ 8) :
    ((acc <<< (8 - bits)) % 2 ^ 32) &&& (2 ^ 8 - 1) = 0 ↔
      lowBits bits acc = List.replicate bits false := by
  rw [lowBits_eq_replicate_iff]
  constructor
  · intro h i hi
    have := congrArg (Nat.testBit · (8 - bits + i)) h
    simp only [Nat.testBit_land, Nat.testBit_mod_two_pow, Nat.testBit_shiftLeft,
      Nat.testBit_two_pow_sub_one, Nat.zero_testBit] at this
    simpa [show 8 - bits + i < 32 by omega, show 8 - bits + i < 8 by omega] using this
  · intro h
    refine Nat.eq_of_testBit_eq fun j => ?_
    simp only [Nat.testBit_land, Nat.testBit_mod_two_pow, Nat.testBit_shiftLeft,
      Nat.testBit_two_pow_sub_one, Nat.zero_testBit]
    by_cases hj : 8 - bits ≤ j ∧ j < 8
    · simp [h (j - (8 - bits)) (by omega)]
    · by_cases hj8 : j < 8 <;> simp_all

/-- **`from_base32`.** It succeeds exactly on 5-bit values whose bits are a byte string
followed by fewer than five zero bits, and returns that byte string. -/
theorem fromBase32_eq_ok_iff {data : List Nat} {bs : List UInt8} :
    fromBase32 data = .ok bs ↔
      (∀ v ∈ data, v < 32) ∧ ∃ p < 5, bitsOf 5 data = byteBits bs ++ List.replicate p false := by
  have h0 : ConvertState.Represents 5 8 ⟨0, 0, []⟩ [] := ⟨by decide, rfl⟩
  unfold fromBase32 convertBits
  constructor
  · intro h
    obtain ⟨s, hs, h⟩ := except_bind_eq_ok.1 h
    obtain ⟨hv, hb, hrep⟩ := foldlM_convertStep_eq_ok (by decide) (by decide) le_rfl h0 hs
    simp only [Bool.false_eq_true, if_false] at h
    split_ifs at h with h1 h2
    cases h
    simp only [List.nil_append] at hrep
    refine ⟨hv, s.bits, by omega, ?_⟩
    rw [← (padding_eq_zero_iff (by omega)).1 (not_not.1 h2), ← hrep]
    rfl
  · rintro ⟨hv, p, hp, hbits⟩
    obtain ⟨s, hs, hb, hrep⟩ := foldlM_convertStep_ok (by decide) (by decide) le_rfl data _ [] h0 hv
    rw [hs, except_ok_bind]
    simp only [List.nil_append] at hrep
    rw [hbits] at hrep
    have hlen := congrArg List.length hrep
    simp only [List.length_append, bitsOf_length, lowBits_length, List.length_replicate,
      byteBits_length, List.length_map] at hlen
    have hbp : s.bits = p := by omega
    obtain ⟨hret, hpad⟩ := List.append_inj hrep (by simp; omega)
    have hret' : s.ret = bs := by
      have := @bitsOf_inj 8 (by decide) _ _ (by simpa using fun a _ => UInt8.toNat_lt_size a)
        (by simpa using fun a _ => UInt8.toNat_lt_size a) hret
      exact List.map_injective_iff.2 (fun a b h => UInt8.toNat.inj h) this
    rw [hbp] at hpad
    simp only [Bool.false_eq_true, if_false, show ¬ 5 ≤ s.bits by omega,
      (padding_eq_zero_iff (by omega)).2 (hbp ▸ hpad), hret']
    rfl

/-! ### `to_base32` -/

/-- A `u8` result: `<<` on a `u8` drops the bits shifted past the top. -/
def wrapU8 (n : Nat) : Nat := n % 2 ^ 8

@[simp] theorem testBit_wrapU8 (n i : Nat) : (wrapU8 n).testBit i = (decide (i < 8) && n.testBit i) :=
  Nat.testBit_mod_two_pow n 8 i

/-- The variables of `write_base32` between bytes: the 5-bit groups written so far, and the
`u8` `buffer` whose top `buffer_bits` bits are pending. -/
structure Base32State where
  out : List Nat
  buffer : Nat
  bufferBits : Nat

/-- `if buffer_bits >= 5`: write the top five bits of the buffer and shift them out. -/
def flushFive (s : Base32State) : Base32State :=
  if 5 ≤ s.bufferBits then
    ⟨s.out ++ [(s.buffer &&& 0b11111000) >>> 3], wrapU8 (s.buffer <<< 5), s.bufferBits - 5⟩
  else s

/-- One turn of the `for &b in self` loop of `write_base32`: the pending bits and the top
`5 - buffer_bits` bits of `b` make a group, and the rest of `b` is pending. -/
def base32Step (s : Base32State) (b : UInt8) : Base32State :=
  let s := flushFive s
  let fromBuffer := s.buffer >>> 3
  let fromByte := b.toNat >>> (3 + s.bufferBits)
  ⟨s.out ++ [fromBuffer ||| fromByte], wrapU8 (b.toNat <<< (5 - s.bufferBits)), s.bufferBits + 3⟩

/-- `ToBase32 for [u8]`: `to_base32`, through `write_base32`; the last group is padded with
zero bits. -/
def toBase32 (bytes : List UInt8) : List Nat :=
  let s := flushFive (bytes.foldl base32Step ⟨[], 0, 0⟩)
  if s.bufferBits ≠ 0 then s.out ++ [s.buffer >>> 3] else s.out

/-- What `write_base32` keeps after the bytes `pre`: the groups written are 5-bit, the buffer
is a `u8` whose bits below the pending ones are zero, and the groups and the pending bits are
the bits of `pre`. -/
def Base32State.Holds (s : Base32State) (pre : List UInt8) : Prop :=
  s.buffer < 2 ^ 8 ∧ s.bufferBits ≤ 7 ∧ (∀ i < 8 - s.bufferBits, s.buffer.testBit i = false) ∧
    (∀ g ∈ s.out, g < 32) ∧
    bitsOf 5 s.out ++ lowBits s.bufferBits (s.buffer >>> (8 - s.bufferBits)) = byteBits pre

theorem flushFive_holds {s : Base32State} {pre : List UInt8} (hs : s.Holds pre) :
    (flushFive s).Holds pre ∧ (flushFive s).bufferBits ≤ 4 := by
  obtain ⟨hbuf, hbb, hlow, hout, hbits⟩ := hs
  by_cases h5 : 5 ≤ s.bufferBits
  · rw [flushFive, if_pos h5]
    refine ⟨⟨Nat.mod_lt _ (Nat.two_pow_pos 8), by dsimp only; omega, fun i hi => ?_, ?_, ?_⟩,
      by dsimp only; omega⟩ <;> dsimp only at *
    · rw [testBit_wrapU8, Nat.testBit_shiftLeft]
      by_cases hi5 : 5 ≤ i
      · simp [hlow (i - 5) (by omega)]
      · simp [hi5]
    · have h248 : s.buffer &&& 0b11111000 ≤ 0b11111000 := Nat.and_le_right
      rw [Nat.shiftRight_eq_div_pow] at *
      exact List.forall_mem_append.2 ⟨hout, by simp; omega⟩
    · rw [← hbits, bitsOf_append, List.append_assoc, bitsOf_cons, bitsOf_nil, List.append_nil]
      congr 1
      have hsplit := lowBits_add (s.bufferBits - 5) (s.buffer >>> (8 - s.bufferBits)) 5
      rw [Nat.add_sub_of_le h5] at hsplit
      rw [hsplit]
      congr 1 <;> rw [lowBits_eq_iff] <;> intro i hi
      · have h248 : ∀ i < 5, Nat.testBit 0b11111000 (3 + i) = true := by decide
        rw [Nat.testBit_shiftRight, Nat.testBit_land, h248 i hi, Bool.and_true,
          Nat.testBit_shiftRight, Nat.testBit_shiftRight,
          show 8 - s.bufferBits + (s.bufferBits - 5 + i) = 3 + i by omega]
      · rw [Nat.testBit_shiftRight, testBit_wrapU8, Nat.testBit_shiftLeft, Nat.testBit_shiftRight,
          show 8 - (s.bufferBits - 5) + i - 5 = 8 - s.bufferBits + i by omega]
        simp [show 8 - (s.bufferBits - 5) + i < 8 by omega, show 5 ≤ 8 - (s.bufferBits - 5) + i by omega]
  · rw [flushFive, if_neg h5]
    exact ⟨⟨hbuf, hbb, hlow, hout, hbits⟩, by omega⟩

theorem base32Step_holds {s : Base32State} {pre : List UInt8} (b : UInt8) (hs : s.Holds pre) :
    (base32Step s b).Holds (pre ++ [b]) := by
  obtain ⟨⟨hbuf, hbb, hlow, hout, hbits⟩, h4⟩ := flushFive_holds hs
  have hb : b.toNat < 2 ^ 8 := UInt8.toNat_lt_size b
  simp only [base32Step]
  generalize flushFive s = t at *
  refine ⟨Nat.mod_lt _ (Nat.two_pow_pos 8), by dsimp only; omega, fun i hi => ?_, ?_, ?_⟩ <;>
    dsimp only at *
  · rw [testBit_wrapU8, Nat.testBit_shiftLeft]
    simp [show ¬ 5 - t.bufferBits ≤ i by omega]
  · have h1 : t.buffer >>> 3 < 2 ^ 5 := by rw [Nat.shiftRight_eq_div_pow]; omega
    have h2 : b.toNat >>> (3 + t.bufferBits) < 2 ^ 5 := by
      rw [Nat.shiftRight_eq_div_pow]
      exact Nat.div_lt_of_lt_mul (lt_of_lt_of_le hb (by
        rw [← Nat.pow_add]; exact Nat.pow_le_pow_right Nat.two_pos (by omega)))
    exact List.forall_mem_append.2 ⟨hout, by simpa using Nat.or_lt_two_pow h1 h2⟩
  · rw [byteBits_append, ← hbits, bitsOf_append, List.append_assoc, List.append_assoc]
    congr 1
    simp only [bitsOf_cons, bitsOf_nil, List.append_nil]
    have hsplit5 := lowBits_add (5 - t.bufferBits)
      ((t.buffer >>> 3) ||| (b.toNat >>> (3 + t.bufferBits))) t.bufferBits
    have hsplit8 := lowBits_add (3 + t.bufferBits) b.toNat (5 - t.bufferBits)
    rw [Nat.add_sub_of_le (by omega)] at hsplit5
    rw [show 5 - t.bufferBits + (3 + t.bufferBits) = 8 by omega] at hsplit8
    have e1 : lowBits t.bufferBits
        (((t.buffer >>> 3) ||| (b.toNat >>> (3 + t.bufferBits))) >>> (5 - t.bufferBits)) =
        lowBits t.bufferBits (t.buffer >>> (8 - t.bufferBits)) := by
      rw [lowBits_eq_iff]; intro i hi
      rw [Nat.testBit_shiftRight, Nat.testBit_or, Nat.testBit_shiftRight, Nat.testBit_shiftRight,
        Nat.testBit_shiftRight, testBit_eq_false_of_lt hb (by omega), Bool.or_false,
        show 3 + (5 - t.bufferBits + i) = 8 - t.bufferBits + i by omega]
    have e2 : lowBits (5 - t.bufferBits) ((t.buffer >>> 3) ||| (b.toNat >>> (3 + t.bufferBits))) =
        lowBits (5 - t.bufferBits) (b.toNat >>> (3 + t.bufferBits)) := by
      rw [lowBits_eq_iff]; intro i hi
      rw [Nat.testBit_or, Nat.testBit_shiftRight, hlow _ (by omega), Bool.false_or]
    have e3 : lowBits (t.bufferBits + 3)
        (wrapU8 (b.toNat <<< (5 - t.bufferBits)) >>> (8 - (t.bufferBits + 3))) =
        lowBits (3 + t.bufferBits) b.toNat := by
      rw [Nat.add_comm 3 t.bufferBits, lowBits_eq_iff]; intro i hi
      rw [Nat.testBit_shiftRight, testBit_wrapU8, Nat.testBit_shiftLeft,
        show 8 - (t.bufferBits + 3) + i - (5 - t.bufferBits) = i by omega,
        decide_eq_true (show 8 - (t.bufferBits + 3) + i < 8 by omega),
        decide_eq_true (show 8 - (t.bufferBits + 3) + i ≥ 5 - t.bufferBits by omega),
        Bool.true_and, Bool.true_and]
    rw [hsplit5, hsplit8, e1, e2, e3, List.append_assoc]

theorem foldl_base32Step_holds :
    ∀ (bs : List UInt8) (s : Base32State) (pre : List UInt8), s.Holds pre →
      (bs.foldl base32Step s).Holds (pre ++ bs)
  | [], s, pre, hs => by simpa using hs
  | b :: bs, s, pre, hs => by
    simpa using foldl_base32Step_holds bs _ _ (base32Step_holds b hs)

/-- **`to_base32`.** Its groups are 5-bit, and their bits are the bytes' bits followed by
fewer than five zero bits. -/
theorem toBase32_spec (bs : List UInt8) :
    (∀ g ∈ toBase32 bs, g < 32) ∧
      ∃ p < 5, bitsOf 5 (toBase32 bs) = byteBits bs ++ List.replicate p false := by
  have h0 : Base32State.Holds ⟨[], 0, 0⟩ [] := ⟨by decide, by decide, by simp, by simp, rfl⟩
  obtain ⟨⟨hbuf, -, hlow, hout, hbits⟩, h4⟩ :=
    flushFive_holds (foldl_base32Step_holds bs _ [] h0)
  simp only [List.nil_append] at hbits
  unfold toBase32
  generalize flushFive (bs.foldl base32Step ⟨[], 0, 0⟩) = t at *
  dsimp only
  split_ifs with hbb
  · refine ⟨List.forall_mem_append.2 ⟨hout, ?_⟩, 5 - t.bufferBits, by omega, ?_⟩
    · have : t.buffer >>> 3 < 32 := by rw [Nat.shiftRight_eq_div_pow]; omega
      simpa using this
    · have hsplit := lowBits_add (5 - t.bufferBits) (t.buffer >>> 3) t.bufferBits
      rw [Nat.add_sub_of_le (by omega)] at hsplit
      rw [bitsOf_append, bitsOf_cons, bitsOf_nil, List.append_nil, hsplit, ← List.append_assoc]
      congr 1
      · rw [← hbits]; congr 1
        rw [lowBits_eq_iff]; intro i hi
        rw [Nat.testBit_shiftRight, Nat.testBit_shiftRight, Nat.testBit_shiftRight,
          show 3 + (5 - t.bufferBits + i) = 8 - t.bufferBits + i by omega]
      · rw [lowBits_eq_replicate_iff]; intro i hi
        rw [Nat.testBit_shiftRight, hlow _ (by omega)]
  · refine ⟨hout, 0, by omega, ?_⟩
    rw [← hbits, not_not.1 hbb]; simp

/-- **The round trip of the regrouping**: `from_base32(to_base32(bytes)) = Ok(bytes)`, for
every byte string, whatever its length modulo five. -/
theorem fromBase32_toBase32 (bs : List UInt8) : fromBase32 (toBase32 bs) = .ok bs :=
  fromBase32_eq_ok_iff.2 (toBase32_spec bs)

/-- `from_base32` is strict: whatever it accepts is the regrouping of the bytes it returns. -/
theorem toBase32_of_fromBase32 {data : List Nat} {bs : List UInt8} (h : fromBase32 data = .ok bs) :
    toBase32 bs = data := by
  obtain ⟨hv, p, hp, hd⟩ := fromBase32_eq_ok_iff.1 h
  obtain ⟨hv', q, hq, ht⟩ := toBase32_spec bs
  have hl := congrArg List.length hd
  have hl' := congrArg List.length ht
  simp only [bitsOf_length, List.length_append, byteBits_length, List.length_replicate] at hl hl'
  have hpq : p = q := by omega
  subst hpq
  exact bitsOf_inj (by decide) hv' hv (ht.trans hd.symm)

end SnarkVM.Bech32
