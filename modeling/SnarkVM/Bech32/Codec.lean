import SnarkVM.Bech32.Base32
import SnarkVM.Bech32.Checksum

/-!
The strings of the `bech32` crate. `encode` writes the human-readable part, the separator `1`,
the data and the checksum as characters of `CHARSET`; `decode` splits at the last `1`, checks
the human-readable part and the case of the data, and reads the variant off the checksum.

`decode_encode` is the round trip from data to a string and back. `encode_of_decode` goes the
other way: a string that decodes is, up to letter case, the encoding of what it decodes to,
because only the checksum `encode` writes passes `verify_checksum`.
-/

namespace SnarkVM.Bech32

/-- `CHARSET`: the data characters, in the order of their values. -/
def CHARSET : List Char := "qpzry9x8gf2tvdw0s3jn54khce6mua7l".toList

/-- `SEP`. -/
def SEP : Char := '1'

/-- `CHECKSUM_LENGTH`. -/
def CHECKSUM_LENGTH : Nat := 6

/-- `u5::to_char`: `CHARSET[v]`. -/
def toChar (v : Nat) : Char := CHARSET.getD v 'q'

/-- `CHARSET_REV[c as usize]` for an ASCII `c`: the value of a data character, in either case. -/
def charsetRev (c : Char) : Option Nat := CHARSET.indexOf? c.toLower

/-- The bytes of a `str`. -/
def strBytes (s : List Char) : List Nat := (s.flatMap String.utf8EncodeChar).map UInt8.toNat

/-- `Case`: the letter case a string has shown so far. -/
inductive Case
  | upper
  | lower
  | none
  deriving DecidableEq, Repr

/-- The loop of `check_hrp` over the bytes, with `has_lower` and `has_upper`. -/
def checkHrpBytes : List Nat → Bool → Bool → Except Error Case
  | [], hasLower, hasUpper =>
    .ok (if hasUpper then .upper else if hasLower then .lower else .none)
  | b :: bs, hasLower, hasUpper =>
    if ¬ (33 ≤ b ∧ b ≤ 126) then .error (.invalidChar (Char.ofNat b))
    else
      let hasLower' := hasLower || (97 ≤ b && b ≤ 122)
      let hasUpper' := hasUpper || (!(97 ≤ b && b ≤ 122) && 65 ≤ b && b ≤ 90)
      if hasLower' && hasUpper' then .error .mixedCase else checkHrpBytes bs hasLower' hasUpper'

/-- `check_hrp`: one to 83 bytes, each printable ASCII, not of both cases. -/
def checkHrp (hrp : List Char) : Except Error Case :=
  if strBytes hrp = [] ∨ 83 < (strBytes hrp).length then .error .invalidLength
  else checkHrpBytes (strBytes hrp) false false

/-- `s.rfind(SEP)` and `split_at`: the parts before and after the last separator. -/
def splitAtLastSep : List Char → Option (List Char × List Char)
  | [] => none
  | c :: cs =>
    match splitAtLastSep cs with
    | some (pre, post) => some (c :: pre, post)
    | none => if c = SEP then some ([], cs) else none

/-- One character of the data part in `split_and_decode`: ASCII, of the case seen so far, and a
data character. -/
def decodeDataChar (case : Case) (c : Char) : Except Error (Case × Nat) := do
  if ¬ c.toNat < 128 then throw (.invalidChar c)
  let case ←
    if c.isLower then (if case = .upper then throw .mixedCase else pure .lower)
    else if c.isUpper then (if case = .lower then throw .mixedCase else pure .upper)
    else pure case
  match charsetRev c with
  | some v => pure (case, v)
  | none => throw (.invalidChar c)

/-- The data part of `split_and_decode`, character by character. -/
def decodeData : Case → List Char → Except Error (List Nat)
  | _, [] => .ok []
  | case, c :: cs => do
    let (case, v) ← decodeDataChar case c
    let vs ← decodeData case cs
    pure (v :: vs)

/-- `split_and_decode`: the lowercase human-readable part and the values of the data part. -/
def splitAndDecode (s : List Char) : Except Error (List Char × List Nat) :=
  match splitAtLastSep s with
  | none => .error .missingSeparator
  | some (rawHrp, rawData) => do
    let case ← checkHrp rawHrp
    let hrpLower := if case = .upper then rawHrp.map Char.toLower else rawHrp
    let data ← decodeData case rawData
    pure (hrpLower, data)

/-- `bech32::decode`: the human-readable part, the data without its checksum, and the variant. -/
def decode (s : List Char) : Except Error (List Char × List Nat × Variant) := do
  let (hrpLower, data) ← splitAndDecode s
  if data.length < CHECKSUM_LENGTH then throw .invalidLength
  match verifyChecksum (strBytes hrpLower) data with
  | some variant => pure (hrpLower, data.take (data.length - CHECKSUM_LENGTH), variant)
  | none => throw .invalidChecksum

/-- `bech32::encode`, through the `Bech32Writer`: the human-readable part in lowercase, `1`,
the data, and the checksum of both. -/
def encode (hrp : List Char) (data : List Nat) (variant : Variant) : Except Error (List Char) := do
  let case ← checkHrp hrp
  let hrpLower := if case = .upper then hrp.map Char.toLower else hrp
  let chk := polymod (hrpExpand (strBytes hrpLower) ++ data)
  pure (hrpLower ++ SEP :: (data ++ checksum chk variant).map toChar)

/-! ### The data characters -/

theorem toChar_spec : ∀ v < 32, charsetRev (toChar v) = some v ∧ (toChar v).isUpper = false ∧
    (toChar v).toNat < 128 ∧ toChar v ≠ SEP := by
  decide

theorem getElem?_of_indexOf? {l : List Char} {c : Char} :
    ∀ {v : Nat}, l.indexOf? c = some v → l[v]? = some c := by
  induction l with
  | nil => simp [List.indexOf?]
  | cons d l ih =>
    intro v h
    simp only [List.indexOf?, List.findIdx?_cons] at h
    split_ifs at h with hd
    · cases h; simpa using beq_iff_eq.1 hd
    · cases v with
      | zero => simp at h
      | succ v => simpa using ih (by simpa [List.indexOf?, Option.map_eq_some'] using h)

theorem charsetRev_spec {c : Char} {v : Nat} (h : charsetRev c = some v) :
    v < 32 ∧ toChar v = c.toLower := by
  have h' := getElem?_of_indexOf? h
  have hv : v < CHARSET.length := (List.getElem?_eq_some_iff.1 h').1
  exact ⟨hv, by simp [toChar, List.getD_eq_getElem?_getD, h']⟩

/-! ### The last separator -/

theorem splitAtLastSep_eq_none {l : List Char} : splitAtLastSep l = none ↔ SEP ∉ l := by
  induction l with
  | nil => simp [splitAtLastSep]
  | cons c l ih =>
    simp only [splitAtLastSep, List.mem_cons, not_or]
    cases h : splitAtLastSep l with
    | some p => simp_all
    | none => simp only [ih.1 h, not_false_eq_true, and_true]; split_ifs <;> simp_all [eq_comm]

theorem splitAtLastSep_append {post : List Char} (h : SEP ∉ post) :
    ∀ pre, splitAtLastSep (pre ++ SEP :: post) = some (pre, post)
  | [] => by simp [splitAtLastSep, splitAtLastSep_eq_none.2 h]
  | c :: pre => by simp [splitAtLastSep, splitAtLastSep_append h pre]

theorem eq_of_splitAtLastSep : ∀ {l pre post : List Char}, splitAtLastSep l = some (pre, post) →
    l = pre ++ SEP :: post ∧ SEP ∉ post
  | [], _, _, h => by simp [splitAtLastSep] at h
  | c :: l, pre, post, h => by
    simp only [splitAtLastSep] at h
    cases hl : splitAtLastSep l with
    | some p =>
      rw [hl] at h
      obtain ⟨rfl, rfl⟩ := Prod.mk.inj (Option.some.inj h)
      obtain ⟨h1, h2⟩ := eq_of_splitAtLastSep hl
      exact ⟨by simp [h1], h2⟩
    | none =>
      rw [hl] at h
      split_ifs at h with hc
      obtain ⟨rfl, rfl⟩ := Prod.mk.inj (Option.some.inj h)
      exact ⟨by simp [hc], splitAtLastSep_eq_none.1 hl⟩

end SnarkVM.Bech32

namespace SnarkVM.Bech32

/-! ### The data part -/

theorem decodeDataChar_toChar {case : Case} (hc : case ≠ .upper) {v : Nat} (hv : v < 32) :
    ∃ case', case' ≠ .upper ∧ decodeDataChar case (toChar v) = .ok (case', v) := by
  obtain ⟨hrev, hup, hlt, -⟩ := toChar_spec v hv
  by_cases hlow : (toChar v).isLower
  · exact ⟨.lower, by decide, by simp [decodeDataChar, hlt, hlow, hc, hrev]⟩
  · exact ⟨case, hc, by simp [decodeDataChar, hlt, hlow, hup, hrev]⟩

theorem charsetRev_of_decodeDataChar {case case' : Case} {c : Char} {v : Nat}
    (h : decodeDataChar case c = .ok (case', v)) : charsetRev c = some v := by
  unfold decodeDataChar at h
  split_ifs at h <;> simp only [except_throw, except_error_bind, except_ok_bind, except_pure] at h
  all_goals (try split at h) <;> simp_all

theorem decodeData_map_toChar : ∀ {case : Case} (vs : List Nat), case ≠ .upper →
    (∀ v ∈ vs, v < 32) → decodeData case (vs.map toChar) = .ok vs
  | _, [], _, _ => rfl
  | _, v :: vs, hc, hv => by
    obtain ⟨case', hc', h⟩ := decodeDataChar_toChar hc (hv v (List.mem_cons_self _ _))
    simp [decodeData, h, decodeData_map_toChar vs hc' fun w hw => hv w (List.mem_cons_of_mem _ hw)]

theorem decodeData_spec : ∀ {case : Case} {cs : List Char} {vs : List Nat},
    decodeData case cs = .ok vs → vs.map toChar = cs.map Char.toLower ∧ ∀ v ∈ vs, v < 32
  | _, [], _, h => by cases h; simp
  | _, c :: cs, vs, h => by
    obtain ⟨⟨case', v⟩, h1, h2⟩ := except_bind_eq_ok.1 h
    obtain ⟨ws, h3, h4⟩ := except_bind_eq_ok.1 h2
    cases h4
    obtain ⟨hv, hc⟩ := charsetRev_spec (charsetRev_of_decodeDataChar h1)
    obtain ⟨ih1, ih2⟩ := decodeData_spec h3
    exact ⟨by simp [hc, ih1], by simpa [hv] using ih2⟩

/-! ### Round trips -/

theorem checksum_lt (chk : Nat) (variant : Variant) : ∀ v ∈ checksum chk variant, v < 32 :=
  groups_lt 6 _

theorem checksum_length (chk : Nat) (variant : Variant) : (checksum chk variant).length = 6 :=
  groups_length 6 _

/-- **Decoding inverts encoding**: a human-readable part that `check_hrp` accepts and does not
report as uppercase, with 5-bit data, comes back from the string `encode` writes. -/
theorem decode_encode {hrp : List Char} {c : Case} (hc : checkHrp hrp = .ok c) (hcu : c ≠ .upper)
    {data : List Nat} (hd : ∀ v ∈ data, v < 32) (variant : Variant) :
    ∃ s, encode hrp data variant = .ok s ∧ decode s = .ok (hrp, data, variant) := by
  set cs := data ++ checksum (polymod (hrpExpand (strBytes hrp) ++ data)) variant with hcs
  have hcs32 : ∀ v ∈ cs, v < 32 := by
    simpa [cs, or_imp, forall_and] using ⟨hd, checksum_lt _ _⟩
  have hsep : SEP ∉ cs.map toChar := by
    simp only [List.mem_map, not_exists, not_and]
    exact fun v hv => (toChar_spec v (hcs32 v hv)).2.2.2
  refine ⟨hrp ++ SEP :: cs.map toChar, by simp [encode, hc, hcu, cs], ?_⟩
  have hsplit : splitAndDecode (hrp ++ SEP :: cs.map toChar) = .ok (hrp, cs) := by
    simp [splitAndDecode, splitAtLastSep_append hsep, hc, hcu, decodeData_map_toChar cs hcu hcs32]
  have hlen : cs.length - CHECKSUM_LENGTH = data.length := by
    simp [cs, checksum_length, CHECKSUM_LENGTH]
  have hver : verifyChecksum (strBytes hrp) cs = some variant := by
    rw [verifyChecksum, hcs, ← List.append_assoc, fromRemainder_checksum]
  have hlen6 : ¬ cs.length < CHECKSUM_LENGTH := by simp [cs, checksum_length, CHECKSUM_LENGTH]
  simp only [decode, hsplit, except_ok_bind, hver, hlen, hlen6, if_false]
  simp [cs]

theorem splitAndDecode_spec {s hrp : List Char} {cs : List Nat}
    (h : splitAndDecode s = .ok (hrp, cs)) (hl : hrp.map Char.toLower = hrp) :
    s.map Char.toLower = hrp ++ SEP :: cs.map toChar ∧ ∀ v ∈ cs, v < 32 := by
  unfold splitAndDecode at h
  split at h
  · cases h
  · rename_i rawHrp rawData hsplit
    obtain ⟨case, -, h⟩ := except_bind_eq_ok.1 h
    obtain ⟨vs, hd, h⟩ := except_bind_eq_ok.1 h
    cases h
    obtain ⟨rfl, -⟩ := eq_of_splitAtLastSep hsplit
    obtain ⟨hmap, hlt⟩ := decodeData_spec hd
    have hsep : SEP.toLower = SEP := by decide
    refine ⟨?_, hlt⟩
    split_ifs at hl ⊢ <;> simp [hsep, hmap, hl]

/-- A string that decodes is, in lowercase, its human-readable part, the separator and the
characters of at least six 5-bit values that pass the checksum; the data is those values but the
last six. -/
theorem decode_eq_ok_chars {s hrp : List Char} {data : List Nat} {variant : Variant}
    (h : decode s = .ok (hrp, data, variant)) (hl : hrp.map Char.toLower = hrp) :
    ∃ cs, s.map Char.toLower = hrp ++ SEP :: cs.map toChar ∧ (∀ v ∈ cs, v < 32) ∧
      6 ≤ cs.length ∧ data = cs.take (cs.length - 6) ∧
      verifyChecksum (strBytes hrp) cs = some variant := by
  obtain ⟨⟨hrp', cs⟩, hsd, h⟩ := except_bind_eq_ok.1 h
  simp only [CHECKSUM_LENGTH] at h
  split_ifs at h with hlen
  · cases h
  simp only [except_pure, except_ok_bind] at h
  split at h
  · rename_i v hv
    cases h
    obtain ⟨hs, hlt⟩ := splitAndDecode_spec hsd hl
    exact ⟨cs, hs, hlt, Nat.le_of_not_lt hlen, rfl, hv⟩
  · cases h

/-- **Only encodings decode**: a string that decodes, to a human-readable part in lowercase
that `check_hrp` does not report as uppercase, is in lowercase the string `encode` writes for
what it decoded to. -/
theorem encode_of_decode {s hrp : List Char} {data : List Nat} {variant : Variant}
    (h : decode s = .ok (hrp, data, variant)) (hl : hrp.map Char.toLower = hrp) {c : Case}
    (hc : checkHrp hrp = .ok c) (hcu : c ≠ .upper) :
    encode hrp data variant = .ok (s.map Char.toLower) ∧ ∀ v ∈ data, v < 32 := by
  obtain ⟨cs, hs, hlt, hlen, rfl, hv⟩ := decode_eq_ok_chars h hl
  have hcs := List.take_append_drop (cs.length - 6) cs
  have hlast : cs.drop (cs.length - 6) =
      checksum (polymod (hrpExpand (strBytes hrp) ++ cs.take (cs.length - 6))) variant := by
    refine eq_checksum_of_fromRemainder (by simp; omega) (fun v hv => hlt v (List.mem_of_mem_drop hv)) ?_
    rwa [List.append_assoc, hcs]
  refine ⟨?_, fun v hv => hlt v (List.mem_of_mem_take hv)⟩
  have hmap : cs.map toChar = (cs.take (cs.length - 6) ++ checksum (polymod
      (hrpExpand (strBytes hrp) ++ cs.take (cs.length - 6))) variant).map toChar := by
    rw [← hlast, hcs]
  rw [hs, hmap]
  simp [encode, hc, hcu]

/-- Values below `32` are told apart by their characters. -/
theorem map_toChar_inj {l₁ l₂ : List Nat} (h₁ : ∀ v ∈ l₁, v < 32) (h₂ : ∀ v ∈ l₂, v < 32)
    (h : l₁.map toChar = l₂.map toChar) : l₁ = l₂ :=
  Except.ok.inj <| (@decodeData_map_toChar .lower l₁ (by decide) h₁).symm.trans
    (h ▸ @decodeData_map_toChar .lower l₂ (by decide) h₂)

end SnarkVM.Bech32
