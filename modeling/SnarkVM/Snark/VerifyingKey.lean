import SnarkVM.Bech32.Codec
import SnarkVM.Nom

/-!
A verifying key as a string (`synthesizer/snark/src/verifying_key/parse.rs`). `Display` writes
the key's bytes, regrouped into 5-bit values, as a bech32m string under the human-readable part
`verifier`. `FromStr` decodes such a string, checks the prefix, that the data is not empty and
the variant, and reads a key from the regrouped bytes. `Parser::parse` recognises the longest
prefix `verifier1` followed by data characters, each with any number of underscores after it,
and hands it to `from_str` with the underscores removed.

The key's byte format (`to_bytes_le`, and `read_le` over a byte slice) is not in this source:
`KeyCodec` stands for it, and `read_le` returns with the key the bytes it left unread, since
`from_str` does not look at them.

Main results: `Display` then `FromStr` gives the key back (`fromStr_fmt`); a string `from_str`
accepts is in lowercase the encoding of a byte string that `read_le` reads the key from
(`fromStr_eq_ok`), though possibly with bytes after the key (`fromStr_trailing_byte`); and
`parse` is the longest-prefix parser described above (`parse_spec`). And `from_str` rejects
every string one mistyped character away from one it accepts (`fromStr_rejects_substitution`).
-/

namespace SnarkVM.Snark

open Bech32 Nom

/-- The byte format of verifying keys: `ToBytes::to_bytes_le`, and `FromBytes::read_le` on a
byte slice, returning the key and the bytes after it. -/
structure KeyCodec (VK : Type) where
  toBytesLe : VK → Except String (List UInt8)
  readLe : List UInt8 → Except String (VK × List UInt8)
  /-- Every key is written as at least one byte: the format starts with a version byte. -/
  toBytesLe_ne_nil : ∀ {vk : VK} {bytes : List UInt8}, toBytesLe vk = .ok bytes → bytes ≠ []

/-- `VERIFYING_KEY`: the human-readable part. -/
def VERIFYING_KEY : List Char := "verifier".toList

namespace VerifyingKey

variable {VK : Type}

/-- `FromStr::from_str`. -/
def fromStr (c : KeyCodec VK) (key : List Char) : Except String VK := do
  let (hrp, data, variant) ← (Bech32.decode key).mapError Bech32.Error.toString
  if hrp ≠ VERIFYING_KEY then
    throw ("Failed to decode verifying key: \x27" ++ String.mk hrp ++ "\x27 is an invalid prefix")
  else if data = [] then
    throw "Failed to decode verifying key: data field is empty"
  else if variant ≠ .bech32m then
    throw ("Found a verifying key that is not bech32m encoded: " ++ String.mk key)
  let bytes ← (fromBase32 data).mapError Bech32.Error.toString
  let (vk, _) ← c.readLe bytes
  pure vk

/-- `Display::fmt`; `none` is `fmt::Error`. -/
def fmt (c : KeyCodec VK) (vk : VK) : Option (List Char) := do
  let bytes ← (c.toBytesLe vk).toOption
  let string ← (Bech32.encode VERIFYING_KEY (toBase32 bytes) .bech32m).toOption
  pure string

/-- `terminated(one_of("qpzry9x8gf2tvdw0s3jn54khce6mua7l"), many0(char('_')))`. -/
def dataChar : Parser Char :=
  terminated (oneOf "qpzry9x8gf2tvdw0s3jn54khce6mua7l".toList) (many0 (char '_'))

/-- `parse_key`: `recognize(pair(pair(tag(VERIFYING_KEY), tag("1")), many1(..)))`. -/
def parseKey : Parser (List Char) :=
  recognize (pair (pair (tag VERIFYING_KEY) (tag ['1'])) (many1 dataChar))

/-- `Parser::parse`: `from_str` on the recognised key without its underscores. -/
def parse (c : KeyCodec VK) : Parser VK :=
  mapRes parseKey fun key => fromStr c (key.filter (· ≠ '_'))

/-! ### The strings `parse` accepts, in the terms of the grammar -/

/-- One or more data characters, each followed by any number of underscores. -/
inductive KeyBody : List Char → Prop
  | one {c : Char} (hc : c ∈ CHARSET) (n : Nat) : KeyBody (c :: List.replicate n '_')
  | cons {c : Char} (hc : c ∈ CHARSET) (n : Nat) {u : List Char} (hu : KeyBody u) :
      KeyBody (c :: List.replicate n '_' ++ u)

/-- `verifier1` followed by a `KeyBody`. -/
def IsKeyPrefix (p : List Char) : Prop := ∃ u, p = VERIFYING_KEY ++ '1' :: u ∧ KeyBody u

/-- `p` is the longest prefix of `s` of the form `IsKeyPrefix`. -/
def IsLongestKeyPrefix (s p : List Char) : Prop :=
  p <+: s ∧ IsKeyPrefix p ∧ ∀ p', p' <+: s → IsKeyPrefix p' → p'.length ≤ p.length

/-- A character of a key body. -/
def isKeyChar (c : Char) : Bool := c ∈ CHARSET || c = '_'

theorem keyBody_underscore {c : Char} {w : List Char} (h : KeyBody (c :: w)) :
    KeyBody (c :: '_' :: w) := by
  cases h with
  | one hc n => exact KeyBody.one hc (n + 1)
  | cons hc n hu => exact KeyBody.cons hc (n + 1) hu

theorem keyBody_of_isKeyChar {c : Char} (hc : c ∈ CHARSET) {w : List Char}
    (hw : ∀ x ∈ w, isKeyChar x) : KeyBody (c :: w) := by
  induction w generalizing c with
  | nil => exact KeyBody.one hc 0
  | cons x w ih =>
    have hw' : ∀ y ∈ w, isKeyChar y := fun y hy => hw y (List.mem_cons_of_mem x hy)
    by_cases hx : x = '_'
    · subst hx
      exact keyBody_underscore (ih hc hw')
    · have hxc : x ∈ CHARSET := by simpa [isKeyChar, hx] using hw x (List.mem_cons_self x w)
      exact KeyBody.cons hc 0 (ih hxc hw')

/-- **The grammar, flattened**: a key body is a data character followed by data characters and
underscores. -/
theorem keyBody_iff {u : List Char} :
    KeyBody u ↔ ∃ c w, u = c :: w ∧ c ∈ CHARSET ∧ ∀ x ∈ w, isKeyChar x := by
  constructor
  · intro h
    induction h with
    | one hc n => exact ⟨_, _, rfl, hc, fun x hx => by simp [List.eq_of_mem_replicate hx, isKeyChar]⟩
    | cons hc n hu ih =>
      obtain ⟨c', w, rfl, hc', hw⟩ := ih
      refine ⟨_, _, rfl, hc, fun x hx => ?_⟩
      simp only [List.append_eq, List.mem_append, List.mem_cons] at hx
      rcases hx with hx | rfl | hx
      · simp [List.eq_of_mem_replicate hx, isKeyChar]
      · simp [isKeyChar, hc']
      · exact hw x hx
  · rintro ⟨c, w, rfl, hc, hw⟩
    exact keyBody_of_isKeyChar hc hw

/-! ### What `parse_key` recognises -/

theorem dataChar_run_nil : dataChar.run [] = .error ([], .oneOf) := rfl

theorem dataChar_run_cons (d : Char) (t : List Char) :
    dataChar.run (d :: t) =
      if d ∈ CHARSET then .ok (t.dropWhile (· = '_'), d) else .error (d :: t, .oneOf) := by
  rw [dataChar, show "qpzry9x8gf2tvdw0s3jn54khce6mua7l".toList = CHARSET from rfl]
  by_cases hd : d ∈ CHARSET <;> simp [terminated, oneOf, many0_char_run, hd]

theorem dataChar_run_eq_ok {i r : List Char} {o : Char} :
    dataChar.run i = .ok (r, o) ↔ ∃ t, i = o :: t ∧ o ∈ CHARSET ∧ r = t.dropWhile (· = '_') := by
  cases i with
  | nil => simp [dataChar_run_nil]
  | cons d t =>
    rw [dataChar_run_cons]
    split_ifs with hd
    · simp only [Except.ok.injEq, Prod.mk.injEq, List.cons.injEq]
      constructor
      · rintro ⟨rfl, rfl⟩; exact ⟨t, ⟨rfl, rfl⟩, hd, rfl⟩
      · rintro ⟨t, ⟨rfl, rfl⟩, -, rfl⟩; exact ⟨rfl, rfl⟩
    · simp only [reduceCtorEq, false_iff, not_exists, not_and, List.cons.injEq]
      rintro t' ⟨rfl, -⟩ hd'
      exact absurd hd' hd

theorem head?_dropWhile_underscore : ∀ t : List Char, (t.dropWhile (· = '_')).head? ≠ some '_'
  | [] => by simp
  | x :: t => by by_cases hx : x = '_' <;> simp [hx, head?_dropWhile_underscore t]

theorem dropWhile_underscore_dropWhile : ∀ t : List Char,
    (t.dropWhile (· = '_')).dropWhile isKeyChar = t.dropWhile isKeyChar
  | [] => rfl
  | x :: t => by
    by_cases hx : x = '_'
    · subst hx; simp [isKeyChar, dropWhile_underscore_dropWhile t]
    · simp [hx]

/-- The loop of `many1` over data characters runs to the first character that is neither a data
character nor an underscore. -/
theorem manyLoop_dataChar (kind : ErrorKind) :
    ∀ (i acc : List Char), i.head? ≠ some '_' →
      ∃ os, manyLoop kind dataChar i acc = .ok (i.dropWhile isKeyChar, os) := by
  intro i acc
  induction i, acc using manyLoop.induct kind dataChar with
  | case1 i acc e h =>
    intro hi
    refine ⟨acc, ?_⟩
    rw [manyLoop_eq, h]
    cases i with
    | nil => rfl
    | cons d t =>
      rw [dataChar_run_cons] at h
      split_ifs at h with hd
      have hk : isKeyChar d = false := by simpa [isKeyChar, hd] using hi
      simp [hk]
  | case2 i acc i1 o h hl =>
    intro _
    obtain ⟨t, rfl, -, rfl⟩ := dataChar_run_eq_ok.1 h
    have := (List.dropWhile_suffix _ : t.dropWhile (· = '_') <:+ t).length_le
    simp at hl; omega
  | case3 i acc i1 o h hl ih =>
    intro _
    obtain ⟨t, rfl, ho, rfl⟩ := dataChar_run_eq_ok.1 h
    obtain ⟨os, hos⟩ := ih (head?_dropWhile_underscore t)
    refine ⟨os, ?_⟩
    rw [manyLoop_eq, h]
    simp only [hl, ↓reduceIte, hos, dropWhile_underscore_dropWhile]
    simp [isKeyChar, ho]

theorem many1_dataChar_run {d : Char} (hd : d ∈ CHARSET) (t : List Char) :
    ∃ os, (many1 dataChar).run (d :: t) = .ok (t.dropWhile isKeyChar, os) := by
  obtain ⟨os, hos⟩ := manyLoop_dataChar .many1 _ [d] (head?_dropWhile_underscore t)
  refine ⟨os, ?_⟩
  simp only [many1, dataChar_run_cons, hd, if_true, hos, dropWhile_underscore_dropWhile]

theorem many1_dataChar_run_eq_ok {i r os : List Char} (h : (many1 dataChar).run i = .ok (r, os)) :
    ∃ d t, i = d :: t ∧ d ∈ CHARSET ∧ r = t.dropWhile isKeyChar := by
  cases i with
  | nil => simp [many1, dataChar_run_nil] at h
  | cons d t =>
    by_cases hd : d ∈ CHARSET
    · obtain ⟨os', hos⟩ := many1_dataChar_run hd t
      rw [hos] at h
      cases h
      exact ⟨d, t, rfl, hd, rfl⟩
    · simp [many1, dataChar_run_cons, hd] at h

theorem take_length_sub_append (x y : List Char) : (x ++ y).take ((x ++ y).length - y.length) = x :=
  List.take_left' (by simp)

/-- **What `parse_key` returns**: `verifier1`, a data character, and then everything up to the
first character that is neither a data character nor an underscore. -/
theorem parseKey_run_eq_ok {s rest p : List Char} :
    parseKey.run s = .ok (rest, p) ↔ ∃ d t, d ∈ CHARSET ∧ s = VERIFYING_KEY ++ '1' :: d :: t ∧
      rest = t.dropWhile isKeyChar ∧ p = VERIFYING_KEY ++ '1' :: d :: t.takeWhile isKeyChar := by
  have hsplit : ∀ d t, VERIFYING_KEY ++ '1' :: d :: t =
      (VERIFYING_KEY ++ '1' :: d :: t.takeWhile isKeyChar) ++ t.dropWhile isKeyChar := by simp
  rw [parseKey, recognize_run_eq_ok]
  constructor
  · rintro ⟨⟨⟨⟨a1, a2⟩, os⟩, h⟩, rfl⟩
    obtain ⟨i1, h1, h2⟩ := pair_run_eq_ok.1 h
    obtain ⟨i0, ht1, ht2⟩ := pair_run_eq_ok.1 h1
    obtain ⟨rfl, -⟩ := tag_run_eq_ok.1 ht1
    obtain ⟨rfl, -⟩ := tag_run_eq_ok.1 ht2
    obtain ⟨d, t, rfl, hd, rfl⟩ := many1_dataChar_run_eq_ok h2
    refine ⟨d, t, hd, rfl, rfl, ?_⟩
    simp only [List.singleton_append]
    rw [hsplit d t, take_length_sub_append]
  · rintro ⟨d, t, hd, rfl, rfl, rfl⟩
    obtain ⟨os, hos⟩ := many1_dataChar_run hd t
    refine ⟨⟨((VERIFYING_KEY, ['1']), os), pair_run_eq_ok.2 ⟨d :: t, pair_run_eq_ok.2
      ⟨'1' :: d :: t, tag_run_eq_ok.2 ⟨rfl, rfl⟩, tag_run_eq_ok.2 ⟨rfl, rfl⟩⟩, hos⟩⟩, ?_⟩
    rw [hsplit d t, take_length_sub_append]

theorem length_le_takeWhile {q : Char → Bool} : ∀ {w t : List Char}, w <+: t → (∀ x ∈ w, q x) →
    w.length ≤ (t.takeWhile q).length
  | [], _, _, _ => Nat.zero_le _
  | x :: w, _, ⟨u, rfl⟩, hq => by
    have hx : q x := hq x (List.mem_cons_self _ _)
    simp only [List.cons_append, List.takeWhile_cons_of_pos hx, List.length_cons]
    exact Nat.succ_le_succ (length_le_takeWhile ⟨u, rfl⟩ fun y hy => hq y (List.mem_cons_of_mem _ hy))

/-- **The longest key prefix** is what `parse_key` computes: `verifier1`, a data character, and
the data characters and underscores after it. -/
theorem isLongestKeyPrefix_iff {s rest p : List Char} :
    (∃ d t, d ∈ CHARSET ∧ s = VERIFYING_KEY ++ '1' :: d :: t ∧ rest = t.dropWhile isKeyChar ∧
      p = VERIFYING_KEY ++ '1' :: d :: t.takeWhile isKeyChar) ↔
      s = p ++ rest ∧ IsLongestKeyPrefix s p := by
  constructor
  · rintro ⟨d, t, hd, rfl, rfl, rfl⟩
    have hs : VERIFYING_KEY ++ '1' :: d :: t =
        (VERIFYING_KEY ++ '1' :: d :: t.takeWhile isKeyChar) ++ t.dropWhile isKeyChar := by simp
    refine ⟨hs, ⟨_, hs.symm⟩,
      ⟨_, rfl, keyBody_iff.2 ⟨d, _, rfl, hd, fun x hx => List.mem_takeWhile_imp hx⟩⟩, ?_⟩
    rintro p' hp' ⟨u', rfl, hu'⟩
    obtain ⟨d', w', rfl, -, hw'⟩ := keyBody_iff.1 hu'
    simp only [List.prefix_append_right_inj, List.cons_prefix_cons] at hp'
    have := length_le_takeWhile hp'.2.2 hw'
    simp; omega
  · rintro ⟨rfl, -, ⟨u, rfl, hu⟩, hlong⟩
    obtain ⟨d, w, rfl, hd, hw⟩ := keyBody_iff.1 hu
    -- a key character right after the prefix would make a longer one
    have hstop : rest.takeWhile isKeyChar = [] ∧ rest.dropWhile isKeyChar = rest := by
      cases rest with
      | nil => simp
      | cons x r =>
        have hx : isKeyChar x = false := by
          by_contra hx
          rw [Bool.not_eq_false] at hx
          have := hlong (VERIFYING_KEY ++ '1' :: d :: (w ++ [x])) ⟨r, by simp⟩
            ⟨_, rfl, keyBody_iff.2 ⟨d, _, rfl, hd, by simpa [or_imp, forall_and] using ⟨hw, hx⟩⟩⟩
          simp only [List.length_append, List.length_cons, List.length_nil] at this; omega
        simp [hx]
    refine ⟨d, w ++ rest, hd, by simp, ?_, ?_⟩
    · rw [List.dropWhile_append_of_pos hw, hstop.2]
    · rw [List.takeWhile_append_of_pos hw, hstop.1, List.append_nil]

theorem parseKey_run_eq_ok_iff {s rest p : List Char} :
    parseKey.run s = .ok (rest, p) ↔ s = p ++ rest ∧ IsLongestKeyPrefix s p :=
  parseKey_run_eq_ok.trans isLongestKeyPrefix_iff

/-! ### `from_str` and `Display` -/

/-- What `from_str` checks, in order: the string decodes under `verifier`, with data, as bech32m;
the data regroups into bytes; `read_le` reads a key from them. -/
theorem fromStr_eq_ok_iff {c : KeyCodec VK} {key : List Char} {vk : VK} :
    fromStr c key = .ok vk ↔ ∃ data bytes rest,
      Bech32.decode key = .ok (VERIFYING_KEY, data, .bech32m) ∧ data ≠ [] ∧
        fromBase32 data = .ok bytes ∧ c.readLe bytes = .ok (vk, rest) := by
  unfold fromStr
  cases hdec : Bech32.decode key with
  | error e => simp [Except.mapError]
  | ok r =>
    obtain ⟨hrp, data, variant⟩ := r
    simp only [Except.mapError, except_ok_bind]
    split_ifs with h1 h2 h3
    -- the three `bail!` exits
    any_goals
      simp only [except_throw, except_error_bind, reduceCtorEq, false_iff]
      rintro ⟨_, _, _, h, hne, -⟩
      simp_all
    simp only [not_not] at h1 h3
    subst h1 h3
    cases hb : fromBase32 data <;> simp [except_bind_eq_ok, h2, hb]

theorem checkHrp_verifyingKey : checkHrp VERIFYING_KEY = .ok .lower := rfl

theorem toBase32_ne_nil {bytes : List UInt8} (h : bytes ≠ []) : toBase32 bytes ≠ [] := by
  intro h0
  have h1 := fromBase32_toBase32 bytes
  rw [h0, show fromBase32 [] = .ok [] from rfl] at h1
  exact h (Except.ok.inj h1).symm

/-- `Display` writes the bech32m string of the key's bytes whenever it can write the bytes, and
that string decodes to them. -/
theorem fmt_eq_encode {c : KeyCodec VK} {vk : VK} {bytes : List UInt8}
    (henc : c.toBytesLe vk = .ok bytes) :
    ∃ s, Bech32.encode VERIFYING_KEY (toBase32 bytes) .bech32m = .ok s ∧ fmt c vk = some s ∧
      Bech32.decode s = .ok (VERIFYING_KEY, toBase32 bytes, .bech32m) := by
  obtain ⟨s, hs, hdec⟩ :=
    decode_encode checkHrp_verifyingKey (by decide) (toBase32_spec bytes).1 .bech32m
  exact ⟨s, hs, by simp [fmt, henc, hs, Except.toOption], hdec⟩

theorem fromStr_of_decode {c : KeyCodec VK} {s : List Char} {bytes rest : List UInt8} {vk : VK}
    (hdec : Bech32.decode s = .ok (VERIFYING_KEY, toBase32 bytes, .bech32m)) (hne : bytes ≠ [])
    (hread : c.readLe bytes = .ok (vk, rest)) : fromStr c s = .ok vk :=
  fromStr_eq_ok_iff.2 ⟨_, bytes, rest, hdec, toBase32_ne_nil hne, fromBase32_toBase32 bytes, hread⟩

/-- A key of one byte, read from a slice as `read_le` reads: the bytes after it are left unread. -/
def byteKeyCodec : KeyCodec UInt8 where
  toBytesLe b := .ok [b]
  readLe
    | [] => .error "failed to fill whole buffer"
    | b :: rest => .ok (b, rest)
  toBytesLe_ne_nil h := by cases h; exact List.cons_ne_nil _ _

/-- **`FromStr` inverts `Display`**: a key written as a byte string that `read_le` reads it back
from is read back from the string `Display` writes. -/
theorem fromStr_fmt {c : KeyCodec VK} {vk : VK} {bytes rest : List UInt8}
    (henc : c.toBytesLe vk = .ok bytes) (hread : c.readLe bytes = .ok (vk, rest)) :
    ∃ s, fmt c vk = some s ∧ fromStr c s = .ok vk := by
  obtain ⟨s, -, hfmt, hdec⟩ := fmt_eq_encode henc
  exact ⟨s, hfmt, fromStr_of_decode hdec (c.toBytesLe_ne_nil henc) hread⟩

theorem fromStr_fmt_byteKey : byteKeyCodec.toBytesLe 7 = .ok [7] ∧
    byteKeyCodec.readLe [7] = .ok (7, []) ∧
    ∃ s, fmt byteKeyCodec 7 = some s ∧ fromStr byteKeyCodec s = .ok 7 :=
  ⟨rfl, rfl, fromStr_fmt rfl rfl⟩

set_option maxRecDepth 8000 in
/-- A string that `from_str` reads `7` from, with the byte `0` after the key, which is not what
`Display` writes for `7`. -/
theorem fromStr_trailing_byte :
    fromStr byteKeyCodec "verifier1quqqeq5h79".toList = .ok 7 ∧
      fmt byteKeyCodec 7 = some "verifier1qu73zgp0".toList ∧
      "verifier1quqqeq5h79".toList.map Char.toLower ≠ "verifier1qu73zgp0".toList :=
  ⟨rfl, rfl, by decide⟩

/-- **What `from_str` accepts**: a string that `from_str` reads a key from is, in lowercase, the
bech32m string of a non-empty byte string that `read_le` reads the key from, possibly with bytes
left unread after it. -/
theorem fromStr_eq_ok {c : KeyCodec VK} {s : List Char} {vk : VK} (h : fromStr c s = .ok vk) :
    ∃ bytes rest, bytes ≠ [] ∧ c.readLe bytes = .ok (vk, rest) ∧
      Bech32.encode VERIFYING_KEY (toBase32 bytes) .bech32m = .ok (s.map Char.toLower) := by
  obtain ⟨data, bytes, rest, hdec, hne, hb, hread⟩ := fromStr_eq_ok_iff.1 h
  obtain rfl := toBase32_of_fromBase32 hb
  refine ⟨bytes, rest, fun h0 => hne (by rw [h0]; rfl), hread, ?_⟩
  exact (encode_of_decode hdec (by decide) checkHrp_verifyingKey (by decide)).1

set_option maxRecDepth 8000 in
theorem fromStr_eq_ok_byteKey :
    fromStr byteKeyCodec "verifier1quqqeq5h79".toList = .ok 7 ∧ ∃ bytes rest, bytes ≠ [] ∧
      byteKeyCodec.readLe bytes = .ok (7, rest) ∧ Bech32.encode VERIFYING_KEY (toBase32 bytes)
        .bech32m = .ok ("verifier1quqqeq5h79".toList.map Char.toLower) :=
  have h : fromStr byteKeyCodec "verifier1quqqeq5h79".toList = .ok 7 := rfl
  ⟨h, fromStr_eq_ok h⟩

/-! ### `parse` -/

theorem toChar_mem_charset : ∀ v < 32, toChar v ∈ CHARSET := by decide

theorem parse_run_eq_ok_iff {c : KeyCodec VK} {s rest : List Char} {vk : VK} :
    (parse c).run s = .ok (rest, vk) ↔
      ∃ p, s = p ++ rest ∧ IsLongestKeyPrefix s p ∧ fromStr c (p.filter (· ≠ '_')) = .ok vk := by
  simp only [parse, mapRes_run_eq_ok, parseKey_run_eq_ok_iff, and_assoc]

/-- `parse` reads a key back from the string `Display` writes, followed by anything that does
not start with a data character or an underscore. -/
theorem parse_fmt_append {c : KeyCodec VK} {vk : VK} {bytes rest' : List UInt8}
    (henc : c.toBytesLe vk = .ok bytes) (hread : c.readLe bytes = .ok (vk, rest'))
    {rest : List Char} (hrest : ∀ x ∈ rest.head?, x ∉ CHARSET ∧ x ≠ '_') :
    ∃ str, fmt c vk = some str ∧ (parse c).run (str ++ rest) = .ok (rest, vk) := by
  obtain ⟨str, hs, hfmt, hdec⟩ := fmt_eq_encode henc
  refine ⟨str, hfmt, ?_⟩
  set cs := toBase32 bytes ++
    checksum (polymod (hrpExpand (strBytes VERIFYING_KEY) ++ toBase32 bytes)) .bech32m with hcs
  have hstr : str = VERIFYING_KEY ++ SEP :: cs.map toChar := by
    simpa [encode, checkHrp_verifyingKey, eq_comm, cs] using hs
  have hcs32 : ∀ v ∈ cs, v < 32 := by
    simpa [cs, or_imp, forall_and] using ⟨(toBase32_spec bytes).1, checksum_lt _ _⟩
  have hmem : ∀ x ∈ cs.map toChar, x ∈ CHARSET := by
    simp only [List.mem_map, forall_exists_index, and_imp, forall_apply_eq_imp_iff₂]
    exact fun v hv => toChar_mem_charset v (hcs32 v hv)
  have hunder : '_' ∉ CHARSET := by decide
  have hstop : rest.takeWhile isKeyChar = [] ∧ rest.dropWhile isKeyChar = rest := by
    cases rest with
    | nil => simp
    | cons x r =>
      have := hrest x rfl
      simp [isKeyChar, this.1, this.2]
  obtain ⟨v, vs, hv⟩ : ∃ v vs, cs = v :: vs :=
    List.exists_cons_of_ne_nil (by simp [cs, checksum_length, ← List.length_pos])
  rw [hv, List.map_cons] at hmem hstr
  have hvs : ∀ x ∈ vs.map toChar, isKeyChar x := fun x hx => by
    simp [isKeyChar, hmem x (List.mem_cons_of_mem _ hx)]
  have hlong : str ++ rest = str ++ rest ∧ IsLongestKeyPrefix (str ++ rest) str :=
    isLongestKeyPrefix_iff.1 ⟨toChar v, vs.map toChar ++ rest,
    hmem _ (List.mem_cons_self _ _), by simp [hstr, SEP],
    by rw [List.dropWhile_append_of_pos hvs, hstop.2],
    by rw [List.takeWhile_append_of_pos hvs, hstop.1, List.append_nil, hstr]; rfl⟩
  have hfilter : str.filter (· ≠ '_') = str := by
    refine List.filter_eq_self.2 fun x hx => ?_
    rw [hstr] at hx
    simp only [List.mem_append, List.mem_cons] at hx
    rcases hx with hx | rfl | rfl | hx
    · revert x; decide
    · decide
    · simpa using ne_of_mem_of_not_mem (hmem _ (List.mem_cons_self _ _)) hunder
    · simpa using ne_of_mem_of_not_mem (hmem x (List.mem_cons_of_mem _ hx)) hunder
  exact parse_run_eq_ok_iff.2 ⟨str, rfl, hlong.2, by
    rw [hfilter]; exact fromStr_of_decode hdec (c.toBytesLe_ne_nil henc) hread⟩

/-- **`parse`**: it returns a key and the rest of its input exactly when the input starts with
its longest prefix of the form `verifier1`, data characters, each with underscores after it, and
`from_str` reads the key from that prefix without the underscores. It reads a key back from the
string `Display` writes, followed by any rest that does not start with a data character or an
underscore. -/
theorem parse_spec (c : KeyCodec VK) :
    (∀ s rest vk, (parse c).run s = .ok (rest, vk) ↔
      ∃ p, s = p ++ rest ∧ IsLongestKeyPrefix s p ∧ fromStr c (p.filter (· ≠ '_')) = .ok vk) ∧
    (∀ vk bytes rest' rest, c.toBytesLe vk = .ok bytes →
      c.readLe bytes = .ok (vk, rest') → (∀ x ∈ rest.head?, x ∉ CHARSET ∧ x ≠ '_') →
        ∃ str, fmt c vk = some str ∧ (parse c).run (str ++ rest) = .ok (rest, vk)) :=
  ⟨fun _ _ _ => parse_run_eq_ok_iff, fun _ _ _ _ henc hread hrest =>
    parse_fmt_append henc hread hrest⟩

/-! ### A mistyped character -/

/-- A string `from_str` accepts is, in lowercase, `verifier1` and the characters of 5-bit values
whose remainder is the constant of bech32m. -/
theorem fromStr_chars {c : KeyCodec VK} {s : List Char} {vk : VK} (h : fromStr c s = .ok vk) :
    ∃ cs, s.map Char.toLower = (VERIFYING_KEY ++ [SEP]) ++ cs.map toChar ∧ (∀ v ∈ cs, v < 32) ∧
      polymod (hrpExpand (strBytes VERIFYING_KEY) ++ cs) = Variant.bech32m.constant := by
  obtain ⟨data, -, -, hdec, -⟩ := fromStr_eq_ok_iff.1 h
  obtain ⟨cs, hs, hlt, -, -, hv⟩ := decode_eq_ok_chars hdec (by decide)
  exact ⟨cs, by simpa using hs, hlt, fromRemainder_eq_some.1 hv⟩

/-- Past the prefix `verifier1`, a string of that form is the characters of its values: split
at a place past the prefix, the values split there too. -/
theorem map_toChar_split {f : Char → Char} {pre post : List Char} {ch : Char} {cs : List Nat}
    (hn : (VERIFYING_KEY ++ [SEP]).length ≤ pre.length)
    (hs : (pre ++ ch :: post).map f = (VERIFYING_KEY ++ [SEP]) ++ cs.map toChar) :
    ∃ A x B, cs = A ++ x :: B ∧
      A.map toChar = (pre.map f).drop (VERIFYING_KEY ++ [SEP]).length ∧ toChar x = f ch ∧
      B.map toChar = post.map f := by
  have hd := congrArg (List.drop (VERIFYING_KEY ++ [SEP]).length) hs
  rw [List.map_append, List.map_cons, List.drop_append_of_le_length (by simpa using hn),
    List.drop_left] at hd
  obtain ⟨A, B', rfl, hA, hB'⟩ := List.map_eq_append_iff.1 hd.symm
  obtain ⟨x, B, rfl, hx, hB⟩ := List.map_eq_cons_iff.1 hB'
  exact ⟨A, x, B, rfl, hA, hx, hB⟩

/-- **`from_str` detects a mistyped character.** Whenever `from_str` reads a key from a string,
it fails on each string made from it by replacing one character with one that differs from it
other than in letter case: in `verifier1` the prefix would change, and past it one data value
would, which changes the checksum's remainder. -/
theorem fromStr_rejects_substitution {c : KeyCodec VK} {pre post : List Char} {ch ch' : Char}
    {vk : VK} (h : fromStr c (pre ++ ch :: post) = .ok vk) (hch : ch'.toLower ≠ ch.toLower) :
    ∃ e, fromStr c (pre ++ ch' :: post) = .error e := by
  cases h' : fromStr c (pre ++ ch' :: post) with
  | error e => exact ⟨e, rfl⟩
  | ok vk' =>
    obtain ⟨cs, hs, hlt, hv⟩ := fromStr_chars h
    obtain ⟨cs', hs', hlt', hv'⟩ := fromStr_chars h'
    have hn : (VERIFYING_KEY ++ [SEP]).length ≤ pre.length := by
      by_contra hn
      have hget : ∀ d, ((pre ++ d :: post).map Char.toLower)[pre.length]? = some d.toLower :=
        fun d => by rw [List.getElem?_map, List.getElem?_append_right (le_refl _), Nat.sub_self]; simp
      have e := congrArg (·[pre.length]?) hs
      have e' := congrArg (·[pre.length]?) hs'
      simp only [hget, List.getElem?_append_left (Nat.lt_of_not_le hn)] at e e'
      exact hch (Option.some.inj (e'.trans e.symm))
    obtain ⟨A, x, B, rfl, hA, hx, hB⟩ := map_toChar_split hn hs
    obtain ⟨A', x', B', rfl, hA', hx', hB'⟩ := map_toChar_split hn hs'
    obtain rfl := map_toChar_inj (fun v hv => hlt v (by simp [hv]))
      (fun v hv => hlt' v (by simp [hv])) (hA.trans hA'.symm)
    obtain rfl := map_toChar_inj (fun v hv => hlt v (by simp [hv]))
      (fun v hv => hlt' v (by simp [hv])) (hB.trans hB'.symm)
    have hne : x ≠ x' := fun hxx => hch (hx'.symm.trans (hxx ▸ hx))
    refine absurd (hv.trans hv'.symm) ?_
    rw [polymod, polymod, ← List.append_assoc, ← List.append_assoc]
    exact polymodFrom_ne_of_substitution 1 _ B (hlt x (by simp)) (hlt' x' (by simp)) hne

set_option maxRecDepth 8000 in
/-- The string `verifier1quqqeq5h79`, from which `from_str` reads `7`, with its third data
character `q` mistyped as `p`. -/
theorem fromStr_rejects_substitution_sample :
    fromStr byteKeyCodec ("verifier1qu".toList ++ 'q' :: "qeq5h79".toList) = .ok 7 ∧
      'p'.toLower ≠ 'q'.toLower ∧
      ∃ e, fromStr byteKeyCodec ("verifier1qu".toList ++ 'p' :: "qeq5h79".toList) = .error e :=
  have h : fromStr byteKeyCodec ("verifier1qu".toList ++ 'q' :: "qeq5h79".toList) = .ok 7 := rfl
  ⟨h, by decide, fromStr_rejects_substitution h (by decide)⟩

end VerifyingKey

end SnarkVM.Snark
