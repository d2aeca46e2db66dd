import SnarkVM.Result

/-!
The byte format of `PedersenCommitmentParameters`
(`algorithms/src/commitment/pedersen_parameters.rs`): `write_le` writes the number of CRH
windows as a `u32`, then each window as its length, a `u32`, and its group elements, then the
length of `random_base` and its elements; `read_le` reads the same fields back in the same order.

Neither the group elements' byte format nor the `u32` one is in this source. `GroupCodec` stands
for the first, with `read_le` returning the bytes it left unread, as reading from a byte slice
does. The `u32` format is four little-endian bytes, and reading it from fewer bytes fails as
`read_exact` does. `PedersenCRH` is reduced to the one field the code reads, its `bases`, and
`PedersenCRH::from(bases).into()` to the CRH with those bases. Writing to a byte vector does not
fail, so `write_le` returns the bytes.

Main results: `read_le` gives back what `write_le` wrote, and leaves the bytes after it unread,
whenever the group elements round-trip and every length fits its `u32` (`readLe_writeLe`); and it
fails on what `write_le` wrote cut short anywhere, when the group elements' reads fail on their
own bytes cut short (`readLe_rejectsTruncations`); and what it reads is always the encoding of the
parameters it returns, when the group elements' reads are (`readLe_readsEncodings`).
-/

namespace SnarkVM.Algorithms

/-! ### `u32` in little-endian -/

/-- `u32::write_le`: the four bytes of `n`, least significant first. -/
def writeU32Le (n : UInt32) : List UInt8 :=
  [UInt8.ofNat n.toNat, UInt8.ofNat (n.toNat / 256), UInt8.ofNat (n.toNat / 65536),
    UInt8.ofNat (n.toNat / 16777216)]

/-- `u32::read_le` on a byte slice: four bytes, least significant first, and the bytes after
them. -/
def readU32Le : List UInt8 → Except String (UInt32 × List UInt8)
  | b₀ :: b₁ :: b₂ :: b₃ :: rest =>
    .ok (UInt32.ofNat (b₀.toNat + 256 * b₁.toNat + 65536 * b₂.toNat + 16777216 * b₃.toNat), rest)
  | _ => .error "failed to fill whole buffer"

theorem toNat_ofNat_byte (n : Nat) : (UInt8.ofNat n).toNat = n % 256 := rfl

theorem readU32Le_writeU32Le (n : UInt32) (rest : List UInt8) :
    readU32Le (writeU32Le n ++ rest) = .ok (n, rest) := by
  have hn : n.toNat < 4294967296 := n.toNat_lt_size
  simp only [writeU32Le, readU32Le, List.cons_append, List.nil_append, toNat_ofNat_byte,
    Except.ok.injEq, Prod.mk.injEq, and_true]
  apply UInt32.toNat.inj
  rw [UInt32.toNat_ofNat_of_lt (by unfold UInt32.size; omega)]
  omega

theorem readU32Le_of_length_lt : ∀ bytes : List UInt8, bytes.length < 4 →
    readU32Le bytes = .error "failed to fill whole buffer"
  | [], _ | [_], _ | [_, _], _ | [_, _, _], _ => rfl
  | _ :: _ :: _ :: _ :: _, h => absurd h (by simp)

theorem ofNat_byte_eq {b : UInt8} {n : Nat} (h : n % 256 = b.toNat) : UInt8.ofNat n = b :=
  UInt8.toNat.inj h

/-- The four bytes `read_le` takes are those `write_le` writes of the `u32` it returns. -/
theorem readU32Le_eq_ok {bytes rest : List UInt8} {n : UInt32}
    (h : readU32Le bytes = .ok (n, rest)) : bytes = writeU32Le n ++ rest := by
  match bytes, h with
  | b₀ :: b₁ :: b₂ :: b₃ :: _, h =>
    obtain ⟨rfl, rfl⟩ := Prod.mk.inj (Except.ok.inj h)
    have h₀ := b₀.toNat_lt_size
    have h₁ := b₁.toNat_lt_size
    have h₂ := b₂.toNat_lt_size
    have h₃ := b₃.toNat_lt_size
    simp only [UInt8.size] at h₀ h₁ h₂ h₃
    simp only [writeU32Le, List.cons_append, List.nil_append, List.cons.injEq, and_true]
    rw [UInt32.toNat_ofNat_of_lt (by unfold UInt32.size; omega)]
    exact ⟨(ofNat_byte_eq (by omega)).symm, (ofNat_byte_eq (by omega)).symm,
      (ofNat_byte_eq (by omega)).symm, (ofNat_byte_eq (by omega)).symm⟩

/-! ### Counted loops -/

section Loops

variable {α : Type}

/-- `for _ in 0..count { v.push(read(&mut reader)?) }`: `count` reads one after the other. -/
def readMany (read : List UInt8 → Except String (α × List UInt8)) :
    Nat → List UInt8 → Except String (List α × List UInt8)
  | 0, bytes => .ok ([], bytes)
  | count + 1, bytes => do
    let (a, bytes) ← read bytes
    let (as, bytes) ← readMany read count bytes
    pure (a :: as, bytes)

/-- Reading as many elements as were written gives them back, when each element does. -/
theorem readMany_flatMap {read : List UInt8 → Except String (α × List UInt8)}
    {write : α → List UInt8} {xs : List α}
    (h : ∀ a ∈ xs, ∀ rest, read (write a ++ rest) = .ok (a, rest)) (rest : List UInt8) :
    readMany read xs.length (xs.flatMap write ++ rest) = .ok (xs, rest) := by
  induction xs with
  | nil => rfl
  | cons x xs ih =>
    have hx := h x (List.mem_cons_self _ _) (xs.flatMap write ++ rest)
    have hxs := ih fun a ha => h a (List.mem_cons_of_mem _ ha)
    simp only [List.length_cons, List.flatMap_cons, List.append_assoc, readMany, hx, hxs,
      except_ok_bind, except_pure]

/-- `read` fails on `bytes` cut short: on every proper prefix of them, with nothing after. -/
def RejectsTruncations {β : Type} (read : List UInt8 → Except String β) (bytes : List UInt8) :
    Prop :=
  ∀ n < bytes.length, ∃ e, read (bytes.take n) = .error e

theorem rejectsTruncations_nil {β : Type} (read : List UInt8 → Except String β) :
    RejectsTruncations read [] := fun _ h => absurd h (Nat.not_lt_zero _)

/-- A read that fails goes on failing through a `?`. -/
theorem RejectsTruncations.bind_right {β : Type} {r : List UInt8 → Except String α}
    {w : List UInt8} (h : RejectsTruncations r w) (k : α → Except String β) :
    RejectsTruncations (fun bytes => r bytes >>= k) w := fun n hn =>
  let ⟨e, he⟩ := h n hn
  ⟨e, show r (w.take n) >>= k = _ by rw [he]; rfl⟩

/-- Reading `w₁` and going on fails on `w₁ ++ w₂` cut short, when the first read fails on `w₁`
cut short and reads `a` back from `w₁` followed by anything, and going on from `a` fails on `w₂`
cut short. -/
theorem RejectsTruncations.bind {β : Type} {r : List UInt8 → Except String (α × List UInt8)}
    {k : α × List UInt8 → Except String β} {w₁ w₂ : List UInt8} {a : α}
    (h₁ : RejectsTruncations r w₁) (hrt : ∀ rest, r (w₁ ++ rest) = .ok (a, rest))
    (h₂ : RejectsTruncations (fun bytes => k (a, bytes)) w₂) :
    RejectsTruncations (fun bytes => r bytes >>= k) (w₁ ++ w₂) := by
  intro n hn
  by_cases hlt : n < w₁.length
  · rw [List.take_append_of_le_length (Nat.le_of_lt hlt)]
    exact h₁.bind_right k n hlt
  · obtain ⟨m, rfl⟩ := Nat.exists_eq_add_of_le (Nat.le_of_not_lt hlt)
    obtain ⟨e, he⟩ := h₂ m (by rw [List.length_append] at hn; omega)
    refine ⟨e, show r ((w₁ ++ w₂).take (w₁.length + m)) >>= k = _ from ?_⟩
    rw [List.take_append, hrt]
    exact he

/-- Reading as many elements as were written fails on their bytes cut short, when each element
is read back from its bytes and fails on them cut short. -/
theorem rejectsTruncations_readMany {read : List UInt8 → Except String (α × List UInt8)}
    {write : α → List UInt8} : ∀ {xs : List α},
      (∀ a ∈ xs, ∀ rest, read (write a ++ rest) = .ok (a, rest)) →
      (∀ a ∈ xs, RejectsTruncations read (write a)) →
      RejectsTruncations (readMany read xs.length) (xs.flatMap write)
  | [], _, _ => rejectsTruncations_nil _
  | x :: xs, hrt, htr => by
    have hxs := rejectsTruncations_readMany (fun a ha => hrt a (List.mem_cons_of_mem _ ha))
      fun a ha => htr a (List.mem_cons_of_mem _ ha)
    rw [List.flatMap_cons]
    exact (htr x (List.mem_cons_self _ _)).bind (hrt x (List.mem_cons_self _ _))
      (hxs.bind_right _)

/-- `read` reads only encodings: whatever it returns satisfies `P`, and the bytes it read are
`write` of it followed by the bytes it left. -/
def ReadsEncodings {β : Type} (read : List UInt8 → Except String (β × List UInt8))
    (write : β → List UInt8) (P : β → Prop) : Prop :=
  ∀ {bytes a rest}, read bytes = .ok (a, rest) → P a ∧ bytes = write a ++ rest

/-- A counted loop reads the encodings of exactly `count` elements, one after the other. -/
theorem readsEncodings_readMany {read : List UInt8 → Except String (α × List UInt8)}
    {write : α → List UInt8} {P : α → Prop} (h : ReadsEncodings read write P) :
    ∀ count, ReadsEncodings (readMany read count) (·.flatMap write)
      fun xs => xs.length = count ∧ ∀ x ∈ xs, P x
  | 0, _, _, _, hr => by cases hr; exact ⟨⟨rfl, nofun⟩, rfl⟩
  | count + 1, _, _, _, hr => by
    obtain ⟨⟨a, bytes⟩, ha, hr⟩ := except_bind_eq_ok.1 hr
    obtain ⟨⟨as, _⟩, has, hr⟩ := except_bind_eq_ok.1 hr
    cases hr
    obtain ⟨hPa, rfl⟩ := h ha
    obtain ⟨⟨hlen, hPas⟩, rfl⟩ := readsEncodings_readMany h count has
    exact ⟨⟨congrArg (· + 1) hlen, List.forall_mem_cons.2 ⟨hPa, hPas⟩⟩,
      by simp only [List.flatMap_cons, List.append_assoc]⟩

end Loops

/-! ### The parameters -/

/-- The byte format of group elements: `ToBytes::write_le` into a byte vector, and
`FromBytes::read_le` on a byte slice, returning the element and the bytes after it. -/
structure GroupCodec (G : Type) where
  writeLe : G → List UInt8
  readLe : List UInt8 → Except String (G × List UInt8)

/-- `PedersenCRH`, with the windows of bases the code reads. -/
structure PedersenCRH (G : Type) where
  bases : List (List G)
  deriving DecidableEq, Repr

/-- `PedersenCommitmentParameters`. -/
structure PedersenCommitmentParameters (G : Type) where
  crh : PedersenCRH G
  randomBase : List G
  deriving DecidableEq, Repr

namespace PedersenCommitmentParameters

variable {G : Type}

/-- The elements of a window or of `random_base`, after their `u32` length. -/
def writeElements (c : GroupCodec G) (elements : List G) : List UInt8 :=
  writeU32Le (UInt32.ofNat elements.length) ++ elements.flatMap c.writeLe

/-- A `u32` length, then that many elements. -/
def readElements (c : GroupCodec G) (bytes : List UInt8) :
    Except String (List G × List UInt8) := do
  let (len, bytes) ← readU32Le bytes
  readMany c.readLe len.toNat bytes

/-- `ToBytes::write_le`. -/
def writeLe (c : GroupCodec G) (p : PedersenCommitmentParameters G) : List UInt8 :=
  writeU32Le (UInt32.ofNat p.crh.bases.length) ++ p.crh.bases.flatMap (writeElements c) ++
    writeElements c p.randomBase

/-- `FromBytes::read_le`, with the bytes after the parameters. -/
def readLe (c : GroupCodec G) (bytes : List UInt8) :
    Except String (PedersenCommitmentParameters G × List UInt8) := do
  let (numBases, bytes) ← readU32Le bytes
  let (bases, bytes) ← readMany (readElements c) numBases.toNat bytes
  let (randomBase, bytes) ← readElements c bytes
  pure (⟨⟨bases⟩, randomBase⟩, bytes)

section RoundTrip

variable {c : GroupCodec G}

theorem readElements_writeElements
    (hc : ∀ g rest, c.readLe (c.writeLe g ++ rest) = .ok (g, rest)) {elements : List G}
    (hlen : elements.length < UInt32.size) (rest : List UInt8) :
    readElements c (writeElements c elements ++ rest) = .ok (elements, rest) := by
  rw [writeElements, List.append_assoc, readElements, readU32Le_writeU32Le, except_ok_bind]
  dsimp only
  rw [UInt32.toNat_ofNat_of_lt hlen]
  exact readMany_flatMap (fun g _ => hc g) rest

/-- **`read_le` inverts `write_le`.** When every group element round-trips and the number of
windows, each window and `random_base` are shorter than `2 ^ 32`, reading what `write_le` wrote,
followed by any bytes, gives the parameters back and leaves exactly those bytes. -/
theorem readLe_writeLe (hc : ∀ g rest, c.readLe (c.writeLe g ++ rest) = .ok (g, rest))
    (p : PedersenCommitmentParameters G) (hbases : p.crh.bases.length < UInt32.size)
    (hbase : ∀ base ∈ p.crh.bases, base.length < UInt32.size)
    (hrandom : p.randomBase.length < UInt32.size) (rest : List UInt8) :
    readLe c (writeLe c p ++ rest) = .ok (p, rest) := by
  have hwindows := readMany_flatMap
    (fun base hb rest => readElements_writeElements hc (hbase base hb) rest)
    (writeElements c p.randomBase ++ rest)
  rw [writeLe, List.append_assoc, List.append_assoc, readLe, readU32Le_writeU32Le,
    except_ok_bind]
  dsimp only
  rw [UInt32.toNat_ofNat_of_lt hbases, hwindows, except_ok_bind]
  dsimp only
  rw [readElements_writeElements hc hrandom, except_ok_bind]
  rfl

end RoundTrip

/-- Group elements as single bytes. -/
def byteCodec : GroupCodec UInt8 where
  writeLe g := [g]
  readLe
    | g :: rest => .ok (g, rest)
    | [] => .error "failed to fill whole buffer"

/-- Two windows, one of them empty, and a `random_base` of one element. -/
def sampleParameters : PedersenCommitmentParameters UInt8 := ⟨⟨[[1, 2], []]⟩, [3]⟩

theorem readLe_writeLe_sample :
    (∀ g rest, byteCodec.readLe (byteCodec.writeLe g ++ rest) = .ok (g, rest)) ∧
    sampleParameters.crh.bases.length < UInt32.size ∧
    (∀ base ∈ sampleParameters.crh.bases, base.length < UInt32.size) ∧
    sampleParameters.randomBase.length < UInt32.size ∧
    readLe byteCodec (writeLe byteCodec sampleParameters ++ [9]) = .ok (sampleParameters, [9]) :=
  ⟨fun _ _ => rfl, by decide, by decide, by decide,
    readLe_writeLe (fun _ _ => rfl) sampleParameters (by decide) (by decide) (by decide) [9]⟩

/-! ### Truncated encodings -/

section Truncations

variable {c : GroupCodec G}

theorem rejectsTruncations_writeU32Le (v : UInt32) : RejectsTruncations readU32Le (writeU32Le v) :=
  fun n hn => ⟨_, readU32Le_of_length_lt _ (by simp only [writeU32Le, List.length_take,
    List.length_cons, List.length_nil] at hn ⊢; omega)⟩

theorem rejectsTruncations_readElements
    (hc : ∀ g rest, c.readLe (c.writeLe g ++ rest) = .ok (g, rest))
    (htrunc : ∀ g, RejectsTruncations c.readLe (c.writeLe g)) {elements : List G}
    (hlen : elements.length < UInt32.size) :
    RejectsTruncations (readElements c) (writeElements c elements) := by
  refine (rejectsTruncations_writeU32Le _).bind (readU32Le_writeU32Le _) ?_
  show RejectsTruncations (readMany c.readLe (UInt32.ofNat elements.length).toNat) _
  rw [UInt32.toNat_ofNat_of_lt hlen]
  exact rejectsTruncations_readMany (fun g _ => hc g) fun g _ => htrunc g

/-- **`read_le` rejects a truncated encoding.** When every group element is read back from its
bytes and rejected when they are cut short, and every length fits its `u32`, `read_le` fails on
what `write_le` wrote cut short anywhere. -/
theorem readLe_rejectsTruncations
    (hc : ∀ g rest, c.readLe (c.writeLe g ++ rest) = .ok (g, rest))
    (htrunc : ∀ g, RejectsTruncations c.readLe (c.writeLe g))
    (p : PedersenCommitmentParameters G) (hbases : p.crh.bases.length < UInt32.size)
    (hbase : ∀ base ∈ p.crh.bases, base.length < UInt32.size)
    (hrandom : p.randomBase.length < UInt32.size) :
    RejectsTruncations (readLe c) (writeLe c p) := by
  have hwindow := fun base hb => readElements_writeElements hc (hbase base hb)
  rw [writeLe, List.append_assoc]
  refine (rejectsTruncations_writeU32Le _).bind (readU32Le_writeU32Le _) ?_
  show RejectsTruncations (fun bytes =>
    readMany (readElements c) (UInt32.ofNat p.crh.bases.length).toNat bytes >>= _) _
  rw [UInt32.toNat_ofNat_of_lt hbases]
  exact (rejectsTruncations_readMany hwindow fun base hb =>
      rejectsTruncations_readElements hc htrunc (hbase base hb)).bind
    (readMany_flatMap fun base hb => hwindow base hb)
    ((rejectsTruncations_readElements hc htrunc hrandom).bind_right _)

/-- Single bytes are rejected when cut short, so the sample parameters are rejected cut short
anywhere, here after their first nine bytes. -/
theorem readLe_rejectsTruncations_sample :
    (∀ g, RejectsTruncations byteCodec.readLe (byteCodec.writeLe g)) ∧
    9 < (writeLe byteCodec sampleParameters).length ∧
    ∃ e, readLe byteCodec ((writeLe byteCodec sampleParameters).take 9) = .error e :=
  have htrunc : ∀ g, RejectsTruncations byteCodec.readLe (byteCodec.writeLe g) :=
    fun _ n hn => ⟨"failed to fill whole buffer", by rw [Nat.lt_one_iff.1 hn]; rfl⟩
  ⟨htrunc, by decide, readLe_rejectsTruncations (fun _ _ => rfl) htrunc sampleParameters
    (by decide) (by decide) (by decide) 9 (by decide)⟩

end Truncations

/-! ### Only encodings are read -/

section Encodings

variable {c : GroupCodec G} {P : G → Prop}

theorem readsEncodings_readElements (hc : ReadsEncodings c.readLe c.writeLe P) :
    ReadsEncodings (readElements c) (writeElements c)
      fun elements => elements.length < UInt32.size ∧ ∀ g ∈ elements, P g := by
  intro bytes elements rest h
  obtain ⟨⟨len, _⟩, hlen, h⟩ := except_bind_eq_ok.1 h
  obtain ⟨⟨hcount, hP⟩, rfl⟩ := readsEncodings_readMany hc _ h
  have hofNat : UInt32.ofNat elements.length = len :=
    UInt32.toNat.inj (by rw [hcount, UInt32.toNat_ofNat_of_lt len.toNat_lt_size])
  exact ⟨⟨hcount ▸ len.toNat_lt_size, hP⟩,
    by rw [readU32Le_eq_ok hlen, writeElements, hofNat, List.append_assoc]⟩

/-- **`read_le` reads only encodings.** When the group elements' `read_le` reads only what their
`write_le` writes, of elements that satisfy `P`, whatever `read_le` returns the parameters it
read: the bytes are `write_le` of them followed by the bytes it left, the number of windows, each
window and `random_base` are shorter than `2 ^ 32`, and every group element satisfies `P`. -/
theorem readLe_readsEncodings (hc : ReadsEncodings c.readLe c.writeLe P)
    {bytes rest : List UInt8} {p : PedersenCommitmentParameters G}
    (h : readLe c bytes = .ok (p, rest)) :
    bytes = writeLe c p ++ rest ∧ p.crh.bases.length < UInt32.size ∧
      (∀ base ∈ p.crh.bases, base.length < UInt32.size ∧ ∀ g ∈ base, P g) ∧
      p.randomBase.length < UInt32.size ∧ ∀ g ∈ p.randomBase, P g := by
  obtain ⟨⟨num, _⟩, hnum, h⟩ := except_bind_eq_ok.1 h
  obtain ⟨⟨bases, _⟩, hbases, h⟩ := except_bind_eq_ok.1 h
  obtain ⟨⟨randomBase, _⟩, hrandom, h⟩ := except_bind_eq_ok.1 h
  cases h
  obtain ⟨⟨hcount, hwindows⟩, rfl⟩ := readsEncodings_readMany (readsEncodings_readElements hc) _ hbases
  obtain ⟨⟨hlen, hP⟩, rfl⟩ := readsEncodings_readElements hc hrandom
  have hofNat : UInt32.ofNat bases.length = num :=
    UInt32.toNat.inj (by rw [hcount, UInt32.toNat_ofNat_of_lt num.toNat_lt_size])
  refine ⟨?_, hcount ▸ num.toNat_lt_size, hwindows, hlen, hP⟩
  rw [readU32Le_eq_ok hnum, writeLe, hofNat]
  simp only [List.append_assoc]

end Encodings

/-- Single bytes are read only from themselves, so the twenty bytes from which `read_le` reads the
sample parameters and leaves `[9]` are the parameters' encoding followed by `[9]`. -/
theorem readLe_readsEncodings_sample :
    ReadsEncodings byteCodec.readLe byteCodec.writeLe (fun _ => True) ∧
    readLe byteCodec [2, 0, 0, 0, 2, 0, 0, 0, 1, 2, 0, 0, 0, 0, 1, 0, 0, 0, 3, 9] =
      .ok (sampleParameters, [9]) ∧
    [2, 0, 0, 0, 2, 0, 0, 0, 1, 2, 0, 0, 0, 0, 1, 0, 0, 0, 3, 9] =
      writeLe byteCodec sampleParameters ++ [9] :=
  have hc : ReadsEncodings byteCodec.readLe byteCodec.writeLe (fun _ => True) := by
    intro bytes g rest h
    cases bytes with
    | nil => cases h
    | cons b bytes => cases h; exact ⟨trivial, rfl⟩
  ⟨hc, rfl, (readLe_readsEncodings hc (rfl : readLe byteCodec
    [2, 0, 0, 0, 2, 0, 0, 0, 1, 2, 0, 0, 0, 0, 1, 0, 0, 0, 3, 9] = .ok (sampleParameters, [9]))).1⟩

end PedersenCommitmentParameters

end SnarkVM.Algorithms
