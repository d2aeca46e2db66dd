import SnarkVM.Result
import Mathlib.Data.List.Basic

/-!
The `nom` combinators the string parsers use, over complete `&str` input. A parser returns
`Ok((rest, output))` with `rest` a suffix of its input, or `Err(nom::Err::Error((input, kind)))`
at the input where it failed; these parsers never return `Failure` or `Incomplete`.

`Parser` carries as a field that the rest is never longer than the input. The repetition loop of
`many0` and `many1` is `manyLoop`, which stops with an error when an iteration consumes nothing,
as nom's infinite-loop check does; the field makes that check a termination argument.
-/

namespace SnarkVM.Nom

/-- `nom::error::ErrorKind`, for the combinators below. -/
inductive ErrorKind
  | tag
  | oneOf
  | char
  | many0
  | many1
  | mapRes
  deriving DecidableEq, Repr

/-- The result of a parser: `IResult<&str, O>` is `NomResult (List Char × O)`, the rest of the
input and the output, or where and why it failed. -/
abbrev NomResult : Type → Type := Except (List Char × ErrorKind)

/-- A parser, whose rest is never longer than its input. -/
structure Parser (α : Type) where
  run : List Char → NomResult (List Char × α)
  rest_le : ∀ {i r : List Char} {a : α}, run i = .ok (r, a) → r.length ≤ i.length

variable {α β γ : Type}

/-- `tag(t)`. -/
def tag (t : List Char) : Parser (List Char) where
  run i := if t <+: i then .ok (i.drop t.length, t) else .error (i, .tag)
  rest_le h := by
    dsimp only at h
    split_ifs at h
    cases h; simp

/-- `one_of(list)`. -/
def oneOf (list : List Char) : Parser Char where
  run
    | c :: r => if c ∈ list then .ok (r, c) else .error (c :: r, .oneOf)
    | [] => .error ([], .oneOf)
  rest_le {i r a} h := by
    cases i with
    | nil => cases h
    | cons c r => dsimp only at h; split_ifs at h; cases h; simp

/-- `char(c)`. -/
def char (c : Char) : Parser Char where
  run
    | d :: r => if d = c then .ok (r, c) else .error (d :: r, .char)
    | [] => .error ([], .char)
  rest_le {i r a} h := by
    cases i with
    | nil => cases h
    | cons d r => dsimp only at h; split_ifs at h; cases h; simp

theorem bind_rest_le {x : NomResult (List Char × α)} {f : List Char × α → NomResult (List Char × β)} {i r : List Char} {b : β}
    (hx : ∀ {r a}, x = .ok (r, a) → r.length ≤ i.length)
    (hf : ∀ {r' a r b}, f (r', a) = .ok (r, b) → r.length ≤ r'.length)
    (h : x >>= f = .ok (r, b)) : r.length ≤ i.length := by
  obtain ⟨⟨r', a⟩, h1, h2⟩ := except_bind_eq_ok.1 h
  exact (hf h2).trans (hx h1)

/-- `pair(p, q)`. -/
def pair (p : Parser α) (q : Parser β) : Parser (α × β) where
  run i := do
    let (i, a) ← p.run i
    let (i, b) ← q.run i
    pure (i, (a, b))
  rest_le h := bind_rest_le p.rest_le (fun h => bind_rest_le q.rest_le
    (fun h => by cases h; exact le_rfl) h) h

/-- `terminated(p, q)`. -/
def terminated (p : Parser α) (q : Parser β) : Parser α where
  run i := do
    let (i, a) ← p.run i
    let (i, _) ← q.run i
    pure (i, a)
  rest_le h := bind_rest_le p.rest_le (fun h => bind_rest_le q.rest_le
    (fun h => by cases h; exact le_rfl) h) h

/-- `recognize(p)`: the consumed prefix of the input in place of `p`'s output. -/
def recognize (p : Parser α) : Parser (List Char) where
  run i := do
    let (r, _) ← p.run i
    pure (r, i.take (i.length - r.length))
  rest_le h := bind_rest_le p.rest_le (fun h => by cases h; exact le_rfl) h

/-- `map_res(p, f)`: `p`, then `f` on its output, failing at `p`'s input if `f` fails. -/
def mapRes (p : Parser α) (f : α → Except ε β) : Parser β where
  run i := do
    let (r, a) ← p.run i
    match f a with
    | .ok b => pure (r, b)
    | .error _ => .error (i, .mapRes)
  rest_le h := bind_rest_le p.rest_le
    (fun h => by dsimp only at h; split at h <;> cases h; exact le_rfl) h

/-- The loop of `many0` and `many1`: apply `p` until it fails, and fail with `kind` if an
iteration consumes nothing. -/
def manyLoop (kind : ErrorKind) (p : Parser α) (i : List Char) (acc : List α) : NomResult (List Char × List α) :=
  match h : p.run i with
  | .error _ => .ok (i, acc)
  | .ok (i1, o) =>
    if hl : i1.length = i.length then .error (i, kind)
    else manyLoop kind p i1 (acc ++ [o])
termination_by i.length
decreasing_by exact lt_of_le_of_ne (p.rest_le h) hl

theorem manyLoop_rest_le (kind : ErrorKind) (p : Parser α) :
    ∀ (i : List Char) (acc : List α) {r : List Char} {os : List α},
      manyLoop kind p i acc = .ok (r, os) → r.length ≤ i.length := by
  intro i acc
  induction i, acc using manyLoop.induct kind p with
  | case1 i acc e h =>
    intro r os hm
    rw [manyLoop] at hm
    split at hm <;> simp_all
  | case2 i acc i1 o h hl =>
    intro r os hm
    rw [manyLoop] at hm
    split at hm <;> simp_all
  | case3 i acc i1 o h hl ih =>
    intro r os hm
    rw [manyLoop] at hm
    split at hm
    · simp_all
    · rename_i heq
      obtain ⟨rfl, rfl⟩ : i1 = _ ∧ o = _ := by simpa [h] using heq
      rw [dif_neg hl] at hm
      exact (ih hm).trans (p.rest_le h)

/-- `many0(p)`. -/
def many0 (p : Parser α) : Parser (List α) where
  run i := manyLoop .many0 p i []
  rest_le h := manyLoop_rest_le _ p _ _ h

/-- `many1(p)`: the first application of `p` must succeed; it is not checked for progress. -/
def many1 (p : Parser α) : Parser (List α) where
  run i :=
    match p.run i with
    | .error _ => .error (i, .many1)
    | .ok (i1, o) => manyLoop .many1 p i1 [o]
  rest_le {i r a} h := by
    dsimp only at h
    split at h
    · cases h
    · rename_i i1 o h1
      exact (manyLoop_rest_le _ p _ _ h).trans (p.rest_le h1)

/-! ### What each combinator returns -/

theorem tag_run_eq_ok {t i r o : List Char} : (tag t).run i = .ok (r, o) ↔ i = t ++ r ∧ o = t := by
  simp only [tag]
  split_ifs with h
  · obtain ⟨u, rfl⟩ := h
    simp [eq_comm]
  · simp only [reduceCtorEq, false_iff, not_and]
    rintro rfl -
    exact h (List.prefix_append _ _)

theorem pair_run_eq_ok {p : Parser α} {q : Parser β} {i r : List Char} {a : α} {b : β} :
    (pair p q).run i = .ok (r, (a, b)) ↔ ∃ i1, p.run i = .ok (i1, a) ∧ q.run i1 = .ok (r, b) := by
  simp only [pair, except_bind_eq_ok, Prod.exists]
  constructor
  · rintro ⟨i1, a', h1, r', b', h2, h3⟩
    cases h3
    exact ⟨i1, h1, h2⟩
  · rintro ⟨i1, h1, h2⟩
    exact ⟨i1, a, h1, r, b, h2, rfl⟩

theorem terminated_run_eq_ok {p : Parser α} {q : Parser β} {i r : List Char} {a : α} :
    (terminated p q).run i = .ok (r, a) ↔ ∃ i1 b, p.run i = .ok (i1, a) ∧ q.run i1 = .ok (r, b) := by
  simp only [terminated, except_bind_eq_ok, Prod.exists]
  constructor
  · rintro ⟨i1, a', h1, r', b, h2, h3⟩
    cases h3
    exact ⟨i1, b, h1, h2⟩
  · rintro ⟨i1, b, h1, h2⟩
    exact ⟨i1, a, h1, r, b, h2, rfl⟩

theorem recognize_run_eq_ok {p : Parser α} {i r o : List Char} :
    (recognize p).run i = .ok (r, o) ↔ (∃ a, p.run i = .ok (r, a)) ∧ o = i.take (i.length - r.length) := by
  simp only [recognize, except_bind_eq_ok, Prod.exists]
  constructor
  · rintro ⟨r', a, h1, h2⟩
    cases h2
    exact ⟨⟨a, h1⟩, rfl⟩
  · rintro ⟨⟨a, h1⟩, rfl⟩
    exact ⟨r, a, h1, rfl⟩

theorem mapRes_run_eq_ok {p : Parser α} {f : α → Except ε β} {i r : List Char} {b : β} :
    (mapRes p f).run i = .ok (r, b) ↔ ∃ a, p.run i = .ok (r, a) ∧ f a = .ok b := by
  simp only [mapRes, except_bind_eq_ok, Prod.exists]
  constructor
  · rintro ⟨r', a, h1, h2⟩
    split at h2
    · cases h2
      exact ⟨a, h1, by assumption⟩
    · cases h2
  · rintro ⟨a, h1, h2⟩
    exact ⟨r, a, h1, by simp [h2]⟩

/-- One turn of `manyLoop`, without the proof of progress the definition carries. -/
theorem manyLoop_eq (kind : ErrorKind) (p : Parser α) (i : List Char) (acc : List α) :
    manyLoop kind p i acc =
      match p.run i with
      | .error _ => .ok (i, acc)
      | .ok (i1, o) =>
        if i1.length = i.length then .error (i, kind) else manyLoop kind p i1 (acc ++ [o]) := by
  rw [manyLoop]
  split <;> simp_all

/-- `many0(char(c))` takes the leading `c`s, and cannot fail. -/
theorem manyLoop_char (kind : ErrorKind) (c : Char) :
    ∀ (i : List Char) (acc : List Char),
      manyLoop kind (char c) i acc = .ok (i.dropWhile (· = c), acc ++ i.takeWhile (· = c))
  | [], acc => by rw [manyLoop_eq]; simp [char]
  | d :: r, acc => by
    rw [manyLoop_eq]
    by_cases hd : d = c
    · subst hd
      have hrun : (char d).run (d :: r) = .ok (r, d) := by simp [char]
      simp [hrun, manyLoop_char kind d r]
    · simp [char, hd]

theorem many0_char_run (c : Char) (i : List Char) :
    (many0 (char c)).run i = .ok (i.dropWhile (· = c), i.takeWhile (· = c)) :=
  manyLoop_char _ c i []

end SnarkVM.Nom
