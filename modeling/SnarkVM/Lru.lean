import Mathlib.Data.List.Nodup

/-!
`lru::LruCache`, as the VM's cache of partially-verified transactions uses it: `push` and `peek`.
The entries are kept most recently used first. A cache carries as fields that its keys are
distinct and that it holds at most its capacity, which is positive (`NonZeroUsize`).

`push` puts the entry first; it replaces an entry of the same key, or else evicts the least
recently used entry when the cache is full, and returns the entry it dropped. `peek` reads an
entry and leaves the order as it is (unlike `get`, which the VM does not call).
-/

namespace SnarkVM

/-- `LruCache<K, V>`. -/
structure LruCache (K V : Type) [DecidableEq K] where
  cap : Nat
  entries : List (K × V)
  keys_nodup : (entries.map (·.1)).Nodup
  length_le : entries.length ≤ cap
  cap_pos : 0 < cap

namespace LruCache

variable {K V : Type} [DecidableEq K]

/-- `LruCache::new(cap)`. -/
def new (cap : Nat) (hcap : 0 < cap) : LruCache K V :=
  ⟨cap, [], List.nodup_nil, Nat.zero_le _, hcap⟩

/-- `LruCache::peek`: the value of `k`, without touching the order. -/
def peek (c : LruCache K V) (k : K) : Option V := c.entries.lookup k

/-- The entries `push` keeps after the new one. -/
def pushRest (c : LruCache K V) (k : K) : List (K × V) :=
  if k ∈ c.entries.map (·.1) then c.entries.filter (·.1 ≠ k)
  else if c.entries.length < c.cap then c.entries
  else c.entries.dropLast

/-- The entry `push` drops: the old entry of `k`, or the evicted least recently used one. -/
def pushDropped (c : LruCache K V) (k : K) : Option (K × V) :=
  if k ∈ c.entries.map (·.1) then c.entries.find? (·.1 = k)
  else if c.entries.length < c.cap then none
  else c.entries.getLast?

theorem pushRest_sublist (c : LruCache K V) (k : K) : (c.pushRest k).Sublist c.entries := by
  unfold pushRest
  split_ifs
  · exact List.filter_sublist _
  · exact List.Sublist.refl _
  · exact List.dropLast_sublist _

theorem not_mem_pushRest (c : LruCache K V) (k : K) : k ∉ (c.pushRest k).map (·.1) := by
  unfold pushRest
  split_ifs with h
  · simp
  · exact h
  · exact fun hk => h ((List.dropLast_sublist _).map _ |>.subset hk)

theorem length_pushRest_lt (c : LruCache K V) (k : K) : (c.pushRest k).length < c.cap := by
  unfold pushRest
  split_ifs with h h'
  · obtain ⟨e, he, rfl⟩ := List.mem_map.1 h
    have h1 : (c.entries.filter fun x => decide (x.1 ≠ e.1)).length < c.entries.length :=
      List.length_filter_lt_length_iff_exists.2 ⟨e, he, by simp⟩
    have := c.length_le
    omega
  · exact h'
  · have := c.length_le
    have := c.cap_pos
    simp only [List.length_dropLast]
    omega

/-- `LruCache::push`: the cache with `(k, v)` first, and the entry it dropped. -/
def push (c : LruCache K V) (k : K) (v : V) : LruCache K V × Option (K × V) :=
  (⟨c.cap, (k, v) :: c.pushRest k,
    List.nodup_cons.2 ⟨c.not_mem_pushRest k, ((c.pushRest_sublist k).map _).nodup c.keys_nodup⟩,
    c.length_pushRest_lt k, c.cap_pos⟩, c.pushDropped k)

theorem mem_push {c : LruCache K V} {k : K} {v : V} {e : K × V} (h : e ∈ (c.push k v).1.entries) :
    e = (k, v) ∨ e ∈ c.entries := by
  rcases List.mem_cons.1 h with h | h
  · exact Or.inl h
  · exact Or.inr ((c.pushRest_sublist k).subset h)

@[simp] theorem peek_push_self (c : LruCache K V) (k : K) (v : V) : (c.push k v).1.peek k = some v := by
  simp [push, peek]

end LruCache

end SnarkVM
