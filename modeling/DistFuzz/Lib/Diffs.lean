import Mathlib.Data.List.Basic
import Mathlib.Order.Nat

/-!
# Where two lists differ, and what a crossover of them is

- `DiffRange`: the first and the last position, among the first `n`, at which two lists
  differ, with a lemma for each way a scan of one more position goes.
- `crossover a b k`: the first `k` elements of `a`, then what `b` has from there on.
- `DiffRange.crossover_ne_right_iff`, `DiffRange.crossover_ne_left`: when a crossover
  between those positions is a copy of one of the two lists.
-/

namespace DistFuzz.Lib

variable {α : Type*} {a b : List α} {n f l k : Nat}

/-! ## The first and the last difference -/

/-- The lists differ at `f` and at `l`, and at no other position below `n` that is not
between those. -/
structure DiffRange (a b : List α) (n f l : Nat) : Prop where
  le : f ≤ l
  lt : l < n
  first : a[f]? ≠ b[f]?
  before : ∀ pos, pos < f → a[pos]? = b[pos]?
  last : a[l]? ≠ b[l]?
  after : ∀ pos, l < pos → pos < n → a[pos]? = b[pos]?

/-- The first difference a scan finds. -/
theorem diffRange_first (hagree : ∀ pos, pos < n → a[pos]? = b[pos]?) (hne : a[n]? ≠ b[n]?) :
    DiffRange a b (n + 1) n n where
  le := le_rfl
  lt := Nat.lt_succ_self n
  first := hne
  before := hagree
  last := hne
  after pos hlt hle := absurd hle (by omega)

/-- A later one. -/
theorem DiffRange.extend (h : DiffRange a b n f l) (hne : a[n]? ≠ b[n]?) :
    DiffRange a b (n + 1) f n where
  le := h.le.trans h.lt.le
  lt := Nat.lt_succ_self n
  first := h.first
  before := h.before
  last := hne
  after pos hlt hle := absurd hle (by omega)

/-- A position at which the lists agree. -/
theorem DiffRange.skip (h : DiffRange a b n f l) (heq : a[n]? = b[n]?) :
    DiffRange a b (n + 1) f l where
  le := h.le
  lt := h.lt.trans (Nat.lt_succ_self n)
  first := h.first
  before := h.before
  last := h.last
  after pos hlt hle := by
    rcases Nat.lt_succ_iff_lt_or_eq.mp hle with hpos | rfl
    · exact h.after pos hlt hpos
    · exact heq

theorem DiffRange.unique {f' l' : Nat} (h : DiffRange a b n f l) (h' : DiffRange a b n f' l') :
    f = f' ∧ l = l' := by
  constructor
  · have hf : ¬f < f' := fun hlt => h.first (h'.before f hlt)
    have hf' : ¬f' < f := fun hlt => h'.first (h.before f' hlt)
    omega
  · have hl : ¬l < l' := fun hlt => h'.last (h.after l' hlt h'.lt)
    have hl' : ¬l' < l := fun hlt => h.last (h'.after l hlt h.lt)
    omega

/-! ## Crossovers -/

/-- The first `k` elements of `a`, and those of `b` from there on. -/
def crossover (a b : List α) (k : Nat) : List α := a.take k ++ b.drop k

theorem getElem?_crossover_of_lt {pos : Nat} (ha : k ≤ a.length) (hpos : pos < k) :
    (crossover a b k)[pos]? = a[pos]? := by
  rw [crossover, List.getElem?_append_left (by rwa [List.length_take_of_le ha]),
    List.getElem?_take_of_lt hpos]

theorem getElem?_crossover_of_le {pos : Nat} (ha : k ≤ a.length) (hpos : k ≤ pos) :
    (crossover a b k)[pos]? = b[pos]? := by
  have hlen := List.length_take_of_le ha
  rw [crossover, List.getElem?_append_right (by omega), hlen, List.getElem?_drop]
  congr 1
  omega

/-- From the first difference on, a crossover is a copy of the second list only right
there. -/
theorem DiffRange.crossover_ne_right_iff (h : DiffRange a b n f l) (hf : f ≤ k)
    (ha : k ≤ a.length) : crossover a b k ≠ b ↔ f < k := by
  constructor
  · intro hne
    refine lt_of_le_of_ne hf fun heq => hne ?_
    subst heq
    refine List.ext_getElem? fun pos => ?_
    by_cases hpos : pos < f
    · rw [getElem?_crossover_of_lt ha hpos]
      exact h.before pos hpos
    · exact getElem?_crossover_of_le ha (not_lt.mp hpos)
  · intro hlt heq
    have hget := getElem?_crossover_of_lt (b := b) ha hlt
    rw [heq] at hget
    exact h.first hget.symm

/-- Up to the last difference, it is no copy of a list that has there what the first
one has. -/
theorem DiffRange.crossover_ne_left (h : DiffRange a b n f l) (hl : k ≤ l) (ha : k ≤ a.length)
    {a' : List α} (hagree : a'[l]? = a[l]?) : crossover a b k ≠ a' := by
  intro heq
  have hget := getElem?_crossover_of_le (b := b) ha hl
  rw [heq, hagree] at hget
  exact h.last hget

end DistFuzz.Lib
