import Mathlib.Data.Set.Insert
import Mathlib.Order.Fin.Basic

/-!
# Selections made one element at a time

- `IsBest`: the element with the lowest score of a set that grows; `IsBest.first`,
  `IsBest.keep` and `IsBest.replace`, for what a newcomer does to it.
- `Chosen`: the greedy choice along an index. An index is chosen if something is
  offered there and nothing chosen at a smaller index hits it.
- `exists_chosen_succ`, `chosen_iff_of_record`: the two steps of a loop that keeps a
  record of what was hit so far.
-/

namespace DistFuzz.Lib

/-! ## The best of a growing set -/

section Best

variable {α β : Type*} [Preorder β] {score : α → β} {H : Set α} {s t : α}

/-- `best` is an element of `H` with the lowest score, or none if `H` is empty. -/
structure IsBest (score : α → β) (H : Set α) (best : Option α) : Prop where
  mem : ∀ t, best = some t → t ∈ H
  le : ∀ t, best = some t → ∀ s ∈ H, score t ≤ score s
  empty : best = none → H = ∅

theorem isBest_empty : IsBest score (∅ : Set α) none where
  mem _ ht := nomatch ht
  le _ ht := nomatch ht
  empty _ := rfl

/-- Only the scores of the set's elements matter. -/
theorem IsBest.congr {score' : α → β} {best : Option α} (h : IsBest score H best)
    (heq : ∀ t ∈ H, score' t = score t) : IsBest score' H best where
  mem := h.mem
  le t ht s hs := by
    rw [heq t (h.mem t ht), heq s hs]
    exact h.le t ht s hs
  empty := h.empty

/-- The first element is the best. -/
theorem IsBest.first (h : IsBest score H none) : IsBest score (insert s H) (some s) := by
  rw [h.empty rfl]
  refine { mem := fun t ht => ?_, le := fun t ht s' hs' => ?_, empty := fun ht => nomatch ht }
  · exact .inl (Option.some.inj ht).symm
  · rcases hs' with rfl | hs'
    · exact (congrArg score (Option.some.inj ht).symm).le
    · exact hs'.elim

/-- The best stays if the newcomer is not better. -/
theorem IsBest.keep (h : IsBest score H (some t)) (hle : score t ≤ score s) :
    IsBest score (insert s H) (some t) where
  mem t' ht' := .inr (h.mem t' ht')
  le t' ht' s' hs' := by
    obtain rfl := Option.some.inj ht'
    rcases hs' with rfl | hs'
    · exact hle
    · exact h.le t rfl s' hs'
  empty ht' := nomatch ht'

/-- It is replaced if the newcomer is as good. -/
theorem IsBest.replace (h : IsBest score H (some t)) (hle : score s ≤ score t) :
    IsBest score (insert s H) (some s) where
  mem t' ht' := .inl (Option.some.inj ht').symm
  le t' ht' s' hs' := by
    obtain rfl := Option.some.inj ht'
    rcases hs' with rfl | hs'
    · exact le_rfl
    · exact hle.trans (h.le t rfl s' hs')
  empty ht' := nomatch ht'

end Best

/-! ## The greedy choice -/

section Greedy

variable {α : Type*} {n : Nat}

/-- Index `i` is chosen: something is offered there, and what was chosen at smaller
indices does not hit it. -/
def Chosen (offer : Fin n → Option α) (hits : α → Fin n → Prop) (i : Fin n) : Prop :=
  (offer i).isSome = true ∧
    ∀ j, j < i → Chosen offer hits j → ∀ a, offer j = some a → ¬hits a i
termination_by i.val

theorem chosen_iff (offer : Fin n → Option α) (hits : α → Fin n → Prop) (i : Fin n) :
    Chosen offer hits i ↔ (offer i).isSome = true ∧
      ∀ j, j < i → Chosen offer hits j → ∀ a, offer j = some a → ¬hits a i := by
  rw [Chosen]

variable {offer : Fin n → Option α} {hits : α → Fin n → Prop}

/-- If a record holds what was hit so far, the next index is chosen exactly if
something is offered there and the record does not have it. -/
theorem chosen_iff_of_record {i : Fin n} {record : Fin n → Bool}
    (hrecord : ∀ k, record k = true ↔
      ∃ j, j.val < i.val ∧ Chosen offer hits j ∧ ∃ a, offer j = some a ∧ hits a k) :
    Chosen offer hits i ↔ (offer i).isSome = true ∧ record i = false := by
  rw [chosen_iff, ← Bool.not_eq_true, hrecord i]
  refine and_congr_right fun _ => ?_
  constructor
  · rintro h ⟨j, hj, hchosen, a, ha, hhit⟩
    exact h j hj hchosen a ha hhit
  · intro h j hj hchosen a ha hhit
    exact h ⟨j, hj, hchosen, a, ha, hhit⟩

/-- What was chosen up to the next index. -/
theorem exists_chosen_succ {i : Fin n} {P : Fin n → Prop} :
    (∃ j : Fin n, j.val < i.val + 1 ∧ Chosen offer hits j ∧ P j) ↔
      (∃ j : Fin n, j.val < i.val ∧ Chosen offer hits j ∧ P j) ∨ (Chosen offer hits i ∧ P i) := by
  constructor
  · rintro ⟨j, hj, hchosen, hp⟩
    rcases Nat.lt_succ_iff_lt_or_eq.mp hj with hlt | heq
    · exact .inl ⟨j, hlt, hchosen, hp⟩
    · obtain rfl := Fin.ext heq
      exact .inr ⟨hchosen, hp⟩
  · rintro (⟨j, hj, hchosen, hp⟩ | ⟨hchosen, hp⟩)
    · exact ⟨j, hj.trans (Nat.lt_succ_self _), hchosen, hp⟩
    · exact ⟨i, Nat.lt_succ_self _, hchosen, hp⟩

end Greedy

end DistFuzz.Lib
