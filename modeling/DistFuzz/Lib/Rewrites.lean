import Mathlib.Data.List.Range
import Mathlib.Logic.Function.Basic

/-!
# Loops that rewrite each cell once

A pass over an array that replaces the cells of some set by a function of their index and
old value, and leaves the others. Such passes are put together from smaller ones: a loop
whose turns rewrite disjoint sets rewrites their union, and a turn may be left out where it
would change nothing.

- `Rewrites f R c`: the pass `f` replaces the cells in `R` with `c`.
- `rewrites_update`: one assignment; `Rewrites.foldl`: a counting loop;
  `Rewrites.skip`: a turn with a test before it.
-/

namespace DistFuzz.Lib

variable {κ β : Type*}

/-- The pass `f` replaces each cell in `R` with `c`, and leaves the others. -/
structure Rewrites (f : (κ → β) → κ → β) (R : κ → Prop) (c : κ → β → β) : Prop where
  inside : ∀ m i, R i → f m i = c i (m i)
  outside : ∀ m i, ¬R i → f m i = m i

namespace Rewrites

variable {f : (κ → β) → κ → β} {R R' : κ → Prop} {c : κ → β → β}

theorem congr (h : Rewrites f R c) (hiff : ∀ i, R i ↔ R' i) : Rewrites f R' c :=
  ⟨fun m i hi => h.inside m i ((hiff i).mpr hi),
    fun m i hi => h.outside m i (mt (hiff i).mp hi)⟩

/-- The pass may be left out if it would change nothing. -/
theorem skip (h : Rewrites f R c) (test : (κ → β) → Prop) [DecidablePred test]
    (hskip : ∀ m i, ¬test m → R i → c i (m i) = m i) :
    Rewrites (fun m => if test m then f m else m) R c := by
  constructor
  · intro m i hi
    by_cases htest : test m
    · rw [if_pos htest]
      exact h.inside m i hi
    · rw [if_neg htest]
      exact (hskip m i htest hi).symm
  · intro m i hi
    by_cases htest : test m
    · rw [if_pos htest]
      exact h.outside m i hi
    · rw [if_neg htest]

/-- A loop whose turns rewrite disjoint sets of cells. -/
theorem foldl {f : (κ → β) → Nat → κ → β} {R : Nat → κ → Prop} {n : Nat}
    (h : ∀ k, k < n → Rewrites (fun m => f m k) (R k) c)
    (hdisj : ∀ k k' i, R k i → R k' i → k = k') :
    Rewrites (fun m => (List.range n).foldl f m) (fun i => ∃ k, k < n ∧ R k i) c := by
  induction n with
  | zero =>
    exact ⟨fun _ _ ⟨_, hk, _⟩ => absurd hk (Nat.not_lt_zero _), fun _ _ _ => rfl⟩
  | succ n ih =>
    have hpre := ih fun k hk => h k (Nat.lt_succ_of_lt hk)
    have hlast := h n (Nat.lt_succ_self n)
    have hunfold (m : κ → β) : (List.range (n + 1)).foldl f m
        = f ((List.range n).foldl f m) n := by
      rw [List.range_succ, List.foldl_append]
      rfl
    constructor
    · rintro m i ⟨k, hk, hi⟩
      show (List.range (n + 1)).foldl f m i = c i (m i)
      rw [hunfold]
      by_cases hn : R n i
      · -- no earlier turn has touched the cell
        have hbefore : ¬∃ k, k < n ∧ R k i := by
          rintro ⟨k', hk', hi'⟩
          exact absurd (hdisj k' n i hi' hn) (Nat.ne_of_lt hk')
        rw [hlast.inside _ i hn, hpre.outside m i hbefore]
      · have hlt : k < n := by
          refine lt_of_le_of_ne (Nat.le_of_lt_succ hk) fun heq => hn ?_
          rwa [← heq]
        rw [hlast.outside _ i hn]
        exact hpre.inside m i ⟨k, hlt, hi⟩
    · intro m i hi
      show (List.range (n + 1)).foldl f m i = m i
      rw [hunfold, hlast.outside _ i fun hn => hi ⟨n, Nat.lt_succ_self n, hn⟩]
      exact hpre.outside m i fun ⟨k, hk, hk'⟩ => hi ⟨k, Nat.lt_succ_of_lt hk, hk'⟩

end Rewrites

/-- One assignment. -/
theorem rewrites_update [DecidableEq κ] {c : κ → β → β} {k : κ} {v : β}
    (h : ∀ x, c k x = v) : Rewrites (fun t => Function.update t k v) (· = k) c := by
  constructor
  · rintro t i rfl
    rw [h]
    exact Function.update_self ..
  · intro t i hi
    exact Function.update_of_ne hi ..

end DistFuzz.Lib
