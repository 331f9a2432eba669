import Mathlib.Data.List.Perm.Subperm
import Mathlib.Data.Nat.Find

/-!
# Maximal runs of a function on `0, …, n - 1`

The stretches on which a function is constant, apart from those where it has one
background value, and how to find them in one pass from left to right.

- `MaxRun`: the stretch `[a, b)` is such a run and cannot be extended.
- `lastStart`, `closedRuns`: where the current stretch began and the runs that ended
  before the current position, as a left-to-right pass computes them.
- `mem_closedRuns`, `closedRuns_ordered`: these are exactly the maximal runs that ended,
  in order.
- `exists_maxRun`: every position off the background lies in a maximal run.
- `lt_of_length_eq`: a pass that found as many runs as there are found all of them.
-/

namespace DistFuzz.Lib

variable {α : Type}

/-- `f` is constant on `[a, b)`, not at its background value `q`, and `[a, b)` is not part
of a longer such stretch of `[0, n)`. -/
def MaxRun (f : Nat → α) (q : α) (n a b : Nat) : Prop :=
  a < b ∧ b ≤ n ∧ (∀ x, a ≤ x → x < b → f x = f a) ∧ f a ≠ q ∧
    (a = 0 ∨ f (a - 1) ≠ f a) ∧ (b = n ∨ f b ≠ f a)

variable [DecidableEq α] (f : Nat → α) (q : α)

/-- Where the stretch that contains position `m - 1` begins. -/
def lastStart : (m : Nat) → Nat
  | 0 => 0
  | m + 1 => if m = 0 ∨ f m = f (m - 1) then lastStart m else m

/-- The runs that end at a position before `m`, from left to right. -/
def closedRuns : (m : Nat) → List (Nat × Nat)
  | 0 => []
  | m + 1 =>
    closedRuns m ++ if m ≠ 0 ∧ f m ≠ f (m - 1) ∧ f (m - 1) ≠ q then [(lastStart f m, m)] else []

variable {f q}

/-- The stretch before `m` is constant and does not extend to the left. -/
theorem lastStart_spec {m : Nat} (hm : 0 < m) :
    lastStart f m < m ∧ (∀ x, lastStart f m ≤ x → x < m → f x = f (m - 1)) ∧
      (lastStart f m = 0 ∨ f (lastStart f m - 1) ≠ f (m - 1)) := by
  induction m with
  | zero => omega
  | succ m ih =>
    rw [lastStart, Nat.add_sub_cancel]
    by_cases hzero : m = 0
    · rw [if_pos (.inl hzero)]
      subst hzero
      refine ⟨Nat.one_pos, fun x _ hx => ?_, .inl rfl⟩
      rw [Nat.lt_one_iff.mp hx]
    · obtain ⟨hlt, hconst, hleft⟩ := ih (by omega)
      by_cases heq : f m = f (m - 1)
      · rw [if_pos (.inr heq), heq]
        refine ⟨by omega, fun x hx hxm => ?_, hleft⟩
        by_cases hlast : x = m
        · rw [hlast, heq]
        · exact hconst x hx (by omega)
      · rw [if_neg (by tauto)]
        refine ⟨by omega, fun x hx hxm => ?_, .inr fun h => heq h.symm⟩
        rw [show x = m by omega]

/-- A run that ends at `m` began where the stretch before `m` begins. -/
theorem maxRun_iff {n a m : Nat} (hm : m < n) :
    MaxRun f q n a m ↔ m ≠ 0 ∧ f m ≠ f (m - 1) ∧ f (m - 1) ≠ q ∧ a = lastStart f m := by
  constructor
  · rintro ⟨hab, -, hconst, hne, hleft, hright⟩
    obtain ⟨hlt, hstretch, hstop⟩ := lastStart_spec (f := f) (show 0 < m by omega)
    have hend : f (m - 1) = f a := hconst (m - 1) (by omega) (by omega)
    have hright' : f m ≠ f a := hright.resolve_left (by omega)
    refine ⟨by omega, by rwa [hend], by rwa [hend], ?_⟩
    -- neither of the two starts can be inside of the other stretch
    by_contra hstart
    rcases Nat.lt_or_gt_of_ne hstart with hlow | hhigh
    · refine hstop.elim (fun h => by omega) fun h => h ?_
      rw [hend]
      exact hconst _ (by omega) (by omega)
    · refine hleft.elim (fun h => by omega) fun h => h ?_
      rw [← hend]
      exact hstretch _ (by omega) (by omega)
  · rintro ⟨hm0, hright, hne, rfl⟩
    obtain ⟨hlt, hstretch, hstop⟩ := lastStart_spec (f := f) (show 0 < m by omega)
    have hstart : f (lastStart f m) = f (m - 1) := hstretch _ (Nat.le_refl _) hlt
    refine ⟨hlt, Nat.le_of_lt hm, fun x hx hxm => ?_, by rwa [hstart], ?_, .inr (by rwa [hstart])⟩
    · rw [hstretch x hx hxm, hstart]
    · rwa [hstart]

/-- **The pass finds the maximal runs** that ended so far. -/
theorem mem_closedRuns {n m : Nat} (hm : m ≤ n) {r : Nat × Nat} :
    r ∈ closedRuns f q m ↔ MaxRun f q n r.1 r.2 ∧ r.2 < m := by
  induction m with
  | zero => simp [closedRuns]
  | succ m ih =>
    have hnew : r ∈ (if m ≠ 0 ∧ f m ≠ f (m - 1) ∧ f (m - 1) ≠ q then [(lastStart f m, m)] else [])
        ↔ MaxRun f q n r.1 r.2 ∧ r.2 = m := by
      obtain ⟨a, b⟩ := r
      rw [List.mem_ite_nil_right, List.mem_singleton, Prod.mk.injEq]
      constructor
      · rintro ⟨⟨h0, hne, hq⟩, rfl, rfl⟩
        exact ⟨(maxRun_iff (by omega)).mpr ⟨h0, hne, hq, rfl⟩, rfl⟩
      · rintro ⟨hrun, rfl⟩
        obtain ⟨h0, hne, hq, ha⟩ := (maxRun_iff (by omega)).mp hrun
        exact ⟨⟨h0, hne, hq⟩, ha, rfl⟩
    rw [closedRuns, List.mem_append, ih (by omega), hnew, ← and_or_left]
    exact and_congr_right fun _ => by omega

theorem le_lastStart {m : Nat} {r : Nat × Nat} (hr : r ∈ closedRuns f q m) :
    r.2 ≤ lastStart f m := by
  induction m with
  | zero => cases hr
  | succ m ih =>
    have hmono : lastStart f m ≤ lastStart f (m + 1) := by
      rw [lastStart]
      split
      · exact Nat.le_refl _
      · next h =>
        have hpos : 0 < m := Nat.pos_of_ne_zero fun h0 => h (.inl h0)
        exact Nat.le_of_lt (lastStart_spec hpos).1
    rw [closedRuns, List.mem_append, List.mem_ite_nil_right, List.mem_singleton] at hr
    rcases hr with hr | ⟨⟨h0, hne, -⟩, rfl⟩
    · exact Nat.le_trans (ih hr) hmono
    · rw [lastStart, if_neg (not_or.mpr ⟨h0, hne⟩)]

/-- One run ends where the next one begins, or before. -/
theorem closedRuns_ordered (m : Nat) :
    (closedRuns f q m).Pairwise fun r r' => r.2 ≤ r'.1 := by
  induction m with
  | zero => exact List.Pairwise.nil
  | succ m ih =>
    rw [closedRuns, List.pairwise_append]
    refine ⟨ih, by split <;> simp, fun r hr r' hr' => ?_⟩
    rw [List.mem_ite_nil_right, List.mem_singleton] at hr'
    obtain ⟨-, rfl⟩ := hr'
    exact le_lastStart hr

/-- Every position off the background is in a maximal run. -/
theorem exists_maxRun {n x : Nat} (hx : x < n) (hne : f x ≠ q) :
    ∃ a b, MaxRun f q n a b ∧ x < b := by
  obtain ⟨hlt, hconst, hleft⟩ := lastStart_spec (f := f) (show 0 < x + 1 by omega)
  rw [Nat.add_sub_cancel] at hconst hleft
  -- the first position after `x` at which the stretch ends
  have hends : ∃ b, x < b ∧ (b = n ∨ f b ≠ f x) := ⟨n, hx, .inl rfl⟩
  obtain ⟨hxb, hright⟩ := Nat.find_spec hends
  have hbefore : ∀ y, x ≤ y → y < Nat.find hends → y < n ∧ f y = f x := by
    intro y hxy hy
    induction y, hxy using Nat.le_induction with
    | base => exact ⟨hx, rfl⟩
    | succ y hxy ih =>
      have hmin := Nat.find_min hends hy
      rw [not_and, not_or, not_not] at hmin
      obtain ⟨hn, hf⟩ := hmin (by omega)
      exact ⟨by have := (ih (by omega)).1; omega, hf⟩
  have hstart : f (lastStart f (x + 1)) = f x := hconst _ (Nat.le_refl _) hlt
  have hle : Nat.find hends ≤ n := Nat.find_min' hends ⟨hx, .inl rfl⟩
  refine ⟨lastStart f (x + 1), Nat.find hends, ⟨by omega, hle, fun y hy hyb => ?_, ?_, ?_, ?_⟩, hxb⟩
  · rw [hstart]
    by_cases hyx : y < x + 1
    · exact hconst y hy hyx
    · exact (hbefore y (by omega) hyb).2
  · rwa [hstart]
  · rwa [hstart]
  · rwa [hstart]

/-- Intervals in order are distinct. -/
theorem nodup_of_ordered {l : List (Nat × Nat)} (hpos : ∀ r ∈ l, r.1 < r.2)
    (hl : l.Pairwise fun r r' => r.2 ≤ r'.1) : l.Nodup := by
  refine hl.imp_of_mem fun {r r'} hr _ hle heq => ?_
  have hlt := hpos r hr
  rw [← heq] at hle
  omega

/-- If as many runs ended before `m` as there are, they are all the runs. -/
theorem lt_of_length_eq {n m : Nat} (hm : m ≤ n) {rs : List (Nat × Nat)}
    (hrs : ∀ r, r ∈ rs ↔ MaxRun f q n r.1 r.2)
    (hlen : rs.length = (closedRuns f q m).length) {r : Nat × Nat} (hr : r ∈ rs) : r.2 < m := by
  have hclosed : (closedRuns f q m).Nodup := by
    refine nodup_of_ordered (fun r hr => ?_) (closedRuns_ordered m)
    exact ((mem_closedRuns hm).mp hr).1.1
  have hsub : closedRuns f q m ⊆ rs := fun r hr => (hrs r).mpr ((mem_closedRuns hm).mp hr).1
  have hperm := (List.Nodup.subperm hclosed hsub).perm_of_length_le (Nat.le_of_eq hlen)
  exact ((mem_closedRuns hm).mp (hperm.mem_iff.mpr hr)).2

end DistFuzz.Lib
