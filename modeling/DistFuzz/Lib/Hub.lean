import DistFuzz.Lib.Runs
import Mathlib.Data.List.Induction
import Mathlib.Data.Set.Lattice
import Mathlib.Logic.Function.Basic

/-!
# Sharing knowledge through a hub

Any number of participants each know a set of facts and share them through a
common set, the hub. A participant learns facts on its own, or synchronises: it
adds what it knows to the hub and takes over what the hub then knows.

- `Hub`, `HubAction`, `Hub.step`: the protocol, over arbitrary facts.
- `Learned`, `Published`: what was learned at all, and what was learned by a
  participant that synchronised afterwards.
- `Hub.run_subset`, `Hub.run_subset_learned`: nothing is lost and nothing is made
  up.
- `Hub.hub_run`: the hub knows exactly what was published.
- `Exchanged`: of any two participants, each synchronises after the other.
  `Hub.converged`: then everybody knows everything.
-/

namespace DistFuzz.Lib

variable {κ α : Type*}

/-- What the participants know and what the hub knows. -/
@[ext] structure Hub (κ α : Type*) where
  known : κ → Set α
  hub : Set α

/-- A participant learns some facts, or synchronises. -/
inductive HubAction (κ α : Type*) where
  | learn (k : κ) (facts : Set α)
  | sync (k : κ)

/-- Nobody knows anything. -/
def Hub.empty : Hub κ α := ⟨fun _ => ∅, ∅⟩

/-- What was learned by anybody. -/
def Learned (as : List (HubAction κ α)) : Set α := {a | ∃ k t, .learn k t ∈ as ∧ a ∈ t}

/-- What participant `k` learned itself. -/
def LearnedBy (k : κ) (as : List (HubAction κ α)) : Set α := {a | ∃ t, .learn k t ∈ as ∧ a ∈ t}

/-- What was learned by a participant before one of its own synchronisations. -/
def Published (as : List (HubAction κ α)) : Set α :=
  {a | ∃ k t pre post, as = pre ++ .learn k t :: post ∧ a ∈ t ∧ .sync k ∈ post}

/-- In this order of synchronisations every participant `j` comes at or after
some synchronisation of every participant `k`. -/
def Exchanged (ks : List κ) : Prop := ∀ k j, ∃ pre post, ks = pre ++ k :: post ∧ j ∈ k :: post

theorem learnedBy_subset (k : κ) (as : List (HubAction κ α)) : LearnedBy k as ⊆ Learned as :=
  fun _ ⟨t, ht, ha⟩ => ⟨k, t, ht, ha⟩

theorem published_subset (as : List (HubAction κ α)) : Published as ⊆ Learned as := by
  rintro a ⟨k, t, pre, post, rfl, ha, -⟩
  exact ⟨k, t, by simp, ha⟩

theorem learnedBy_learn (k k' : κ) (t : Set α) (as : List (HubAction κ α)) :
    LearnedBy k' (as ++ [.learn k t]) = {a | a ∈ LearnedBy k' as ∨ k' = k ∧ a ∈ t} := by
  ext a
  simp only [LearnedBy, List.mem_append, List.mem_singleton, HubAction.learn.injEq,
    Set.mem_ofPred_eq, or_and_right, exists_or]
  refine or_congr_right ⟨?_, ?_⟩
  · rintro ⟨_, ⟨hk, rfl⟩, ha⟩
    exact ⟨hk, ha⟩
  · rintro ⟨hk, ha⟩
    exact ⟨t, ⟨hk, rfl⟩, ha⟩

theorem learnedBy_sync (k k' : κ) (as : List (HubAction κ α)) :
    LearnedBy k' (as ++ [.sync k]) = LearnedBy k' as := by
  ext a
  simp [LearnedBy]

theorem learned_syncs (as : List (HubAction κ α)) (ks : List κ) :
    Learned (as ++ ks.map .sync) = Learned as := by
  ext a
  simp [Learned]

theorem mem_published_of_sync {k : κ} {t : Set α} {as as' : List (HubAction κ α)} {a : α}
    (ht : .learn k t ∈ as) (ha : a ∈ t) (hsync : .sync k ∈ as') : a ∈ Published (as ++ as') := by
  obtain ⟨pre, post, rfl⟩ := List.append_of_mem ht
  exact ⟨k, t, pre, post ++ as', by simp, ha, List.mem_append_right _ hsync⟩

/-- Learning publishes nothing. -/
theorem published_learn (k : κ) (t : Set α) (as : List (HubAction κ α)) :
    Published (as ++ [.learn k t]) = Published as := by
  ext a
  constructor
  · rintro ⟨k', t', pre, post, heq, ha, hsync⟩
    rcases List.eq_nil_or_concat' post with rfl | ⟨post, x, rfl⟩
    · cases hsync
    · have hsplit : as ++ [.learn k t] = (pre ++ .learn k' t' :: post) ++ [x] := by
        simpa using heq
      obtain ⟨rfl, hx⟩ := List.append_inj' hsplit rfl
      obtain rfl := List.cons.inj hx |>.1
      refine ⟨k', t', pre, post, rfl, ha, ?_⟩
      simpa using hsync
  · rintro ⟨k', t', pre, post, rfl, ha, hsync⟩
    exact ⟨k', t', pre, post ++ [.learn k t], by simp, ha, by simp [hsync]⟩

/-- Synchronising publishes what the participant learned. -/
theorem published_sync (k : κ) (as : List (HubAction κ α)) :
    Published (as ++ [.sync k]) = Published as ∪ LearnedBy k as := by
  ext a
  constructor
  · rintro ⟨k', t', pre, post, heq, ha, hsync⟩
    -- the sync that publishes is the new one, or an earlier one
    rcases List.eq_nil_or_concat' post with rfl | ⟨post, x, rfl⟩
    · cases hsync
    · have hsplit : as ++ [.sync k] = (pre ++ .learn k' t' :: post) ++ [x] := by
        simpa using heq
      obtain ⟨rfl, hx⟩ := List.append_inj' hsplit rfl
      obtain rfl := List.cons.inj hx |>.1
      rcases List.mem_append.mp hsync with hmem | hmem
      · exact .inl ⟨k', t', pre, post, rfl, ha, hmem⟩
      · obtain rfl : k' = k := by simpa using hmem
        exact .inr ⟨t', by simp, ha⟩
  · rintro (⟨k', t', pre, post, rfl, ha, hsync⟩ | ⟨t, ht, ha⟩)
    · exact ⟨k', t', pre, post ++ [.sync k], by simp, ha, by simp [hsync]⟩
    · exact mem_published_of_sync ht ha (by simp)

section Step

variable [DecidableEq κ]

/-- One action. -/
def Hub.step (s : Hub κ α) : HubAction κ α → Hub κ α
  | .learn k facts => { s with known := Function.update s.known k (s.known k ∪ facts) }
  | .sync k =>
    { known := Function.update s.known k (s.hub ∪ s.known k), hub := s.hub ∪ s.known k }

/-- Nothing that was known is forgotten in a step. -/
theorem Hub.step_subset (s : Hub κ α) (x : HubAction κ α) :
    (∀ k, s.known k ⊆ (s.step x).known k) ∧ s.hub ⊆ (s.step x).hub := by
  cases x with
  | learn k facts =>
    refine ⟨fun k' a ha => ?_, fun a ha => ha⟩
    by_cases hk : k' = k
    · subst hk
      simp [Hub.step, ha]
    · simpa [Hub.step, hk] using ha
  | sync k =>
    refine ⟨fun k' a ha => ?_, fun a ha => .inl ha⟩
    by_cases hk : k' = k
    · subst hk
      simp [Hub.step, ha]
    · simpa [Hub.step, hk] using ha

/-- Nothing that was known is forgotten in a run. -/
theorem Hub.run_subset (s : Hub κ α) (xs : List (HubAction κ α)) :
    (∀ k, s.known k ⊆ (run Hub.step s xs).known k) ∧ s.hub ⊆ (run Hub.step s xs).hub := by
  induction xs generalizing s with
  | nil => exact ⟨fun k a ha => ha, fun a ha => ha⟩
  | cons x xs ih =>
    obtain ⟨hknown, hhub⟩ := ih (s.step x)
    obtain ⟨hknown', hhub'⟩ := s.step_subset x
    exact ⟨fun k a ha => hknown k (hknown' k ha), fun a ha => hhub (hhub' ha)⟩

/-- A participant knows what it learned, and otherwise only what the hub
knows. -/
theorem Hub.known_run (as : List (HubAction κ α)) (k : κ) :
    LearnedBy k as ⊆ (run Hub.step .empty as).known k ∧
      (run Hub.step .empty as).known k ⊆ (run Hub.step .empty as).hub ∪ LearnedBy k as := by
  -- from the last action on; a participant learns from others only at its own sync
  induction as using List.reverseRecOn with
  | nil => exact ⟨fun a ⟨t, ht, _⟩ => (nomatch ht), fun a ha => (nomatch ha)⟩
  | append_singleton as x ih =>
    obtain ⟨hlearned, hknown⟩ := ih
    rw [run_concat]
    generalize run Hub.step (.empty : Hub κ α) as = s at hlearned hknown
    cases x with
    | learn k' t =>
      rw [learnedBy_learn]
      by_cases hk : k = k'
      · subst hk
        simp only [Hub.step, Function.update_self, true_and]
        exact ⟨fun a ha => ha.imp_left fun h => hlearned h,
          fun a ha => ha.elim (fun h => (hknown h).imp_right .inl) fun h => .inr (.inr h)⟩
      · simp only [Hub.step, Function.update_of_ne hk, hk, false_and, or_false, Set.ofPred_mem_eq]
        exact ⟨hlearned, hknown⟩
    | sync k' =>
      rw [learnedBy_sync]
      by_cases hk : k = k'
      · subst hk
        simp only [Hub.step, Function.update_self]
        exact ⟨fun a ha => .inr (hlearned ha), fun a ha => .inl ha⟩
      · simp only [Hub.step, Function.update_of_ne hk]
        exact ⟨hlearned, fun a ha => (hknown ha).imp_left .inl⟩

/-- The hub knows exactly what was published. -/
theorem Hub.hub_run (as : List (HubAction κ α)) :
    (run Hub.step .empty as).hub = Published as := by
  induction as using List.reverseRecOn with
  | nil =>
    refine (Set.eq_empty_of_forall_notMem ?_).symm
    rintro a ⟨k, t, pre, post, heq, -⟩
    simp at heq
  | append_singleton as x ih =>
    rw [run_concat]
    cases x with
    | learn k t =>
      rw [published_learn, ← ih]
      rfl
    | sync k =>
      -- what the participant knows is what it learned itself and what the hub had already
      obtain ⟨hlearned, hknown⟩ := Hub.known_run as k
      rw [published_sync, ← ih]
      refine Set.Subset.antisymm ?_ (Set.union_subset_union_right _ hlearned)
      exact Set.union_subset Set.subset_union_left hknown

/-- Nobody knows what nobody learned. -/
theorem Hub.run_subset_learned (as : List (HubAction κ α)) :
    (∀ k, (run Hub.step .empty as).known k ⊆ Learned as) ∧
      (run Hub.step .empty as).hub ⊆ Learned as := by
  have hhub : (run Hub.step .empty as).hub ⊆ Learned as := by
    rw [Hub.hub_run]
    exact published_subset as
  exact ⟨fun k a ha => ((Hub.known_run as k).2 ha).elim (fun h => hhub h)
    fun h => learnedBy_subset k as h, hhub⟩

/-- A participant that synchronises takes over what the hub knew before. -/
theorem Hub.hub_subset_known_of_sync {k : κ} {ks : List κ} (hk : k ∈ ks) (s : Hub κ α) :
    s.hub ⊆ (run Hub.step s (ks.map .sync)).known k := by
  induction ks generalizing s with
  | nil => cases hk
  | cons k' ks ih =>
    rw [List.map_cons, run_cons]
    by_cases hkk : k = k'
    · subst hkk
      refine fun a ha => (Hub.run_subset _ _).1 k ?_
      simp [Hub.step, ha]
    · have hmem : k ∈ ks := (List.mem_cons.mp hk).resolve_left hkk
      exact fun a ha => ih hmem (s.step (.sync k')) ((s.step_subset (.sync k')).2 ha)

/-- If of any two participants each synchronises after the other has,
everybody ends up knowing exactly what was learned. -/
theorem Hub.converged (as : List (HubAction κ α)) {ks : List κ} (hks : Exchanged ks) :
    (∀ k, (run Hub.step .empty (as ++ ks.map .sync)).known k = Learned as) ∧
      (run Hub.step .empty (as ++ ks.map .sync)).hub = Learned as := by
  obtain ⟨hknown, hhub⟩ := Hub.run_subset_learned (as ++ ks.map .sync)
  rw [learned_syncs] at hhub
  simp only [learned_syncs] at hknown
  refine ⟨fun j => (hknown j).antisymm ?_, hhub.antisymm ?_⟩
  · rintro a ⟨k, t, ht, ha⟩
    obtain ⟨pre, post, rfl, hj⟩ := hks k j
    rcases List.mem_cons.mp hj with rfl | hj
    · exact (Hub.known_run _ j).1 ⟨t, List.mem_append_left _ ht, ha⟩
    · -- the fact is in the hub once `k` has synchronised, and `j` comes later
      have hpub : a ∈ (run Hub.step .empty (as ++ (pre ++ [k]).map .sync)).hub := by
        rw [Hub.hub_run]
        exact mem_published_of_sync ht ha (by simp)
      have htake := Hub.hub_subset_known_of_sync hj _ hpub
      rw [← run_append] at htake
      simpa using htake
  · rintro a ⟨k, t, ht, ha⟩
    obtain ⟨pre, post, rfl, -⟩ := hks k k
    rw [Hub.hub_run]
    exact mem_published_of_sync ht ha (by simp)

end Step

end DistFuzz.Lib
