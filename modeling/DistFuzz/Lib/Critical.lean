import DistFuzz.Lib.Runs
import Mathlib.Logic.Function.Basic

/-!
# Critical sections under one lock

Any number of threads call operations on a state they share. An operation takes the
lock, makes some steps on the shared state, and releases the lock with a result; in
between, the steps of the others come in any order.

- `Section`: what an operation does between taking and releasing the lock.
- `Guarded`, `Event`, `stepGuarded`: the threads, the lock and the shared state.
- `Whole`, `Serial`: an operation executed alone, and operations one after the other.
- `serial_run`: whatever the interleaving, the results, in the order in which they are
  returned, are those of the operations executed one after the other in that order.
-/

namespace DistFuzz.Lib

variable {τ σ ι κ ο : Type*}

/-- The body of an operation: where it begins, one step of it (none once there is
nothing left to do), and its result. -/
structure Section (σ ι κ ο : Type*) where
  enter : ι → κ
  next : σ → κ → Option (σ × κ)
  result : κ → ο

/-! ### An operation alone -/

/-- Steps of a body that nothing comes between. -/
inductive Section.Runs (sec : Section σ ι κ ο) : σ → κ → σ → κ → Prop where
  | refl (s : σ) (k : κ) : Runs sec s k s k
  | step {s s' s'' : σ} {k k' k'' : κ} (h : Runs sec s k s' k')
      (hnext : sec.next s' k' = some (s'', k'')) : Runs sec s k s'' k''

/-- Operation `op`, executed alone from `s`, returns `o` and leaves `s'`. -/
def Section.Whole (sec : Section σ ι κ ο) (s : σ) (op : ι) (o : ο) (s' : σ) : Prop :=
  ∃ k, sec.Runs s (sec.enter op) s' k ∧ sec.next s' k = none ∧ sec.result k = o

/-- Calls executed one after the other. -/
inductive Section.Serial (sec : Section σ ι κ ο) : σ → List (τ × ι × ο) → σ → Prop where
  | nil (s : σ) : Serial sec s [] s
  | concat {s s' s'' : σ} {log : List (τ × ι × ο)} {t : τ} {op : ι} {o : ο}
      (h : Serial sec s log s') (hwhole : sec.Whole s' op o s'') :
      Serial sec s (log ++ [(t, op, o)]) s''

/-! ### All threads -/

/-- Where a thread is. -/
inductive Place (ι κ : Type*) where
  | outside
  | inside (op : ι) (k : κ)

/-- The shared state, the lock, and the threads. A thread that is inside has its operation and
the locals with which it goes on. -/
structure Guarded (τ σ ι κ : Type*) where
  shared : σ
  holder : Option τ
  place : τ → Place ι κ

/-- Nobody is inside. -/
def Guarded.start (s : σ) : Guarded τ σ ι κ := ⟨s, none, fun _ => .outside⟩

/-- A thread tries to take the lock for an operation, or goes on inside of it. -/
inductive GuardEvent (τ ι : Type*) where
  | lock (t : τ) (op : ι)
  | move (t : τ)

/-- The call that returns in this step, if any. -/
def returned (sec : Section σ ι κ ο) (g : Guarded τ σ ι κ) :
    GuardEvent τ ι → Option (τ × ι × ο)
  | .lock _ _ => none
  | .move t =>
    match g.place t with
    | .outside => none
    | .inside op k =>
      match sec.next g.shared k with
      | some _ => none
      | none => some (t, op, sec.result k)

/-- One step. A thread that does not get the lock waits; one that has nothing left to
do inside releases it. -/
def stepGuarded [DecidableEq τ] (sec : Section σ ι κ ο) (g : Guarded τ σ ι κ) :
    GuardEvent τ ι → Guarded τ σ ι κ
  | .lock t op =>
    match g.holder, g.place t with
    | none, .outside =>
      { g with holder := some t, place := Function.update g.place t (.inside op (sec.enter op)) }
    | _, _ => g
  | .move t =>
    match g.place t with
    | .outside => g
    | .inside op k =>
      match sec.next g.shared k with
      | some (s, k') => { g with shared := s, place := Function.update g.place t (.inside op k') }
      | none => { g with holder := none, place := Function.update g.place t .outside }

/-- What a run keeps: only the holder is inside, and the shared state is that of the
calls returned so far, in their order, with the steps of the holder on top. -/
structure Serialised (sec : Section σ ι κ ο) (s₀ : σ) (history : List (Option (τ × ι × ο)))
    (g : Guarded τ σ ι κ) : Prop where
  outside : ∀ t, g.holder ≠ some t → g.place t = .outside
  free : g.holder = none → sec.Serial s₀ history.reduceOption g.shared
  held : ∀ t, g.holder = some t → ∃ s op k, g.place t = .inside op k ∧
    sec.Serial s₀ history.reduceOption s ∧ sec.Runs s (sec.enter op) g.shared k

variable {sec : Section σ ι κ ο}

theorem serialised_start (s : σ) :
    Serialised sec s [] (.start s : Guarded τ σ ι κ) where
  outside _ _ := rfl
  free _ := .nil s
  held _ h := nomatch h

/-- A thread that is inside holds the lock. -/
theorem Serialised.holder_of_inside {s₀ : σ} {history : List (Option (τ × ι × ο))}
    {g : Guarded τ σ ι κ} (h : Serialised sec s₀ history g) {t : τ} {op : ι} {k : κ}
    (hplace : g.place t = .inside op k) : g.holder = some t := by
  by_contra hne
  rw [h.outside t hne] at hplace
  cases hplace

/-- A step in which nothing happens. -/
theorem Serialised.stays {s₀ : σ} {history : List (Option (τ × ι × ο))} {g : Guarded τ σ ι κ}
    (h : Serialised sec s₀ history g) : Serialised sec s₀ (history ++ [none]) g := by
  refine { outside := h.outside, free := fun hfree => ?_, held := fun t ht => ?_ }
  · rw [reduceOption_concat_none]
    exact h.free hfree
  · rw [reduceOption_concat_none]
    exact h.held t ht

variable [DecidableEq τ]

theorem serialised_lock {s₀ : σ} {history : List (Option (τ × ι × ο))} {g : Guarded τ σ ι κ}
    (h : Serialised sec s₀ history g) (t : τ) (op : ι) :
    Serialised sec s₀ (history ++ [none]) (stepGuarded sec g (.lock t op)) := by
  rw [stepGuarded]
  split
  · next hholder _ =>
    refine { outside := fun t' ht' => ?_, free := fun hfree => (nomatch hfree), held := ?_ }
    · have hne : t' ≠ t := fun heq => ht' (heq ▸ rfl)
      show Function.update g.place t _ t' = .outside
      rw [Function.update_of_ne hne]
      exact h.outside t' (by rw [hholder]; exact nofun)
    · rintro t' ht'
      obtain rfl := Option.some.inj ht'
      refine ⟨g.shared, op, sec.enter op, Function.update_self .., ?_, .refl _ _⟩
      rw [reduceOption_concat_none]
      exact h.free hholder
  · exact h.stays

theorem serialised_move {s₀ : σ} {history : List (Option (τ × ι × ο))} {g : Guarded τ σ ι κ}
    (h : Serialised sec s₀ history g) (t : τ) :
    Serialised sec s₀ (history ++ [returned sec g (.move t)]) (stepGuarded sec g (.move t)) := by
  cases hplace : g.place t with
  | outside =>
    simp only [returned, stepGuarded, hplace]
    exact h.stays
  | inside op k =>
    -- the thread holds the lock, so all others are outside
    have hholder := h.holder_of_inside hplace
    have houtside : ∀ p : Place ι κ, ∀ t', t' ≠ t → Function.update g.place t p t' = .outside := by
      intro p t' hne
      rw [Function.update_of_ne hne]
      exact h.outside t' (by rw [hholder]; exact fun heq => hne (Option.some.inj heq).symm)
    obtain ⟨s, op', k', hplace', hserial, hruns⟩ := h.held t hholder
    rw [hplace] at hplace'
    obtain ⟨rfl, rfl⟩ := Place.inside.inj hplace'
    cases hnext : sec.next g.shared k with
    | some sk =>
      obtain ⟨s', k'⟩ := sk
      simp only [returned, stepGuarded, hplace, hnext]
      refine { outside := fun t' ht' => ?_, free := fun hfree => ?_, held := fun t' ht' => ?_ }
      · exact houtside _ t' fun heq => ht' (heq ▸ hholder)
      · rw [hholder] at hfree
        cases hfree
      · obtain rfl : t = t' := Option.some.inj (hholder.symm.trans ht')
        refine ⟨s, op, k', Function.update_self .., ?_, hruns.step hnext⟩
        rwa [reduceOption_concat_none]
    | none =>
      simp only [returned, stepGuarded, hplace, hnext]
      refine { outside := fun t' _ => ?_, free := fun _ => ?_, held := fun t' ht' => (nomatch ht') }
      · by_cases hne : t' = t
        · subst hne
          exact Function.update_self ..
        · exact houtside _ t' hne
      · rw [reduceOption_concat_some]
        exact hserial.concat ⟨k, hruns, hnext, rfl⟩

theorem serialised_step {s₀ : σ} {history : List (Option (τ × ι × ο))} {g : Guarded τ σ ι κ}
    (h : Serialised sec s₀ history g) (e : GuardEvent τ ι) :
    Serialised sec s₀ (history ++ [returned sec g e]) (stepGuarded sec g e) := by
  cases e with
  | lock t op => exact serialised_lock h t op
  | move t => exact serialised_move h t

/-- The calls that return in a run, in the order in which they do. -/
def returns (sec : Section σ ι κ ο) (g : Guarded τ σ ι κ) (events : List (GuardEvent τ ι)) :
    List (τ × ι × ο) :=
  (outputs (stepGuarded sec) (returned sec) g events).reduceOption

/-- The rule for runs: what is returned in any interleaving is what the calls return
one after the other. -/
theorem serial_run (sec : Section σ ι κ ο) (s₀ : σ) (events : List (GuardEvent τ ι)) :
    ∃ s, sec.Serial s₀ (returns sec (.start s₀) events) s := by
  have h := outputs_inv (Serialised sec s₀) (fun _ _ e h => serialised_step h e)
    (serialised_start s₀) events
  rw [List.nil_append] at h
  cases hholder : (run (stepGuarded sec) (.start s₀) events).holder with
  | none => exact ⟨_, h.free hholder⟩
  | some t =>
    obtain ⟨s, -, -, -, hserial, -⟩ := h.held t hholder
    exact ⟨s, hserial⟩

end DistFuzz.Lib
