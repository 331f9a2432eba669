import DistFuzz.Lib.Runs
import Mathlib.Logic.Function.Basic

/-!
# Interleaved threads with a common log

Any number of threads, each a deterministic machine of its own, take steps in any
order and append to one log. What a thread does depends only on its own state and
inputs, so a run is a list of (thread, input) pairs.

- `Threads`, `stepThreads`: the threads and the log, each entry with its owner.
- `ownLog`: what one thread appended.
- `threads_step`, `threads_inv`: what a thread's own steps keep true of its state
  and its part of the log holds of it in every interleaving.
- `ownActs`, `loc_run`: where a thread is, from its own inputs alone.
-/

namespace DistFuzz.Lib

variable {τ L ι ε : Type*}

/-- The states of the threads, and what they appended to the log. -/
structure Threads (τ L ε : Type*) where
  loc : τ → L
  log : List (τ × ε)

/-- Threads that have done nothing. -/
def Threads.start (l : τ → L) : Threads τ L ε := ⟨l, []⟩

variable [DecidableEq τ]

/-- One thread takes a step. -/
def stepThreads (step : τ → L → ι → L × List ε) (s : Threads τ L ε) (a : τ × ι) :
    Threads τ L ε :=
  { loc := Function.update s.loc a.1 (step a.1 (s.loc a.1) a.2).1
    log := s.log ++ (step a.1 (s.loc a.1) a.2).2.map (a.1, ·) }

/-- What thread `t` appended. -/
def ownLog (t : τ) (log : List (τ × ε)) : List ε :=
  (log.filter fun x => decide (x.1 = t)).map (·.2)

theorem ownLog_append (t : τ) (log log' : List (τ × ε)) :
    ownLog t (log ++ log') = ownLog t log ++ ownLog t log' := by
  unfold ownLog
  rw [List.filter_append, List.map_append]

/-- The entries of a step are the thread's own. -/
theorem ownLog_map_self (t : τ) (es : List ε) : ownLog t (es.map (t, ·)) = es := by
  unfold ownLog
  rw [List.filter_eq_self.mpr, List.map_map]
  · exact List.map_id _
  · intro x hx
    obtain ⟨e, -, rfl⟩ := List.mem_map.mp hx
    exact decide_eq_true rfl

theorem ownLog_map_of_ne {t t' : τ} (h : t' ≠ t) (es : List ε) :
    ownLog t (es.map (t', ·)) = [] := by
  unfold ownLog
  rw [List.filter_eq_nil_iff.mpr, List.map_nil]
  intro x hx
  obtain ⟨e, -, rfl⟩ := List.mem_map.mp hx
  simpa using h

theorem mem_ownLog {t : τ} {e : ε} {log : List (τ × ε)} :
    e ∈ ownLog t log ↔ (t, e) ∈ log := by
  unfold ownLog
  rw [List.mem_map]
  constructor
  · rintro ⟨⟨t', e'⟩, hmem, rfl⟩
    obtain ⟨hlog, ht⟩ := List.mem_filter.mp hmem
    obtain rfl := of_decide_eq_true ht
    exact hlog
  · intro hlog
    exact ⟨(t, e), List.mem_filter.mpr ⟨hlog, decide_eq_true rfl⟩, rfl⟩

/-- What a thread's own steps keep true of its state and its entries is kept by
the steps of all. -/
theorem threads_step {step : τ → L → ι → L × List ε} (Inv : τ → L → List ε → Prop)
    (hstep : ∀ t l es i, Inv t l es → Inv t (step t l i).1 (es ++ (step t l i).2))
    {s : Threads τ L ε} (hs : ∀ t, Inv t (s.loc t) (ownLog t s.log)) (a : τ × ι) (t : τ) :
    Inv t ((stepThreads step s a).loc t) (ownLog t (stepThreads step s a).log) := by
  obtain ⟨t', i⟩ := a
  unfold stepThreads
  dsimp only
  rw [ownLog_append]
  by_cases heq : t = t'
  · subst heq
    rw [Function.update_self, ownLog_map_self]
    exact hstep t _ _ i (hs t)
  · rw [Function.update_of_ne heq, ownLog_map_of_ne (Ne.symm heq), List.append_nil]
    exact hs t

/-- The inputs of thread `t`. -/
def ownActs (t : τ) (acts : List (τ × ι)) : List ι :=
  (acts.filter fun a => decide (a.1 = t)).map (·.2)

/-- A thread is where its own inputs take it. -/
theorem loc_run (step : τ → L → ι → L × List ε) (s : Threads τ L ε) (acts : List (τ × ι)) (t : τ) :
    (run (stepThreads step) s acts).loc t
      = run (fun l i => (step t l i).1) (s.loc t) (ownActs t acts) := by
  induction acts generalizing s with
  | nil => rfl
  | cons a acts ih =>
    obtain ⟨t', i⟩ := a
    rw [run_cons, ih]
    unfold ownActs stepThreads
    dsimp only
    by_cases heq : t' = t
    · subst heq
      rw [List.filter_cons, if_pos (decide_eq_true rfl), List.map_cons, run_cons,
        Function.update_self]
    · -- a step of another thread
      rw [List.filter_cons, if_neg (by simpa using heq), Function.update_of_ne (Ne.symm heq)]

/-- The rule for runs: no interleaving breaks what each thread keeps by itself. -/
theorem threads_inv {step : τ → L → ι → L × List ε} (Inv : τ → L → List ε → Prop)
    (hstep : ∀ t l es i, Inv t l es → Inv t (step t l i).1 (es ++ (step t l i).2)) {l : τ → L}
    (h0 : ∀ t, Inv t (l t) []) (acts : List (τ × ι)) (t : τ) :
    Inv t ((run (stepThreads step) (.start l) acts).loc t)
      (ownLog t (run (stepThreads step) (.start l) acts).log) :=
  run_inv' (fun s : Threads τ L ε => ∀ t, Inv t (s.loc t) (ownLog t s.log))
    (fun _ a hs => threads_step Inv hstep hs a) h0 acts t

end DistFuzz.Lib
