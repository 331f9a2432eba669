import Mathlib.Data.List.FinRange
import Mathlib.Data.List.ReduceOption

/-!
# Runs of a step function

A deterministic machine `step : σ → ι → σ` fed a list of inputs. Everything
nondeterministic (a scheduler's choice, a random outcome, what an executed
program did) is part of the input, so "for every run" is "for every list".

- `run`: the state after a list of inputs, and `run_sim`, the simulation rule.
- `Always`: a property of every state passed through, the first included.
- `Steps`: a condition met by every step, on the state before it.
- `outputs`: what the steps put out; `outputs_inv`, the rule for what ties them to
  the state; `reduceOption_concat_none` and `_some`, for steps that put out nothing or
  one thing; and `outputs_countP_le`, which bounds how often they are of some kind by a
  budget the steps spend.
- `run_inv`, `always_of_inv`: an invariant kept by each step that meets the
  condition is kept by the run.
- `foldl_finRange_inv`: the same for a counting loop `for (i = 0; i < n; i++)`, and
  `foldl_finRange_take_inv`, for its first turns.
- `turnsOf`: such a loop whose turns return something or fault; `turnsOf_spec`,
  `turnsOf_eq_none` and `turnsOf_mem`, its rules.
-/

namespace DistFuzz.Lib

variable {σ ι : Type*}

/-- The state after a list of inputs. -/
def run (step : σ → ι → σ) (s : σ) (ins : List ι) : σ := ins.foldl step s

@[simp] theorem run_nil (step : σ → ι → σ) (s : σ) : run step s [] = s := rfl

@[simp] theorem run_cons (step : σ → ι → σ) (s : σ) (i : ι) (ins : List ι) :
    run step s (i :: ins) = run step (step s i) ins := rfl

theorem run_append (step : σ → ι → σ) (s : σ) (ins ins' : List ι) :
    run step s (ins ++ ins') = run step (run step s ins) ins' :=
  List.foldl_append ..

theorem run_concat (step : σ → ι → σ) (s : σ) (ins : List ι) (i : ι) :
    run step s (ins ++ [i]) = step (run step s ins) i := by
  rw [run_append, run_cons, run_nil]

/-- The simulation rule: a view of the state under which each step is a step of
another machine takes runs to runs. -/
theorem run_sim {σ' ι' : Type*} {step : σ → ι → σ} {step' : σ' → ι' → σ'} (view : σ → σ')
    (act : ι → ι') (hstep : ∀ s i, view (step s i) = step' (view s) (act i)) (s : σ)
    (ins : List ι) : view (run step s ins) = run step' (view s) (ins.map act) := by
  induction ins generalizing s with
  | nil => rfl
  | cons i ins ih => rw [run_cons, List.map_cons, run_cons, ih, hstep]

/-- `P` holds in every state of the run. -/
def Always (step : σ → ι → σ) (P : σ → Prop) : σ → List ι → Prop
  | s, [] => P s
  | s, i :: ins => P s ∧ Always step P (step s i) ins

/-- Every step of the run meets `ok`, a condition on its input and the state
before it. -/
def Steps (step : σ → ι → σ) (ok : σ → ι → Prop) : σ → List ι → Prop
  | _, [] => True
  | s, i :: ins => ok s i ∧ Steps step ok (step s i) ins

/-- What the steps of a run put out, in order. -/
def outputs {ο : Type*} (step : σ → ι → σ) (out : σ → ι → ο) : σ → List ι → List ο
  | _, [] => []
  | s, i :: ins => out s i :: outputs step out (step s i) ins

theorem outputs_concat {ο : Type*} (step : σ → ι → σ) (out : σ → ι → ο) (s : σ) (ins : List ι)
    (i : ι) :
    outputs step out s (ins ++ [i]) = outputs step out s ins ++ [out (run step s ins) i] := by
  induction ins generalizing s with
  | nil => rfl
  | cons j ins ih => rw [List.cons_append, outputs, outputs, ih, run_cons, List.cons_append]

/-- The history rule: what ties the outputs so far to the state and is kept by each
step is kept by a run. -/
theorem outputs_inv {ο : Type*} {step : σ → ι → σ} {out : σ → ι → ο} (Inv : List ο → σ → Prop)
    (hstep : ∀ os s i, Inv os s → Inv (os ++ [out s i]) (step s i)) {os : List ο} {s : σ}
    (hs : Inv os s) (ins : List ι) : Inv (os ++ outputs step out s ins) (run step s ins) := by
  induction ins generalizing os s with
  | nil => rwa [outputs, List.append_nil]
  | cons i ins ih =>
    have hnext := ih (hstep os s i hs)
    rwa [List.append_assoc] at hnext

/-- A step that puts out nothing adds nothing to what was put out. -/
theorem reduceOption_concat_none {ο : Type*} (os : List (Option ο)) :
    (os ++ [none]).reduceOption = os.reduceOption := by
  rw [List.reduceOption_append, List.reduceOption_singleton, Option.toList_none, List.append_nil]

theorem reduceOption_concat_some {ο : Type*} (os : List (Option ο)) (o : ο) :
    (os ++ [some o]).reduceOption = os.reduceOption ++ [o] := by
  rw [List.reduceOption_append, List.reduceOption_singleton, Option.toList_some]

/-- The invariant rule: what every step meeting `ok` keeps, the run keeps. -/
theorem run_inv {step : σ → ι → σ} {ok : σ → ι → Prop} (Inv : σ → Prop)
    (hstep : ∀ s i, Inv s → ok s i → Inv (step s i)) :
    ∀ {s : σ} {ins : List ι}, Inv s → Steps step ok s ins → Inv (run step s ins)
  | _, [], hs, _ => hs
  | s, i :: ins, hs, hok => by
    rw [run_cons]
    exact run_inv Inv hstep (hstep s i hs hok.1) hok.2

/-- The invariant rule without a condition on the steps. -/
theorem run_inv' {step : σ → ι → σ} (Inv : σ → Prop)
    (hstep : ∀ s i, Inv s → Inv (step s i)) {s : σ} (hs : Inv s) (ins : List ι) :
    Inv (run step s ins) := by
  induction ins generalizing s with
  | nil => exact hs
  | cons i ins ih => exact ih (hstep s i hs)

/-- An invariant that implies `P` gives `P` in every state. -/
theorem always_of_inv {step : σ → ι → σ} {ok : σ → ι → Prop} {P : σ → Prop}
    (Inv : σ → Prop) (hstep : ∀ s i, Inv s → ok s i → Inv (step s i)) (hP : ∀ s, Inv s → P s) :
    ∀ {s : σ} {ins : List ι}, Inv s → Steps step ok s ins → Always step P s ins
  | _, [], hs, _ => hP _ hs
  | _, _ :: _, hs, hok => ⟨hP _ hs, always_of_inv Inv hstep hP (hstep _ _ hs hok.1) hok.2⟩

/-- `Always` is the property at every prefix. -/
theorem always_iff {step : σ → ι → σ} {P : σ → Prop} {s : σ} {ins : List ι} :
    Always step P s ins ↔ ∀ pre post, ins = pre ++ post → P (run step s pre) := by
  induction ins generalizing s with
  | nil =>
    constructor
    · intro h pre post heq
      obtain ⟨rfl, -⟩ := List.append_eq_nil_iff.mp heq.symm
      exact h
    · intro h
      exact h [] [] rfl
  | cons i ins ih =>
    constructor
    · intro h pre post heq
      cases pre with
      | nil => exact h.1
      | cons j pre =>
        obtain ⟨rfl, rfl⟩ := List.cons.inj heq
        exact ih.mp h.2 pre post rfl
    · intro h
      refine ⟨h [] _ rfl, ih.mpr fun pre post heq => ?_⟩
      exact h (i :: pre) post (by rw [heq, List.cons_append])

/-- `Steps` is the condition at every split of the run. -/
theorem steps_iff {step : σ → ι → σ} {ok : σ → ι → Prop} {s : σ} {ins : List ι} :
    Steps step ok s ins
      ↔ ∀ pre i post, ins = pre ++ i :: post → ok (run step s pre) i := by
  induction ins generalizing s with
  | nil => exact ⟨fun _ pre i post h => absurd h (by simp), fun _ => trivial⟩
  | cons j ins ih =>
    constructor
    · intro h pre i post heq
      cases pre with
      | nil =>
        obtain ⟨rfl, -⟩ := List.cons.inj heq
        exact h.1
      | cons k pre =>
        obtain ⟨rfl, rfl⟩ := List.cons.inj heq
        exact ih.mp h.2 pre i post rfl
    · intro h
      refine ⟨h [] j ins rfl, ih.mpr fun pre i post heq => ?_⟩
      exact h (j :: pre) i post (by rw [heq, List.cons_append])

theorem steps_append {step : σ → ι → σ} {ok : σ → ι → Prop} {s : σ} {ins ins' : List ι} :
    Steps step ok s (ins ++ ins')
      ↔ Steps step ok s ins ∧ Steps step ok (run step s ins) ins' := by
  induction ins generalizing s with
  | nil => exact (and_iff_right trivial).symm
  | cons i ins ih => rw [List.cons_append, Steps, Steps, ih, run_cons, and_assoc]

/-- Two conditions that agree on the states of an invariant are met by the same
runs, if steps that meet the first keep the invariant. -/
theorem steps_congr {step : σ → ι → σ} {ok ok' : σ → ι → Prop} (Inv : σ → Prop)
    (hiff : ∀ s i, Inv s → (ok s i ↔ ok' s i))
    (hstep : ∀ s i, Inv s → ok s i → Inv (step s i)) :
    ∀ {s : σ} {ins : List ι}, Inv s → (Steps step ok s ins ↔ Steps step ok' s ins)
  | _, [], _ => Iff.rfl
  | s, i :: ins, hs => by
    rw [Steps, Steps, hiff s i hs]
    refine and_congr_right fun hok => ?_
    exact steps_congr Inv hiff hstep (hstep s i hs ((hiff s i hs).mpr hok))

/-- If a step that meets `ok` keeps an invariant and any other step breaks `P` at
once, then `P` holds all along exactly in the runs whose steps all meet `ok`. -/
theorem always_iff_steps {step : σ → ι → σ} {ok : σ → ι → Prop} {P : σ → Prop} (Inv : σ → Prop)
    (hP : ∀ s, Inv s → P s) (hkeep : ∀ s i, Inv s → ok s i → Inv (step s i))
    (hbreak : ∀ s i, Inv s → ¬ok s i → ¬P (step s i)) {s : σ} {ins : List ι} (hs : Inv s) :
    Always step P s ins ↔ Steps step ok s ins := by
  refine ⟨fun h => ?_, always_of_inv Inv hkeep hP hs⟩
  induction ins generalizing s with
  | nil => trivial
  | cons i ins ih =>
    have hnext : P (step s i) := always_iff.mp h [i] ins rfl
    have hok : ok s i := by
      by_contra hno
      exact hbreak s i hs hno hnext
    exact ⟨hok, ih (hkeep s i hs hok) h.2⟩

/-- If on the states of an invariant a step establishes `Good` exactly from a good
state and by meeting `ok`, a run does so exactly by meeting `ok` all along. -/
theorem good_run_iff {step : σ → ι → σ} {ok : σ → ι → Prop} (Inv Good : σ → Prop)
    (hinv : ∀ s i, Inv s → Inv (step s i))
    (hstep : ∀ s i, Inv s → (Good (step s i) ↔ Good s ∧ ok s i)) {s : σ} (hs : Inv s)
    (ins : List ι) : Good (run step s ins) ↔ Good s ∧ Steps step ok s ins := by
  induction ins generalizing s with
  | nil => exact (and_iff_left trivial).symm
  | cons i ins ih => rw [run_cons, ih (hinv s i hs), hstep s i hs, Steps, and_assoc]

/-- The budget rule: if every step keeps `Inv`, and outputs of kind `p` are paid
for from a budget that no step increases, a run has no more of them than the
budget it started with. -/
theorem outputs_countP_le {ο : Type*} {step : σ → ι → σ} {out : σ → ι → ο} {p : ο → Bool}
    (Inv : σ → Prop) (budget : σ → Nat) (hinv : ∀ s i, Inv s → Inv (step s i))
    (hpay : ∀ s i, Inv s → budget (step s i) + (if p (out s i) then 1 else 0) ≤ budget s) :
    ∀ {s : σ} {ins : List ι}, Inv s → (outputs step out s ins).countP p ≤ budget s
  | _, [], _ => Nat.zero_le _
  | s, i :: ins, hs => by
    have hrest : (outputs step out (step s i) ins).countP p ≤ budget (step s i) :=
      outputs_countP_le Inv budget hinv hpay (hinv s i hs)
    have hone := hpay s i hs
    rw [outputs, List.countP_cons]
    omega

/-- The invariant rule of the first `k` turns of a counting loop: `P i` before turn `i`. -/
theorem foldl_finRange_take_inv {n k : Nat} (hk : k ≤ n) {f : σ → Fin n → σ} {s : σ}
    (P : Nat → σ → Prop) (h0 : P 0 s)
    (hstep : ∀ (i : Fin n) (t : σ), P i.val t → P (i.val + 1) (f t i)) :
    P k (((List.finRange n).take k).foldl f s) := by
  induction k with
  | zero => exact h0
  | succ k ih =>
    have hlt : k < (List.finRange n).length := by rwa [List.length_finRange]
    rw [List.take_succ_eq_append_getElem hlt, List.foldl_append, List.getElem_finRange]
    exact hstep ⟨k, hk⟩ _ (ih (Nat.le_of_lt hk))

/-- The invariant rule of the whole loop: `P i` before turn `i`, `P n` after the last. -/
theorem foldl_finRange_inv {n : Nat} {f : σ → Fin n → σ} {s : σ} (P : Nat → σ → Prop)
    (h0 : P 0 s) (hstep : ∀ (i : Fin n) (t : σ), P i.val t → P (i.val + 1) (f t i)) :
    P n ((List.finRange n).foldl f s) := by
  have hall := foldl_finRange_take_inv (Nat.le_refl n) P h0 hstep
  rwa [List.take_of_length_le (by rw [List.length_finRange])] at hall

/-- The same for a loop over the elements of a list that counts them. -/
theorem foldl_zipIdx_inv {α : Type*} {f : σ → α × Nat → σ} (P : Nat → σ → Prop) :
    ∀ {l : List α} {k : Nat} {s : σ}, P k s →
      (∀ j a t, l[j]? = some a → P (k + j) t → P (k + j + 1) (f t (a, k + j))) →
      P (k + l.length) ((l.zipIdx k).foldl f s)
  | [], _, _, h0, _ => h0
  | a :: l, k, s, h0, hstep => by
    have hrest : P (k + 1 + l.length) ((l.zipIdx (k + 1)).foldl f (f s (a, k))) := by
      refine foldl_zipIdx_inv P (hstep 0 a s rfl h0) fun j b t hb ht => ?_
      have hj := hstep (j + 1) b t (by simpa using hb)
      rw [show k + (j + 1) = k + 1 + j by omega] at hj
      exact hj ht
    rw [List.zipIdx_cons, List.foldl_cons, List.length_cons,
      show k + (l.length + 1) = k + 1 + l.length by omega]
    exact hrest

/-- `for (i = 0; i < n; i++)` with a turn that returns something or faults: what the
turns return, and the state afterwards. -/
def turnsOf {α : Type*} (turn : σ → Option (α × σ)) : Nat → σ → Option (List α × σ)
  | 0, s => some ([], s)
  | n + 1, s => (turn s).bind fun x => (turnsOf turn n x.2).map fun xs => (x.1 :: xs.1, xs.2)

/-- If every turn returns something with `P`, so does the loop. -/
theorem turnsOf_spec {α : Type*} {turn : σ → Option (α × σ)} {P : α → Prop}
    (hturn : ∀ s, ∃ x s', turn s = some (x, s') ∧ P x) (n : Nat) (s : σ) :
    ∃ xs s', turnsOf turn n s = some (xs, s') ∧ xs.length = n ∧ ∀ x ∈ xs, P x := by
  induction n generalizing s with
  | zero => exact ⟨[], s, rfl, rfl, fun x hx => (nomatch hx)⟩
  | succ n ih =>
    obtain ⟨x, s', hx, hP⟩ := hturn s
    obtain ⟨xs, s'', hxs, hlen, hall⟩ := ih s'
    refine ⟨x :: xs, s'', ?_, congrArg (· + 1) hlen, List.forall_mem_cons.mpr ⟨hP, hall⟩⟩
    rw [turnsOf, hx, Option.bind_some, hxs, Option.map_some]

/-- A loop that turns faults if every turn does. -/
theorem turnsOf_eq_none {α : Type*} {turn : σ → Option (α × σ)} (hturn : ∀ s, turn s = none)
    {n : Nat} (hn : 0 < n) (s : σ) : turnsOf turn n s = none := by
  obtain ⟨m, rfl⟩ := Nat.exists_eq_succ_of_ne_zero hn.ne'
  rw [turnsOf, hturn, Option.bind_none]

/-- What the loop returns was returned by its turns. -/
theorem turnsOf_mem {α : Type*} {turn : σ → Option (α × σ)} {n : Nat} {s s' : σ} {xs : List α}
    (h : turnsOf turn n s = some (xs, s')) {x : α} (hx : x ∈ xs) :
    ∃ t t', turn t = some (x, t') := by
  induction n generalizing s xs with
  | zero =>
    obtain ⟨rfl, -⟩ := Prod.mk.inj (Option.some.inj h)
    cases hx
  | succ n ih =>
    obtain ⟨y, hy, hrest⟩ := Option.bind_eq_some_iff.mp h
    obtain ⟨ys, hys, heq⟩ := Option.map_eq_some_iff.mp hrest
    obtain ⟨rfl, rfl⟩ := Prod.mk.inj heq
    rcases List.mem_cons.mp hx with rfl | hx
    · exact ⟨s, y.2, hy⟩
    · exact ih hys hx

end DistFuzz.Lib
