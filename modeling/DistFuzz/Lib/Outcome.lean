import Mathlib.Data.List.Basic

/-!
# Programs with a state that may end early

A program over states `σ` returns a value, or ends early for a reason of type `ε`: a
fault, an early `return` out of nested loops. Either way there is a state
afterwards. `Triple P x Q E` says of every start in `P` that `x` ends in `Q` if it
returns and in `E` if it ends early.

- `Prog`, and the two primitives `access` and `update`, which end early where a
  partial function is not defined.
- `Triple`, with a rule for each way to build a program: `triple_pure`,
  `Triple.bind`, `triple_ite`, `triple_throw`, `triple_access`, `triple_update`,
  `Triple.mono`.
- `forEach`: a loop over a list with a local value; `triple_forEach`, its rule with
  an invariant on the elements done, and `triple_forRange`, the rule of the
  counting loop; `triple_forRange_stop`, for a loop that does not get to its end.
- `whileLoop`, `triple_while`: loops that are shown to end by a variant.
- `Triple.returns`, `Triple.fails`, `Triple.after`: what a triple says of one run.
- `Preserves`: an invariant of a program, however it ends, with the same rules.
- `Logs`: a program that adds known entries to a log kept in its state, or a part of
  them if it ends early, with the same rules.
-/

namespace DistFuzz.Lib

/-- A program over states `σ` that may end early for a reason `ε`. -/
abbrev Prog (ε σ : Type) := ExceptT ε (StateM σ)

variable {ε σ α β ι : Type}

/-- How a program ends from a state, and the state then. -/
def Prog.exec (x : Prog ε σ α) (s : σ) : Except ε α × σ := x s

/-- Read something off the state; where it is not there, end early. -/
def access (e : ε) (f : σ → Option α) : Prog ε σ α := fun s =>
  match f s with
  | some a => (.ok a, s)
  | none => (.error e, s)

/-- Change the state; where that is not possible, end early. -/
def update (e : ε) (f : σ → Option σ) : Prog ε σ Unit := fun s =>
  match f s with
  | some s' => (.ok (), s')
  | none => (.error e, s)

/-- A program ended in `Q` if it returned and in `E` if it did not. -/
def EndsIn (Q : α → σ → Prop) (E : ε → σ → Prop) : Except ε α × σ → Prop
  | (.ok a, s) => Q a s
  | (.error e, s) => E e s

/-- From every state in `P` the program returns in `Q` or ends early in `E`. -/
def Triple (P : σ → Prop) (x : Prog ε σ α) (Q : α → σ → Prop) (E : ε → σ → Prop) : Prop :=
  ∀ s, P s → EndsIn Q E (x.exec s)

variable {P P' : σ → Prop} {Q Q' : α → σ → Prop} {E E' : ε → σ → Prop}

theorem triple_pure {a : α} (h : ∀ s, P s → Q a s) : Triple P (pure a : Prog ε σ α) Q E := h

theorem triple_throw {e : ε} (h : ∀ s, P s → E e s) : Triple P (throw e : Prog ε σ α) Q E := h

theorem triple_access_or {e : ε} {f : σ → Option α} (h : ∀ s, P s → ∀ a, f s = some a → Q a s)
    (hnone : ∀ s, P s → f s = none → E e s) : Triple P (access e f) Q E := by
  intro s hs
  show EndsIn Q E (access e f s)
  rw [access]
  cases hf : f s with
  | some a => exact h s hs a hf
  | none => exact hnone s hs hf

theorem triple_access {e : ε} {f : σ → Option α} (h : ∀ s, P s → ∃ a, f s = some a ∧ Q a s) :
    Triple P (access e f) Q E := by
  refine triple_access_or (fun s hs a hf => ?_) fun s hs hf => ?_
  · obtain ⟨a', hf', hQ⟩ := h s hs
    rw [hf] at hf'
    rwa [Option.some.inj hf']
  · obtain ⟨a, hf', -⟩ := h s hs
    rw [hf] at hf'
    cases hf'

theorem triple_update_or {e : ε} {f : σ → Option σ} {R : Unit → σ → Prop}
    (h : ∀ s, P s → ∀ s', f s = some s' → R () s') (hnone : ∀ s, P s → f s = none → E e s) :
    Triple P (update e f) R E := by
  intro s hs
  show EndsIn R E (update e f s)
  rw [update]
  cases hf : f s with
  | some s' => exact h s hs s' hf
  | none => exact hnone s hs hf

theorem triple_update {e : ε} {f : σ → Option σ} {R : Unit → σ → Prop}
    (h : ∀ s, P s → ∃ s', f s = some s' ∧ R () s') : Triple P (update e f) R E := by
  refine triple_update_or (fun s hs s' hf => ?_) fun s hs hf => ?_
  · obtain ⟨s'', hf', hR⟩ := h s hs
    rw [hf] at hf'
    rwa [Option.some.inj hf']
  · obtain ⟨s'', hf', -⟩ := h s hs
    rw [hf] at hf'
    cases hf'

theorem Triple.bind {x : Prog ε σ α} {f : α → Prog ε σ β} {R : β → σ → Prop}
    (hx : Triple P x Q E) (hf : ∀ a, Triple (Q a) (f a) R E) : Triple P (x >>= f) R E := by
  intro s hs
  have h := hx s hs
  -- both layers of the monad unfolded at once
  have hrun : (x >>= f).exec s = match x.exec s with
    | (.ok a, s') => (f a).exec s'
    | (.error e, s') => (.error e, s') := by
    show ExceptT.bindCont f (x s).1 (x s).2 = _
    unfold Prog.exec
    obtain ⟨_ | a, s'⟩ := x s
    · rfl
    · rfl
  rw [hrun]
  revert h
  obtain ⟨_ | a, s'⟩ := x.exec s
  · exact id
  · exact hf a s'

theorem Triple.mono {x : Prog ε σ α} (hx : Triple P x Q E) (hP : ∀ s, P' s → P s)
    (hQ : ∀ a s, Q a s → Q' a s) (hE : ∀ e s, E e s → E' e s) : Triple P' x Q' E' := by
  intro s hs
  have h := hx s (hP s hs)
  revert h
  obtain ⟨_ | a, s'⟩ := x.exec s
  · exact hE _ s'
  · exact hQ a s'

/-- Without a state to start from there is nothing to show. -/
theorem triple_false {x : Prog ε σ α} (h : ∀ s, ¬P s) : Triple P x Q E :=
  fun s hs => absurd hs (h s)

/-- What does not depend on the state can be taken out of the precondition. -/
theorem Triple.given {c : Prop} {x : Prog ε σ α} (h : c → Triple P x Q E) :
    Triple (fun s => c ∧ P s) x Q E := fun s hs => h hs.1 s hs.2

theorem triple_ite {c : Prop} [Decidable c] {x y : Prog ε σ α} (hx : c → Triple P x Q E)
    (hy : ¬c → Triple P y Q E) : Triple P (if c then x else y) Q E := by
  by_cases h : c
  · rw [if_pos h]
    exact hx h
  · rw [if_neg h]
    exact hy h

/-- A program whose early ends are excluded returns. -/
theorem Triple.returns {x : Prog ε σ α} (hx : Triple P x Q fun _ _ => False) {s : σ} (hs : P s) :
    ∃ a s', x.exec s = (.ok a, s') ∧ Q a s' := by
  have h := hx s hs
  revert h
  obtain ⟨_ | a, s'⟩ := x.exec s
  · exact False.elim
  · exact fun h => ⟨a, s', rfl, h⟩

/-- A program that cannot return ends early. -/
theorem Triple.fails {x : Prog ε σ α} (hx : Triple P x (fun _ _ => False) E) {s : σ} (hs : P s) :
    ∃ e s', x.exec s = (.error e, s') ∧ E e s' := by
  have h := hx s hs
  revert h
  obtain ⟨e | _, s'⟩ := x.exec s
  · exact fun h => ⟨e, s', rfl, h⟩
  · exact False.elim

/-- What holds however the program ends. -/
theorem Triple.after {x : Prog ε σ α} {R : σ → Prop} (hx : Triple P x (fun _ => R) fun _ => R)
    {s : σ} (hs : P s) : R (x.exec s).2 := by
  have h := hx s hs
  revert h
  obtain ⟨_ | _, s'⟩ := x.exec s
  · exact id
  · exact id

/-! ## Loops -/

/-- `for (i : l)` with a local value that the body changes. -/
def forEach (l : List ι) (b : β) (body : ι → β → Prog ε σ β) : Prog ε σ β :=
  l.foldlM (fun b i => body i b) b

/-- `for (i = 0; i < n; i++)`. -/
def forRange (n : Nat) (b : β) (body : Nat → β → Prog ε σ β) : Prog ε σ β :=
  forEach (List.range n) b body

theorem forEach_cons (i : ι) (l : List ι) (b : β) (body : ι → β → Prog ε σ β) :
    forEach (i :: l) b body = body i b >>= fun b => forEach l b body := rfl

/-- A test around the body of a loop. -/
theorem forEach_filter (p : ι → Bool) (l : List ι) (b : β) (body : ι → β → Prog ε σ β) :
    forEach (l.filter p) b body = forEach l b fun i b => if p i then body i b else pure b := by
  induction l generalizing b with
  | nil => rfl
  | cons i l ih =>
    rw [forEach_cons]
    cases hp : p i with
    | true =>
      rw [List.filter_cons_of_pos hp, forEach_cons, if_pos rfl]
      exact bind_congr fun b' => ih b'
    | false =>
      rw [List.filter_cons_of_neg (by rw [hp]; decide), if_neg (by decide), pure_bind]
      exact ih b

/-- A loop in a loop. -/
theorem forEach_flatMap {κ : Type} (f : ι → List κ) (l : List ι) (b : β)
    (body : κ → β → Prog ε σ β) :
    forEach (l.flatMap f) b body = forEach l b fun i b => forEach (f i) b body := by
  induction l generalizing b with
  | nil => rfl
  | cons i l ih =>
    rw [List.flatMap_cons, forEach_cons]
    calc forEach (f i ++ l.flatMap f) b body
        = forEach (f i) b body >>= fun b => forEach (l.flatMap f) b body := List.foldlM_append
      _ = _ := bind_congr fun b' => ih b'

/-- The loop rule: the invariant speaks of the elements done. -/
theorem triple_forEach {l : List ι} {body : ι → β → Prog ε σ β} (Inv : List ι → β → σ → Prop)
    (h : ∀ done i rest, l = done ++ i :: rest → ∀ b,
      Triple (Inv done b) (body i b) (Inv (done ++ [i])) E) (b : β) :
    Triple (Inv [] b) (forEach l b body) (Inv l) E := by
  -- over what is left of the list, with what is done as a parameter
  have hrest : ∀ rest done b, l = done ++ rest →
      Triple (Inv done b) (forEach rest b body) (Inv l) E := by
    intro rest
    induction rest with
    | nil =>
      intro done b hl
      rw [List.append_nil] at hl
      rw [hl]
      exact triple_pure fun s hs => hs
    | cons i rest ih =>
      intro done b hl
      refine (h done i rest hl b).bind fun b' => ih (done ++ [i]) b' ?_
      rw [hl, List.append_assoc, List.singleton_append]
  exact hrest l [] b rfl

/-- In `0, 1, …` each element is the number of those before it. -/
theorem eq_length_of_range_eq {n i : Nat} {done rest : List Nat}
    (h : List.range n = done ++ i :: rest) : i = done.length ∧ i < n := by
  have hlen := congrArg List.length h
  rw [List.length_range, List.length_append, List.length_cons] at hlen
  have hget := congrArg (fun l => l[done.length]?) h
  rw [List.getElem?_range (by omega), List.getElem?_append_right (Nat.le_refl _), Nat.sub_self,
    List.getElem?_cons_zero] at hget
  have hi := Option.some.inj hget
  exact ⟨hi.symm, by omega⟩

/-- The rule of the counting loop: `Inv i` before turn `i`. -/
theorem triple_forRange {n : Nat} {body : Nat → β → Prog ε σ β} (Inv : Nat → β → σ → Prop)
    (h : ∀ i, i < n → ∀ b, Triple (Inv i b) (body i b) (Inv (i + 1)) E) (b : β) :
    Triple (Inv 0 b) (forRange n b body) (Inv n) E := by
  have hstep : ∀ done i rest, List.range n = done ++ i :: rest → ∀ b,
      Triple (Inv done.length b) (body i b) (Inv (done ++ [i]).length) E := by
    intro done i rest hl b'
    obtain ⟨rfl, hlt⟩ := eq_length_of_range_eq hl
    rw [List.length_append, List.length_singleton]
    exact h done.length hlt b'
  have hall := triple_forEach (fun done => Inv done.length) hstep b
  rwa [List.length_range] at hall

/-- A loop that comes to turn `k`, and there ends early. -/
theorem triple_forRange_stop {n k : Nat} (hk : k < n) {body : Nat → β → Prog ε σ β}
    (Inv : Nat → β → σ → Prop) (h : ∀ i, i < k → ∀ b, Triple (Inv i b) (body i b) (Inv (i + 1)) E)
    (hstop : ∀ b, Triple (Inv k b) (body k b) (fun _ _ => False) E) (b : β) :
    Triple (Inv 0 b) (forRange n b body) (fun _ _ => False) E := by
  have hturn : ∀ i, i < n → ∀ b, Triple (fun s => i ≤ k ∧ Inv i b s) (body i b)
      (fun b s => i + 1 ≤ k ∧ Inv (i + 1) b s) E := by
    intro i _ b'
    rcases Nat.lt_trichotomy i k with hlt | rfl | hgt
    · exact (h i hlt b').mono (fun s hs => hs.2) (fun b s hs => ⟨hlt, hs⟩) fun e s he => he
    · exact (hstop b').mono (fun s hs => hs.2) (fun b s hs => hs.elim) fun e s he => he
    · exact triple_false fun s hs => absurd hs.1 (Nat.not_le.mpr hgt)
  refine (triple_forRange (fun i b s => i ≤ k ∧ Inv i b s) hturn b).mono
    (fun s hs => ⟨Nat.zero_le k, hs⟩) (fun b s hs => ?_) fun e s he => he
  exact absurd hs.1 (Nat.not_le.mpr hk)

/-- `while (cond)` with a local value that the body changes, for less than `fuel` turns; a
loop that takes more ends early. -/
def whileLoop (out : ε) (cond : β → σ → Bool) (body : β → Prog ε σ β) :
    (fuel : Nat) → β → Prog ε σ β
  | 0, _ => throw out
  | fuel + 1, b => do
    if ← access out (fun s => some (cond b s)) then
      let b ← body b
      whileLoop out cond body fuel b
    else pure b

/-- The rule for a loop that ends: a turn keeps the invariant and lowers the variant. -/
theorem triple_while (out : ε) {cond : β → σ → Bool} {body : β → Prog ε σ β}
    (Inv : β → σ → Prop) (variant : β → σ → Nat)
    (h : ∀ b n, Triple (fun s => Inv b s ∧ cond b s = true ∧ variant b s = n) (body b)
      (fun b' s => Inv b' s ∧ variant b' s < n) E) (fuel : Nat) (b : β) :
    Triple (fun s => Inv b s ∧ variant b s < fuel) (whileLoop out cond body fuel b)
      (fun b' s => Inv b' s ∧ cond b' s = false) E := by
  induction fuel generalizing b with
  | zero => exact triple_false fun s hs => absurd hs.2 (Nat.not_lt_zero _)
  | succ fuel ih =>
    have htest : Triple (fun s => Inv b s ∧ variant b s < fuel + 1)
        (access out fun s => some (cond b s))
        (fun c s => (Inv b s ∧ variant b s < fuel + 1) ∧ cond b s = c) E :=
      triple_access fun s hs => ⟨cond b s, rfl, hs, rfl⟩
    refine htest.bind fun c => ?_
    cases c with
    | true =>
      rw [if_pos rfl]
      intro s hs
      -- the turn lowers the variant, so the fuel that is left is enough for the rest
      have hrest : ∀ b', Triple (fun s' => Inv b' s' ∧ variant b' s' < variant b s)
          (whileLoop out cond body fuel b') (fun b' s => Inv b' s ∧ cond b' s = false) E :=
        fun b' => (ih b').mono (fun s' hs' => ⟨hs'.1, Nat.lt_of_lt_of_le hs'.2
          (Nat.le_of_lt_succ hs.1.2)⟩) (fun b s hs => hs) fun e s he => he
      exact ((h b (variant b s)).bind hrest) s ⟨hs.1.1, hs.2, rfl⟩
    | false =>
      rw [if_neg Bool.false_ne_true]
      exact triple_pure fun s hs => ⟨hs.1.1, hs.2⟩

/-! ## Invariants -/

/-- However the program ends, what held before holds then. -/
def Preserves (P : σ → Prop) (x : Prog ε σ α) : Prop := Triple P x (fun _ => P) fun _ => P

theorem preserves_pure (a : α) : Preserves P (pure a : Prog ε σ α) := triple_pure fun _ hs => hs

theorem preserves_access (e : ε) (f : σ → Option α) : Preserves P (access e f) :=
  triple_access_or (fun _ hs _ _ => hs) fun _ hs _ => hs

theorem preserves_update {e : ε} {f : σ → Option σ} (h : ∀ s s', P s → f s = some s' → P s') :
    Preserves P (update e f) :=
  triple_update_or (fun s hs s' hf => h s s' hs hf) fun _ hs _ => hs

theorem Preserves.bind {x : Prog ε σ α} {f : α → Prog ε σ β} (hx : Preserves P x)
    (hf : ∀ a, Preserves P (f a)) : Preserves P (x >>= f) := Triple.bind hx hf

theorem preserves_ite {c : Prop} [Decidable c] {x y : Prog ε σ α} (hx : Preserves P x)
    (hy : Preserves P y) : Preserves P (if c then x else y) := triple_ite (fun _ => hx) fun _ => hy

theorem preserves_forEach {l : List ι} {body : ι → β → Prog ε σ β}
    (h : ∀ i ∈ l, ∀ b, Preserves P (body i b)) (b : β) : Preserves P (forEach l b body) := by
  refine triple_forEach (fun _ _ => P) (fun done i rest hl b' => h i ?_ b') b
  rw [hl]
  exact List.mem_append_right _ List.mem_cons_self

/-! ## Programs that keep a log -/

section Logs

variable {τ : Type} {log : σ → List τ} {Err : ε → Prop}

/-- From a state in `K` the program adds exactly `ts` to the log and ends in `K'`. If
it ends early, for a reason in `Err`, a part of `ts` was added. -/
def Logs (log : σ → List τ) (Err : ε → Prop) (K : σ → Prop) (x : Prog ε σ α)
    (K' : α → σ → Prop) (ts : List τ) : Prop :=
  ∀ s₀, K s₀ → Triple (· = s₀) x (fun a s => K' a s ∧ log s = log s₀ ++ ts)
    fun e s => Err e ∧ log s <+: log s₀ ++ ts

variable {K : σ → Prop} {K' : α → σ → Prop}

theorem logs_pure {a : α} (h : ∀ s, K s → K' a s) :
    Logs log Err K (pure a : Prog ε σ α) K' [] := by
  intro s₀ hs
  refine triple_pure ?_
  rintro s rfl
  exact ⟨h s hs, (List.append_nil _).symm⟩

theorem logs_access {e : ε} {f : σ → Option α} (h : ∀ s, K s → ∃ a, f s = some a ∧ K' a s) :
    Logs log Err K (access e f) K' [] := by
  intro s₀ hs
  refine triple_access ?_
  rintro s rfl
  obtain ⟨a, hf, hK'⟩ := h s hs
  exact ⟨a, hf, hK', (List.append_nil _).symm⟩

theorem logs_update {e : ε} {f : σ → Option σ} {R : Unit → σ → Prop}
    (h : ∀ s, K s → ∃ s', f s = some s' ∧ R () s' ∧ log s' = log s) :
    Logs log Err K (update e f) R [] := by
  intro s₀ hs
  refine triple_update ?_
  rintro s rfl
  obtain ⟨s', hf, hR, hlog⟩ := h s hs
  exact ⟨s', hf, hR, by rw [hlog, List.append_nil]⟩

theorem Logs.bind {x : Prog ε σ α} {f : α → Prog ε σ β} {K'' : β → σ → Prop} {ts us : List τ}
    (hx : Logs log Err K x K' ts) (hf : ∀ a, Logs log Err (K' a) (f a) K'' us) :
    Logs log Err K (x >>= f) K'' (ts ++ us) := by
  intro s₀ hs
  refine ((hx s₀ hs).mono (fun s h => h) (fun a s h => h) ?_).bind fun a s h => ?_
  -- an error in the first part leaves a front of its log, which is a front of the whole
  · rintro e s ⟨herr, hpre⟩
    refine ⟨herr, hpre.trans ?_⟩
    rw [← List.append_assoc]
    exact List.prefix_append _ us
  · have hrest := hf a s h.1
    rw [h.2] at hrest
    refine (hrest.mono (fun s h => h) ?_ ?_) s rfl
    · rintro b s' ⟨hK'', hlog⟩
      exact ⟨hK'', by rw [hlog, List.append_assoc]⟩
    · rintro e s' ⟨herr, hpre⟩
      rw [List.append_assoc] at hpre
      exact ⟨herr, hpre⟩

/-- A first part that logs nothing. -/
theorem Logs.before {x : Prog ε σ α} {f : α → Prog ε σ β} {K'' : β → σ → Prop} {us : List τ}
    (hx : Logs log Err K x K' []) (hf : ∀ a, Logs log Err (K' a) (f a) K'' us) :
    Logs log Err K (x >>= f) K'' us :=
  hx.bind hf

/-- A last part that logs nothing. -/
theorem Logs.after {x : Prog ε σ α} {f : α → Prog ε σ β} {K'' : β → σ → Prop} {ts : List τ}
    (hx : Logs log Err K x K' ts) (hf : ∀ a, Logs log Err (K' a) (f a) K'' []) :
    Logs log Err K (x >>= f) K'' ts := by
  have h := hx.bind hf
  rwa [List.append_nil] at h

theorem Logs.mono {x : Prog ε σ α} {L : σ → Prop} {L' : α → σ → Prop} {ts : List τ}
    (hx : Logs log Err K x K' ts) (hK : ∀ s, L s → K s) (hK' : ∀ a s, K' a s → L' a s) :
    Logs log Err L x L' ts := by
  intro s₀ hs
  refine (hx s₀ (hK s₀ hs)).mono (fun s h => h) ?_ fun e s h => h
  rintro a s ⟨h, hlog⟩
  exact ⟨hK' a s h, hlog⟩

theorem Logs.of_err {x : Prog ε σ α} {ts : List τ} {Err' : ε → Prop}
    (hx : Logs log Err K x K' ts) (h : ∀ e, Err e → Err' e) : Logs log Err' K x K' ts := by
  intro s₀ hs
  refine (hx s₀ hs).mono (fun s h => h) (fun a s h => h) ?_
  rintro e s ⟨herr, hpre⟩
  exact ⟨h e herr, hpre⟩

theorem logs_ite {c : Prop} [Decidable c] {x y : Prog ε σ α} {ts us : List τ}
    (hx : c → Logs log Err K x K' ts) (hy : ¬c → Logs log Err K y K' us) :
    Logs log Err K (if c then x else y) K' (if c then ts else us) := by
  by_cases h : c
  · rw [if_pos h, if_pos h]
    exact hx h
  · rw [if_neg h, if_neg h]
    exact hy h

/-- An invariant may be added on both sides. -/
theorem Logs.keep {x : Prog ε σ α} {ts : List τ} {I : σ → Prop} (hx : Logs log Err K x K' ts)
    (hI : Preserves I x) : Logs log Err (fun s => K s ∧ I s) x (fun a s => K' a s ∧ I s) ts := by
  rintro s₀ ⟨hK, hI₀⟩ s rfl
  have hlogs := hx s hK s rfl
  have hkeep := hI s hI₀
  revert hlogs hkeep
  obtain ⟨_ | a, s'⟩ := x.exec s
  · exact fun hlogs _ => hlogs
  · exact fun hlogs hkeep => ⟨⟨hlogs.1, hkeep⟩, hlogs.2⟩

/-- What holds of every start may be used to show that a program logs `ts`. -/
theorem logs_of_start {x : Prog ε σ α} {ts : List τ}
    (h : ∀ s, K s → Logs log Err K x K' ts) : Logs log Err K x K' ts :=
  fun s₀ hs => h s₀ hs s₀ hs

/-- The loop logs what its turns log. -/
theorem logs_forEach {l : List ι} {body : ι → β → Prog ε σ β} (K : List ι → β → σ → Prop)
    (ts : ι → List τ) (h : ∀ done i rest, l = done ++ i :: rest → ∀ b,
      Logs log Err (K done b) (body i b) (K (done ++ [i])) (ts i)) (b : β) :
    Logs log Err (K [] b) (forEach l b body) (K l) (l.flatMap ts) := by
  -- the same induction as for `triple_forEach`, now with the log of the rest
  have hrest : ∀ rest done b, l = done ++ rest →
      Logs log Err (K done b) (forEach rest b body) (K l) (rest.flatMap ts) := by
    intro rest
    induction rest with
    | nil =>
      intro done b hl
      rw [List.append_nil] at hl
      rw [hl]
      exact logs_pure fun s hs => hs
    | cons i rest ih =>
      intro done b hl
      rw [List.flatMap_cons]
      refine (h done i rest hl b).bind fun b' => ih (done ++ [i]) b' ?_
      rw [hl, List.append_assoc, List.singleton_append]
  exact hrest l [] b rfl

/-- The same for the counting loop. -/
theorem logs_forRange {n : Nat} {body : Nat → β → Prog ε σ β} (K : Nat → β → σ → Prop)
    (ts : Nat → List τ)
    (h : ∀ i, i < n → ∀ b, Logs log Err (K i b) (body i b) (K (i + 1)) (ts i)) (b : β) :
    Logs log Err (K 0 b) (forRange n b body) (K n) ((List.range n).flatMap ts) := by
  have hstep : ∀ done i rest, List.range n = done ++ i :: rest → ∀ b,
      Logs log Err (K done.length b) (body i b) (K (done ++ [i]).length) (ts i) := by
    intro done i rest hl b'
    obtain ⟨rfl, hlt⟩ := eq_length_of_range_eq hl
    rw [List.length_append, List.length_singleton]
    exact h done.length hlt b'
  have hall := logs_forEach (fun done => K done.length) ts hstep b
  rwa [List.length_range] at hall

/-- If nothing can end it early, the program returns with all of `ts` in the log. -/
theorem Logs.returns {x : Prog ε σ α} {ts : List τ} (hx : Logs log Err K x K' ts)
    (hno : ∀ e, ¬Err e) {s₀ : σ} (hs : K s₀) :
    ∃ a s, x.exec s₀ = (.ok a, s) ∧ K' a s ∧ log s = log s₀ ++ ts := by
  refine Triple.returns ((hx s₀ hs).mono (fun s h => h) (fun a s h => h) ?_) rfl
  exact fun e s h => hno e h.1

/-- If nothing can end it early, each entry of `ts` is in the log then. -/
theorem Logs.triple_mem {x : Prog ε σ α} {ts : List τ} (hx : Logs log Err K x K' ts)
    (hno : ∀ e, ¬Err e) {s₀ : σ} (hs : K s₀) {t : τ} (ht : t ∈ ts) :
    Triple (fun s => s = s₀) x (fun _ s => t ∈ log s) E := by
  refine (hx s₀ hs).mono (fun s h => h) (fun a s h => ?_) fun e s h => absurd h.1 (hno e)
  rw [h.2]
  exact List.mem_append_right _ ht

/-- Whatever happens, only entries of `ts` are added. -/
theorem Logs.mem {x : Prog ε σ α} {ts : List τ} (hx : Logs log Err K x K' ts) {s₀ : σ}
    (hs : K s₀) {t : τ} (ht : t ∈ log (x.exec s₀).2) : t ∈ log s₀ ++ ts := by
  have h := hx s₀ hs s₀ rfl
  revert h ht
  obtain ⟨_ | a, s⟩ := x.exec s₀
  · exact fun ht h => h.2.subset ht
  · exact fun ht h => h.2 ▸ ht

end Logs

end DistFuzz.Lib
