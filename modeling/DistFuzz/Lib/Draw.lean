import Mathlib.Data.Stream.Init

/-!
# Programs that draw random numbers and may fault

A program reads its random numbers from a stream and either faults or returns a
result. `Ensures x Q` is total correctness for every stream: whatever is drawn,
`x` returns, without a fault, a result with `Q`.

- `Draw`, `draw`, `check`: the programs.
- `Ensures`, with a rule for each way to build a program: `ensures_pure`,
  `Ensures.bind`, `Ensures.mono`, `ensures_draw`, `ensures_check`.
- `MayReturn`: what a program returns for some stream, with an inversion for each way
  to build it: `mayReturn_pure`, `mayReturn_check`, `MayReturn.of_bind`.
- `iterate`: a counting loop, which also returns every state it passes through,
  and its invariant rule `ensures_iterate`.
-/

namespace DistFuzz.Lib

/-- A program that draws values of type `ρ`. -/
abbrev Draw (ρ : Type) := StateT (Stream' ρ) Option

variable {ρ α β : Type}

/-- The next random value. -/
def draw : Draw ρ ρ := fun rand => some (rand.head, rand.tail)

/-- Something that faults or not and draws nothing. -/
def check (o : Option α) : Draw ρ α := fun rand => o.map fun a => (a, rand)

theorem check_bind {o : Option α} {a : α} (h : o = some a) (f : α → Draw ρ β) :
    check o >>= f = f a := by
  rw [h]
  rfl

/-- What comes after a program that returned. -/
theorem bind_of_run {x : Draw ρ α} {rand rest : Stream' ρ} {a : α} (h : x rand = some (a, rest))
    (f : α → Draw ρ β) : (x >>= f) rand = f a rest := by
  show (x rand).bind (fun r => f r.1 r.2) = _
  rw [h]
  rfl

/-- `x` returns whatever is drawn, and its result has `Q`. -/
def Ensures (x : Draw ρ α) (Q : α → Prop) : Prop :=
  ∀ rand, ∃ a rest, x rand = some (a, rest) ∧ Q a

theorem ensures_pure {Q : α → Prop} {a : α} (h : Q a) : Ensures (pure a : Draw ρ α) Q :=
  fun rand => ⟨a, rand, rfl, h⟩

theorem Ensures.bind {x : Draw ρ α} {f : α → Draw ρ β} {P : α → Prop} {Q : β → Prop}
    (hx : Ensures x P) (hf : ∀ a, P a → Ensures (f a) Q) : Ensures (x >>= f) Q := by
  intro rand
  obtain ⟨a, rest, hrun, ha⟩ := hx rand
  obtain ⟨b, rest', hrun', hb⟩ := hf a ha rest
  refine ⟨b, rest', ?_, hb⟩
  rw [bind_of_run hrun]
  exact hrun'

theorem Ensures.mono {x : Draw ρ α} {P Q : α → Prop} (hx : Ensures x P) (h : ∀ a, P a → Q a) :
    Ensures x Q := by
  intro rand
  obtain ⟨a, rest, hrun, ha⟩ := hx rand
  exact ⟨a, rest, hrun, h a ha⟩

theorem ensures_draw : Ensures (draw : Draw ρ ρ) fun _ => True :=
  fun rand => ⟨rand.head, rand.tail, rfl, trivial⟩

theorem ensures_check {o : Option α} {Q : α → Prop} (h : ∃ a, o = some a ∧ Q a) :
    Ensures (check o : Draw ρ α) Q := by
  obtain ⟨a, rfl, ha⟩ := h
  exact fun rand => ⟨a, rand, rfl, ha⟩

/-- `x` returns `a` for some random values. -/
def MayReturn (x : Draw ρ α) (a : α) : Prop := ∃ rand rest, x rand = some (a, rest)

theorem mayReturn_pure {a b : α} (h : MayReturn (pure a : Draw ρ α) b) : b = a := by
  obtain ⟨rand, rest, hrun⟩ := h
  exact (Prod.mk.inj (Option.some.inj hrun)).1.symm

theorem mayReturn_check {o : Option α} {a : α} (h : MayReturn (check o : Draw ρ α) a) :
    o = some a := by
  obtain ⟨rand, rest, hrun⟩ := h
  obtain ⟨a', ho, heq⟩ := Option.map_eq_some_iff.mp hrun
  obtain ⟨rfl, -⟩ := Prod.mk.inj heq
  exact ho

theorem MayReturn.of_bind {x : Draw ρ α} {f : α → Draw ρ β} {b : β} (h : MayReturn (x >>= f) b) :
    ∃ a, MayReturn x a ∧ MayReturn (f a) b := by
  obtain ⟨rand, rest, hrun⟩ := h
  obtain ⟨⟨a, rest'⟩, hx, hf⟩ := Option.bind_eq_some_iff.mp hrun
  exact ⟨a, ⟨rand, rest', hx⟩, rest', rest, hf⟩

/-- `for (j = 0; j < n; j++)` over a state: the last state, and every state after
a turn. -/
def iterate (f : α → Draw ρ α) : Nat → α → Draw ρ (α × List α)
  | 0, a => pure (a, [])
  | n + 1, a => do
    let a ← f a
    let (last, passed) ← iterate f n a
    pure (last, a :: passed)

/-- What a turn keeps holds in every state of the loop. -/
theorem ensures_iterate {f : α → Draw ρ α} (Inv : α → Prop)
    (hf : ∀ a, Inv a → Ensures (f a) Inv) (n : Nat) {a : α} (ha : Inv a) :
    Ensures (iterate f n a) fun r => Inv r.1 ∧ ∀ b ∈ r.2, Inv b := by
  induction n generalizing a with
  | zero => exact ensures_pure ⟨ha, fun b hb => (nomatch hb)⟩
  | succ n ih =>
    refine (hf a ha).bind fun a' ha' => (ih ha').bind ?_
    rintro ⟨last, passed⟩ ⟨hlast, hpassed⟩
    exact ensures_pure ⟨hlast, List.forall_mem_cons.mpr ⟨ha', hpassed⟩⟩

end DistFuzz.Lib
