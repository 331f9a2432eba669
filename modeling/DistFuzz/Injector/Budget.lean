import DistFuzz.Injector.Decode
import DistFuzz.Injector.Rr

/-!
# The fault budget (strace/src/dst_fuzz.c:279–395, rr/src/dst_fuzz.cc:184–228)

A fault is injected only after a byte `≥ 50` was drawn, and a drawn byte never
comes back, so a random file cannot cause more faults than it has such bytes;
past its end every byte is `0` and nothing is injected any more.

Both injectors obey one discipline, `Spends`. `spends_budget` and
`spends_atEnd` follow from it for whole runs, and `strace_spends` and
`rr_spends` connect the two models to it. The events consume different numbers
of bytes, so the account is kept in fault bytes left (`RandomFile.faultBytes`)
and not in bytes read.
-/

namespace DistFuzz.Injector

open DistFuzz.Lib

section Spends

variable {σ ι : Type*} (random : σ → RandomFile) (step : σ → ι → σ) (injects : σ → ι → Bool)

/-- How an injector uses its random file: a step that injects has drawn a byte
that is at least `50`; a step of either kind may draw more. -/
def Spends : Prop :=
  ∀ s i,
    (injects s i = false ∧ RandomFile.Reads (random s) (random (step s i))) ∨
    (injects s i = true ∧ 50 ≤ (random s).getRandomUint8.1 ∧
      RandomFile.Reads (random s).getRandomUint8.2 (random (step s i)))

variable {random step injects}

theorem Spends.reads (h : Spends random step injects) (s : σ) (i : ι) :
    RandomFile.Reads (random s) (random (step s i)) := by
  rcases h s i with ⟨-, hr⟩ | ⟨-, -, hr⟩
  · exact hr
  · exact (RandomFile.reads_uint8 _).trans hr

/-- A step pays for its fault with a fault byte. -/
theorem Spends.pays (h : Spends random step injects) (s : σ) (i : ι) (hs : (random s).Short) :
    (random (step s i)).faultBytes + (if injects s i then 1 else 0)
      ≤ (random s).faultBytes := by
  rcases h s i with ⟨hinj, hr⟩ | ⟨hinj, hb, hr⟩
  · simpa [hinj] using hr.faultBytes_le hs
  · -- the byte that decided to inject is gone, and what was drawn after it too
    have hread : (random s).getRandomUint8.2.faultBytes + 1 = (random s).faultBytes := by
      simpa [RandomFile.getRandomUint8, show 50 ≤ (random s).readByte.1 from hb]
        using RandomFile.readByte_faultBytes hs
    have hrest := hr.faultBytes_le (RandomFile.readByte_short hs)
    rw [if_pos hinj]
    omega

/-- At the end of the file a step injects nothing. -/
theorem Spends.atEnd (h : Spends random step injects) (s : σ) (i : ι) (he : (random s).AtEnd) :
    injects s i = false := by
  rcases h s i with ⟨hinj, -⟩ | ⟨-, hb, -⟩
  · exact hinj
  · rw [RandomFile.getRandomUint8, RandomFile.readByte_atEnd he] at hb
    exact absurd hb (show ¬(50 : UInt8) ≤ 0 by decide)

/-- A run injects at most as many faults as the file has fault bytes left. -/
theorem spends_budget (h : Spends random step injects) {s : σ} (ins : List ι)
    (hs : (random s).Short) :
    (outputs step injects s ins).countP id ≤ (random s).faultBytes :=
  outputs_countP_le (fun t => (random t).Short) (fun t => (random t).faultBytes)
    (fun t i ht => (h.reads t i).short ht) (fun t i ht => h.pays t i ht) hs

/-- From the end of the file on, a run injects nothing. -/
theorem spends_atEnd (h : Spends random step injects) {s : σ} {ins : List ι}
    (he : (random s).AtEnd) : ∀ b ∈ outputs step injects s ins, b = false := by
  induction ins generalizing s with
  | nil => exact fun b hb => (nomatch hb)
  | cons i ins ih =>
    rintro b (_ | ⟨_, hb⟩)
    · exact h.atEnd s i he
    · exact ih ((h.reads s i).atEnd he) b hb

end Spends

/-! ## The two injectors -/

/-- `handle_random_event` of strace set `fault_injected` at this stop. -/
def straceInjects (env : InjectorEnv) (s : InjectorState) (c : Call) : Bool :=
  (dstFuzzSyscallEnter env s c).outcome.event?.any (·.faultInjected)

/-- `handle_random_event` of rr set `fault_injected` at this call. -/
def rrInjects (env : InjectorEnv) (s : RrState) (c : RrCall) : Bool :=
  match (dstFuzz env s c).2 with
  | .ignored => false
  | .recorded fault => fault.isSome

theorem strace_spends (env : InjectorEnv) :
    Spends InjectorState.random (stepInjector env) (straceInjects env) := by
  intro s c
  rw [straceInjects, stepInjector]
  rcases enter_cases env s c with h | ⟨regs, -, -, -, h⟩ | ⟨s', kind, isSend, source, hs', h⟩ |
    ⟨kind, isSend, source, -, -, -, -, -, hb, h⟩
  · rw [h]
    exact .inl ⟨rfl, .refl _⟩
  · rw [h]
    exact .inl ⟨rfl, .refl _⟩
  · rw [h]
    refine .inl ⟨rfl, ?_⟩
    show RandomFile.Reads s.random s'.random
    rcases hs' with rfl | rfl
    · exact .refl _
    · exact RandomFile.reads_uint8 _
  · have hframe := injectFault_frame { s with random := s.random.getRandomUint8.2 } c kind
      isSend (callLength c source) (if isSend then writeErrorCodes else readErrorCodes)
    rw [h, injectFault_event]
    exact .inr ⟨rfl, hb, hframe.1⟩

theorem rr_spends (env : InjectorEnv) :
    Spends RrState.random (fun s c => (dstFuzz env s c).1) (rrInjects env) := by
  intro s c
  rw [rrInjects]
  rcases dstFuzz_cases env s c with ⟨hnone, hr⟩ | ⟨f, hf, hb, hr⟩
  · refine .inl ⟨?_, hr⟩
    cases hout : (dstFuzz env s c).2 with
    | ignored => rfl
    | recorded fault =>
      cases fault with
      | none => rfl
      | some f => exact absurd hout (hnone f)
  · exact .inr ⟨by rw [hf]; rfl, hb, hr⟩

/-- **Fault budget**: from a fresh start on a file shorter than `2 ^ 32` bytes, a
run of either injector injects at most as many faults as the file has bytes
`≥ 50`, and none after a point where the read index has reached the end. -/
theorem fault_budget (env : InjectorEnv) (file : List UInt8) (hlen : file.length < 2 ^ 32) :
    (∀ (hashEnv : HashEnv) (shared : Shared) (calls : List Call),
      (outputs (stepInjector env) (straceInjects env) (.init file hashEnv shared) calls).countP id
          ≤ file.countP (50 ≤ ·) ∧
      ∀ pre post, calls = pre ++ post →
        (run (stepInjector env) (.init file hashEnv shared) pre).random.AtEnd →
        ∀ b ∈ outputs (stepInjector env) (straceInjects env)
          (run (stepInjector env) (.init file hashEnv shared) pre) post, b = false) ∧
    (∀ (cells : UInt64 → UInt8) (calls : List RrCall),
      (outputs (fun s c => (dstFuzz env s c).1) (rrInjects env) (.init file cells) calls).countP id
          ≤ file.countP (50 ≤ ·) ∧
      ∀ pre post, calls = pre ++ post →
        (run (fun s c => (dstFuzz env s c).1) (.init file cells) pre).random.AtEnd →
        ∀ b ∈ outputs (fun s c => (dstFuzz env s c).1) (rrInjects env)
          (run (fun s c => (dstFuzz env s c).1) (.init file cells) pre) post, b = false) := by
  refine ⟨fun hashEnv shared calls => ⟨?_, ?_⟩, fun cells calls => ⟨?_, ?_⟩⟩
  · exact spends_budget (strace_spends env) calls hlen
  · exact fun pre post _ he => spends_atEnd (strace_spends env) he
  · exact spends_budget (rr_spends env) calls hlen
  · exact fun pre post _ he => spends_atEnd (rr_spends env) he

/-- Two sends on a socket and a file with one fault byte: one fault at most. -/
theorem fault_budget_oneByte :
    (outputs (stepInjector ⟨false, none⟩) (straceInjects ⟨false, none⟩)
      (.init [200, 0] ⟨false, 0⟩ ⟨fun _ => 0, 0⟩) [socketSend, socketSend]).countP id ≤ 1 :=
  ((fault_budget ⟨false, none⟩ [200, 0] (by decide)).1 ⟨false, 0⟩ ⟨fun _ => 0, 0⟩
    [socketSend, socketSend]).1

end DistFuzz.Injector
