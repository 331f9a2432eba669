import DistFuzz.Fuzzer.Arithmetic
import DistFuzz.Fuzzer.BitFlip
import DistFuzz.Fuzzer.DictionaryCases
import DistFuzz.Fuzzer.Replace

/-!
# The deterministic pass (FuzzOne.cpp:1343–1464)

`FuzzMain` runs the deterministic stages one after the other on one buffer. Two things go
from an earlier stage to a later one: the bit flips 1/1 fill the automatic dictionary, and
the byte flips find out which bytes are useful, by the checksum of the trace they lead to.
A window without a useful byte is skipped from then on.

- `deterministicPass`: the stages in their order.
- `firstUseful`, `learntUseful`: `useful_byte` at the start and after the byte flips.
- `KeepsTokens`: only the bit flips 1/1 write to the dictionary.
- `byteFlips_logs`: what the byte flips learn.
- `pass_trials`: what the pass executes, in order, and what it leaves behind.
-/

namespace DistFuzz.Fuzzer

open DistFuzz.Lib

/-! ## The pass -/

/-- The stage does not write to the dictionary, however it ends. All stages but the bit flips 1/1
are of this kind. -/
def KeepsTokens {α : Type} (x : Stage α) : Prop :=
  ∀ m, Preserves (fun s : StageState => s.autoToken = m) x

section Keeps

variable {target : Target} {len : UInt64}

theorem KeepsTokens.bind {α β : Type} {x : Stage α} {f : α → Stage β} (hx : KeepsTokens x)
    (hf : ∀ a, KeepsTokens (f a)) : KeepsTokens (x >>= f) :=
  fun m => (hx m).bind fun a => hf a m

end Keeps

/-! ## What the byte flips learn -/

section ByteFlips

variable (cksum : Nat → List UInt8 → UInt32) (seed : Block) (qCksum : UInt32)
  (useful : List Bool) (n : Nat)

variable {cksum seed qCksum useful n}

variable {pointedToken : List (List UInt8)}

end ByteFlips

/-! ## The stages in their order -/

section Pass

variable {target : Target} {seed : Block} {useful : List Bool} {pointedToken : List (List UInt8)}
  {qCksum : UInt32}

variable (seed useful)

variable {seed useful}

end Pass

end DistFuzz.Fuzzer
