import Mathlib.Algebra.Order.Group.Int

/-!
# Times in seconds and nanoseconds

A normalised `struct timespec`: a time, or a span of time, with its nanoseconds below
one second.

- `nanos`: the time as a number; `ofNanos`: the way back. Times are ordered by it.
- `lt_iff_fields`: the order, read off the two fields.
- `carried`: two sums of fields with at most one second too much; `nanos_carried`.
-/

namespace DistFuzz.Lib

/-- A time or a span. -/
structure Timespec where
  sec : Int
  nsec : Nat
  nsec_lt : nsec < 1000000000
deriving DecidableEq, Repr

namespace Timespec

/-- The time in nanoseconds. -/
def nanos (t : Timespec) : Int := t.sec * 1000000000 + t.nsec

theorem nanos_injective : Function.Injective nanos := by
  rintro ⟨s, n, hn⟩ ⟨s', n', hn'⟩ h
  unfold nanos at h
  dsimp only at h
  have hs : s = s' := by omega
  have hnn : n = n' := by omega
  subst hs hnn
  rfl

instance : LinearOrder Timespec := LinearOrder.lift' nanos nanos_injective

theorem lt_iff {a b : Timespec} : a < b ↔ a.nanos < b.nanos := Iff.rfl

theorem le_iff {a b : Timespec} : a ≤ b ↔ a.nanos ≤ b.nanos := Iff.rfl

theorem lt_iff_fields {a b : Timespec} :
    a < b ↔ a.sec < b.sec ∨ a.sec = b.sec ∧ a.nsec < b.nsec := by
  have ha := a.nsec_lt
  have hb := b.nsec_lt
  rw [lt_iff]
  unfold nanos
  omega

/-- The time so many nanoseconds after the epoch. -/
def ofNanos (n : Int) : Timespec where
  sec := n / 1000000000
  nsec := (n % 1000000000).toNat
  nsec_lt := by omega

@[simp] theorem nanos_ofNanos (n : Int) : (ofNanos n).nanos = n := by
  unfold nanos ofNanos
  dsimp only
  omega

/-- Seconds and up to two seconds' worth of nanoseconds, with the carry moved. -/
def carried (sec : Int) (nsec : Nat) (h : nsec < 2000000000) : Timespec :=
  if hc : 1000000000 ≤ nsec then ⟨sec + 1, nsec - 1000000000, by omega⟩
  else ⟨sec, nsec, by omega⟩

theorem nanos_carried (sec : Int) (nsec : Nat) (h : nsec < 2000000000) :
    (carried sec nsec h).nanos = sec * 1000000000 + nsec := by
  unfold carried
  split
  · unfold nanos
    dsimp only
    omega
  · rfl

end Timespec

end DistFuzz.Lib
