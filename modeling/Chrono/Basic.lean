import Mathlib.Algebra.Group.Int.Defs
import Mathlib.Algebra.Group.Nat.Defs
import Mathlib.Data.Int.Basic
import Mathlib.Logic.Function.Basic
import Mathlib.Tactic.Common

/-!
# Strings, 64-bit arithmetic and how a call ends

`std::string` is a list of bytes; `int64_t` values are integers whose
arithmetic wraps in two's complement; a call that does not return either threw
a `std::exception` or ran into undefined behaviour.
-/
namespace Chrono

/-- `std::string`: any sequence of bytes. -/
abbrev Bytes := List UInt8

/-- The bytes of an ASCII literal of the source. -/
def lit (s : String) : Bytes := s.toList.map (fun c => c.toNat.toUInt8)

/-- The value an `int64_t` holds after an operation with exact result `x`. -/
def toInt64 (x : ℤ) : ℤ := Int.bmod x (2 ^ 64)

theorem toInt64_eq_self {x : ℤ} (hlo : -2 ^ 63 ≤ x) (hhi : x < 2 ^ 63) : toInt64 x = x := by
  unfold toInt64
  rw [Int.bmod_eq_of_le] <;> omega

theorem toInt64_eq_ite (x : ℤ) :
    toInt64 x = if x % 2 ^ 64 < 2 ^ 63 then x % 2 ^ 64 else x % 2 ^ 64 - 2 ^ 64 := by
  change (if x % 2 ^ 64 < (2 ^ 64 + 1) / 2 then x % 2 ^ 64 else x % 2 ^ 64 - 2 ^ 64) = _
  split_ifs <;> omega

theorem toInt64_lt (x : ℤ) : toInt64 x < 2 ^ 63 := by
  have h : Int.bmod x (2 ^ 64) < (2 ^ 64 + 1) / 2 := Int.bmod_lt (by decide)
  exact h

theorem toInt64_le {x : ℤ} (h : -2 ^ 63 ≤ x) : toInt64 x ≤ x := by
  by_cases hx : x < 2 ^ 63
  · exact Int.le_of_eq (toInt64_eq_self h hx)
  · have := toInt64_lt x
    omega

/-- How a call ends when it does not return. -/
inductive Fault where
  /-- A `std::exception` with its `what()` text. -/
  | exception (what : Bytes)
  /-- Undefined behaviour: a dangling or out-of-range access, or a loop without end. -/
  | undefined
deriving DecidableEq, Repr

/-- A call that may fault, on a state that keeps its changes when it does. -/
abbrev Action (σ α : Type) := σ → Except Fault α × σ

end Chrono
