import Chrono.Basic

/-!
# Cache entries and their deadlines

Time points are `int64` nanoseconds since the epoch, TTLs `int64` milliseconds.
A clock reading is a natural number of nanoseconds; every sum, difference and
unit change is carried out in 64 bits.
-/
namespace Chrono

/-- The successive readings of `system_clock::now()` that one call makes. -/
abbrev Clock := ℕ → ℕ

def nsPerMs : ℕ := 1000000

/-- `duration_cast<milliseconds>(now.time_since_epoch()).count()` -/
def toMillis (now : ℕ) : ℤ := ((now / nsPerMs : ℕ) : ℤ)

/-- `Clock::now() + ttl` -/
def deadlineAfter (now : ℕ) (ttl : ℤ) : ℤ := toInt64 (now + toInt64 (ttl * nsPerMs))

/-- The sum `Clock::now() + ttl` is a time point of the clock. -/
def DeadlineInRange (now : ℕ) (ttl : ℤ) : Prop := (now : ℤ) + ttl * nsPerMs < 2 ^ 63

instance (now : ℕ) (ttl : ℤ) : Decidable (DeadlineInRange now ttl) :=
  inferInstanceAs (Decidable (_ < _))

theorem deadlineAfter_eq {now : ℕ} {ttl : ℤ} (hpos : 0 ≤ ttl) (h : DeadlineInRange now ttl) :
    deadlineAfter now ttl = now + ttl * nsPerMs := by
  unfold DeadlineInRange at h
  have hn : (0 : ℤ) ≤ ttl * nsPerMs := Int.mul_nonneg hpos (Int.natCast_nonneg _)
  have hmul : toInt64 (ttl * nsPerMs) = ttl * nsPerMs := toInt64_eq_self (by omega) (by omega)
  rw [deadlineAfter, hmul, toInt64_eq_self (by omega) (by omega)]

/-- The sum is wrapped, however often its parts were. -/
theorem deadlineAfter_wraps (now : ℕ) (ttl : ℤ) :
    deadlineAfter now ttl = toInt64 (now + ttl * nsPerMs) :=
  Int.add_bmod_bmod

theorem toMillis_le (now : ℕ) : toMillis now * nsPerMs ≤ now := by
  unfold toMillis nsPerMs
  omega

structure CacheEntry where
  value : Bytes
  expiresAt : Option ℤ
deriving DecidableEq, Repr

namespace CacheEntry

/-- `CacheEntry(val)` and `CacheEntry(val, ttl)`, the latter at a clock reading. -/
def make (value : Bytes) (ttl : Option ℤ) (now : ℕ) : CacheEntry :=
  ⟨value, ttl.map (deadlineAfter now)⟩

def isExpired (e : CacheEntry) (now : ℕ) : Bool :=
  match e.expiresAt with
  | none => false
  | some d => decide ((now : ℤ) > d)

def hasTtl (e : CacheEntry) : Bool := e.expiresAt.isSome

/-- The division of `duration_cast` truncates toward zero. -/
def remainingTtl (e : CacheEntry) (now : ℕ) : Option ℤ :=
  e.expiresAt.map (fun d => (toInt64 (d - now)).tdiv nsPerMs)

def updateTtl (e : CacheEntry) (ttl : ℤ) (now : ℕ) : CacheEntry :=
  { e with expiresAt := some (deadlineAfter now ttl) }

def removeTtl (e : CacheEntry) : CacheEntry := { e with expiresAt := none }

theorem isExpired_mono {e : CacheEntry} {now later : ℕ} (h : now ≤ later)
    (he : e.isExpired now = true) : e.isExpired later = true := by
  unfold isExpired at *
  cases hd : e.expiresAt with
  | none => simp [hd] at he
  | some d =>
    simp only [hd, decide_eq_true_eq] at he ⊢
    omega

end CacheEntry
end Chrono
