import Mathlib.Data.List.Induction
import Mathlib.Data.Nat.ModEq
import Mathlib.Tactic.Ring

/-! # Big-endian numbers

A number as a given number of bytes, the most significant first, and the number that bytes
stand for. -/

namespace Scriba.Lib.BigEndian

/-- The last `k` bytes of `n`. -/
def bytes : Nat → Nat → List UInt8
  | 0, _ => []
  | k + 1, n => bytes k (n / 256) ++ [UInt8.ofNat n]

def value (bs : List UInt8) : Nat := bs.foldl (fun n b => 256 * n + b.toNat) 0

@[simp] theorem length_bytes (k n : Nat) : (bytes k n).length = k := by
  induction k generalizing n with
  | zero => rfl
  | succ k ih => rw [bytes, List.length_append, ih, List.length_singleton]

theorem value_concat (bs : List UInt8) (b : UInt8) :
    value (bs ++ [b]) = 256 * value bs + b.toNat := by
  rw [value, List.foldl_append]
  rfl

/-- **Round trip**, of what fits. -/
theorem value_bytes {k n : Nat} (h : n < 256 ^ k) : value (bytes k n) = n := by
  induction k generalizing n with
  | zero =>
    rw [pow_zero] at h
    obtain rfl : n = 0 := by omega
    rfl
  | succ k ih =>
    have hdiv : n / 256 < 256 ^ k := by
      rw [Nat.div_lt_iff_lt_mul (by decide), ← pow_succ]
      exact h
    rw [bytes, value_concat, ih hdiv, UInt8.toNat_ofNat']
    omega

theorem value_lt (bs : List UInt8) : value bs < 256 ^ bs.length := by
  induction bs using List.reverseRecOn with
  | nil => decide
  | append_singleton bs b ih =>
    have hb := b.toNat_lt
    rw [value_concat, List.length_append, List.length_singleton, pow_succ]
    omega

end Scriba.Lib.BigEndian
