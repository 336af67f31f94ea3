import Mathlib

/-!
# Fixed-width unsigned arithmetic on naturals

Counters and sizes of the C sources are naturals in the models; a store to a 32-bit or
64-bit unsigned object is an explicit truncation.
-/
namespace BpfVerify.Word

def u32 (n : ℕ) : ℕ := n % 2 ^ 32

def u64 (n : ℕ) : ℕ := n % 2 ^ 64

/-- `x - y` on `u32`. -/
def sub32 (x y : ℕ) : ℕ := u32 (x + 2 ^ 32 - y)

/-- `x - y` on `u64`. -/
def sub64 (x y : ℕ) : ℕ := u64 (x + 2 ^ 64 - y)

lemma u32_of_lt {n : ℕ} (h : n < 2 ^ 32) : u32 n = n := Nat.mod_eq_of_lt h

lemma u64_of_lt {n : ℕ} (h : n < 2 ^ 64) : u64 n = n := Nat.mod_eq_of_lt h

lemma sub32_of_le {x y : ℕ} (hx : x < 2 ^ 32) (h : y ≤ x) : sub32 x y = x - y := by
  rw [sub32, show x + 2 ^ 32 - y = (x - y) + 2 ^ 32 by omega, u32, Nat.add_mod_right]
  exact Nat.mod_eq_of_lt (by omega)

lemma sub64_of_le {x y : ℕ} (hx : x < 2 ^ 64) (h : y ≤ x) : sub64 x y = x - y := by
  rw [sub64, show x + 2 ^ 64 - y = (x - y) + 2 ^ 64 by omega, u64, Nat.add_mod_right]
  exact Nat.mod_eq_of_lt (by omega)

end BpfVerify.Word
