import Mathlib.Data.Int.DivMod
import Mathlib.Tactic.Ring

/-! Conversions of integers to the C types `int`, `long` and `unsigned int`, on a machine with
32-bit `int` and 64-bit `long`. -/
namespace LixRtos

def toInt (x : ℤ) : ℤ := x.bmod (2^32)

def toLong (x : ℤ) : ℤ := x.bmod (2^64)

def toUnsigned (x : ℕ) : ℕ := x % 2^32

@[simp] theorem toInt_toLong (x : ℤ) : toInt (toLong x) = toInt x :=
  Int.bmod_bmod_of_dvd (by norm_num)

@[simp] theorem toInt_toInt (x : ℤ) : toInt (toInt x) = toInt x := Int.bmod_bmod

theorem toInt_congr {x y : ℤ} (h : x % 2^32 = y % 2^32) : toInt x = toInt y := by
  simp only [toInt,Int.bmod_def]
  push_cast
  omega

theorem toLong_congr {x y : ℤ} (h : x % 2^64 = y % 2^64) : toLong x = toLong y := by
  simp only [toLong,Int.bmod_def]
  push_cast
  omega

theorem toInt_emod (x : ℤ) : toInt x % 2^32 = x % 2^32 := by
  simp only [toInt,Int.bmod_def]
  push_cast
  omega

theorem toInt_eq_zero_iff {x : ℤ} : toInt x = 0 ↔ x % 2^32 = 0 := by
  simp only [toInt,Int.bmod_def]
  push_cast
  omega

theorem toLong_emod (x : ℤ) : toLong x % 2^64 = x % 2^64 := by
  simp only [toLong,Int.bmod_def]
  push_cast
  omega

theorem toLong_add_mul (x : ℤ) : ∃ k : ℤ, toLong x = x + k * 2^64 :=
  ⟨(toLong x - x) / 2^64,by have := toLong_emod x; omega⟩

theorem toInt_range (x : ℤ) : -2^31 ≤ toInt x ∧ toInt x < 2^31 := by
  simp only [toInt,Int.bmod_def]
  push_cast
  omega

theorem toLong_range (x : ℤ) : -2^63 ≤ toLong x ∧ toLong x < 2^63 := by
  simp only [toLong,Int.bmod_def]
  push_cast
  omega

theorem toInt_eq {x : ℤ} (hlo : -2^31 ≤ x) (hhi : x < 2^31) : toInt x = x := by
  simp only [toInt,Int.bmod_def]
  push_cast
  omega

theorem toLong_eq {x : ℤ} (hlo : -2^63 ≤ x) (hhi : x < 2^63) : toLong x = x := by
  simp only [toLong,Int.bmod_def]
  push_cast
  omega

end LixRtos
