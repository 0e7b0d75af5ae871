import Mathlib.Tactic

/-! A flat byte-addressed memory with little-endian 64-bit words.
Words are read and written byte by byte, so a store to one word and an ordinary
byte write of a client act on the same cells. -/
namespace LixRtos

abbrev Memory := ℕ → BitVec 8

namespace Memory

/-- The little-endian word stored in the eight bytes from `a` on. -/
def word (m : Memory) (a : ℕ) : BitVec 64 :=
  BitVec.ofNat 64 ((m a).toNat + 256 * ((m (a+1)).toNat + 256 * ((m (a+2)).toNat +
    256 * ((m (a+3)).toNat + 256 * ((m (a+4)).toNat + 256 * ((m (a+5)).toNat +
    256 * ((m (a+6)).toNat + 256 * (m (a+7)).toNat)))))))

def setWord (m : Memory) (a : ℕ) (v : BitVec 64) : Memory := fun x =>
  if a ≤ x ∧ x < a+8 then BitVec.ofNat 8 (v.toNat / 256^(x-a)) else m x

def fill (m : Memory) (a n : ℕ) (v : BitVec 8) : Memory := fun x =>
  if a ≤ x ∧ x < a+n then v else m x

def setByte (m : Memory) (a : ℕ) (v : BitVec 8) : Memory := fun x => if x = a then v else m x

theorem setWord_outside (m : Memory) (a : ℕ) (v : BitVec 64) {x : ℕ} (hx : x < a ∨ a+8 ≤ x) :
    m.setWord a v x = m x := by
  rw [setWord,if_neg (by omega)]

@[simp] theorem setByte_other (m : Memory) {a x : ℕ} (v : BitVec 8) (hx : x ≠ a) :
    m.setByte a v x = m x := by simp [setByte,hx]

theorem word_congr {m m' : Memory} {a : ℕ} (h : ∀ x, a ≤ x → x < a+8 → m' x = m x) :
    m'.word a = m.word a := by
  simp only [word]
  rw [h a (by omega) (by omega),h (a+1) (by omega) (by omega),h (a+2) (by omega) (by omega),
    h (a+3) (by omega) (by omega),h (a+4) (by omega) (by omega),h (a+5) (by omega) (by omega),
    h (a+6) (by omega) (by omega),h (a+7) (by omega) (by omega)]

@[simp] theorem word_setWord (m : Memory) (a : ℕ) (v : BitVec 64) : (m.setWord a v).word a = v := by
  have hb (i : ℕ) (hi : i < 8) :
      (m.setWord a v (a+i)).toNat = v.toNat / 256^i % 256 := by
    rw [setWord,if_pos (by omega)]
    simp
  have h0 := hb 0 (by omega)
  apply BitVec.eq_of_toNat_eq
  simp only [word,BitVec.toNat_ofNat]
  rw [Nat.add_zero] at h0
  rw [h0,hb 1 (by omega),hb 2 (by omega),hb 3 (by omega),hb 4 (by omega),hb 5 (by omega),
    hb 6 (by omega),hb 7 (by omega)]
  norm_num
  omega

theorem word_setWord_disjoint (m : Memory) {a b : ℕ} (v : BitVec 64) (h : a+8 ≤ b ∨ b+8 ≤ a) :
    (m.setWord a v).word b = m.word b :=
  word_congr fun _ _ _ => setWord_outside _ _ _ (by omega)

theorem word_setByte_outside (m : Memory) {a b : ℕ} (v : BitVec 8) (h : a < b ∨ b+8 ≤ a) :
    (m.setByte a v).word b = m.word b :=
  word_congr fun _ _ _ => setByte_other _ _ (by omega)

end Memory

namespace Word

theorem and_not_add_and (x m : BitVec 64) : (x &&& ~~~m) + (x &&& m) = x := by
  rw [BitVec.add_eq_or_of_and_eq_zero]
  all_goals
    ext i hi
    cases hx : x[i] <;> cases hm : m[i] <;> simp [hx,hm]

theorem toNat_and_not (x m : BitVec 64) : (x &&& ~~~m).toNat = x.toNat - (x &&& m).toNat := by
  have hle (n : BitVec 64) : (x &&& n).toNat ≤ x.toNat := by
    rw [BitVec.toNat_and]
    exact Nat.and_le_left
  have h := congrArg BitVec.toNat (and_not_add_and x m)
  have h₂ := hle (~~~m)
  rw [BitVec.toNat_add] at h
  omega

theorem toNat_and_seven (x : BitVec 64) : (x &&& 7#64).toNat = x.toNat % 8 := by
  rw [BitVec.toNat_and]
  exact Nat.and_two_pow_sub_one_eq_mod x.toNat 3

theorem toNat_and_not_seven (x : BitVec 64) : (x &&& ~~~7#64).toNat = x.toNat - x.toNat % 8 := by
  rw [toNat_and_not,toNat_and_seven]

def topBit : BitVec 64 := 1#64 <<< (8*8-1)

@[simp] theorem toNat_topBit : topBit.toNat = 2^63 := rfl

theorem and_topBit (x : BitVec 64) : x &&& topBit = if x.toNat < 2^63 then 0 else topBit := by
  have hm : topBit = BitVec.twoPow 64 63 := rfl
  have hb : x.getLsbD 63 = decide (2^63 ≤ x.toNat) := by
    rw [← BitVec.msb_eq_getLsbD_last (w := 64),BitVec.msb_eq_decide]
  rw [hm,BitVec.and_twoPow,hb]
  by_cases h : x.toNat < 2^63
  · rw [if_pos h,if_neg (by simpa using h)]; rfl
  · rw [if_neg h,if_pos (by simpa using h)]

theorem and_topBit_eq_zero (x : BitVec 64) : x &&& topBit = 0 ↔ x.toNat < 2^63 := by
  rw [and_topBit]
  split
  · next h => exact iff_of_true rfl h
  · next h => exact iff_of_false (by decide) h

theorem toNat_and_not_topBit (x : BitVec 64) : (x &&& ~~~topBit).toNat = x.toNat % 2^63 := by
  rw [toNat_and_not,and_topBit]
  split
  · simp only [BitVec.ofNat_eq_ofNat,BitVec.toNat_ofNat]; omega
  · rw [toNat_topBit]; omega

theorem toNat_or_topBit {x : BitVec 64} (h : x.toNat < 2^63) :
    (x ||| topBit).toNat = x.toNat + 2^63 := by
  rw [← BitVec.add_eq_or_of_and_eq_zero _ _ ((and_topBit_eq_zero x).mpr h),BitVec.toNat_add,
    toNat_topBit]
  omega

end Word
end LixRtos
