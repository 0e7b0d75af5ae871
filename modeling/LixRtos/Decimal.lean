import Mathlib

/-! Decimal numbers in text, with a fixed number of digits: their order, and how they are read. -/
namespace LixRtos
namespace Decimal

theorem isDigit_iff (c : Char) : c.isDigit ↔ '0'.toNat ≤ c.toNat ∧ c.toNat ≤ '0'.toNat + 9 := by
  simp only [Char.isDigit,Bool.and_eq_true,decide_eq_true_eq,UInt32.le_iff_toNat_le]
  exact Iff.rfl

variable {digits digits' rest : List Char}

theorem value_cons (c : Char) (digits : List Char) : Nat.ofDigitChars 10 (c :: digits) 0 =
    10 ^ digits.length * (c.toNat - '0'.toNat) + Nat.ofDigitChars 10 digits 0 := by
  rw [Nat.ofDigitChars_cons,Nat.mul_zero,Nat.zero_add,Nat.ofDigitChars_eq_ofDigitChars_zero]

theorem ofDigitChars_lt (hdigits : ∀ c ∈ digits, c.isDigit) :
    Nat.ofDigitChars 10 digits 0 < 10 ^ digits.length := by
  induction digits with
  | nil => simp
  | cons c digits ih =>
    have hc : c.toNat - '0'.toNat ≤ 9 := by
      have hdigit := (isDigit_iff c).mp (hdigits c List.mem_cons_self)
      omega
    have hrest := ih fun c hc => hdigits c (List.mem_cons_of_mem _ hc)
    rw [value_cons,List.length_cons,Nat.pow_succ]
    have : 10 ^ digits.length * (c.toNat - '0'.toNat) ≤ 10 ^ digits.length * 9 :=
      Nat.mul_le_mul_left _ hc
    omega

theorem append_lt_append_iff {a a' b b' : List Char} (h : a.length = a'.length) :
    a ++ b < a' ++ b' ↔ a < a' ∨ a = a' ∧ b < b' := by
  induction a generalizing a' with
  | nil =>
    obtain rfl := List.length_eq_zero_iff.mp h.symm
    simp
  | cons c a ih =>
    cases a' with
    | nil => exact absurd h (by simp)
    | cons c' a' =>
      rw [List.cons_append,List.cons_append,List.cons_lt_cons_iff,List.cons_lt_cons_iff,
        List.cons.injEq,
        ih (Nat.succ.inj h)]
      tauto

/-- Numbers with the same number of digits are in the order of their texts. -/
theorem digits_lt_iff (hlen : digits.length = digits'.length) (hdigits : ∀ c ∈ digits, c.isDigit)
    (hdigits' : ∀ c ∈ digits', c.isDigit) :
    digits < digits' ↔ Nat.ofDigitChars 10 digits 0 < Nat.ofDigitChars 10 digits' 0 := by
  induction digits generalizing digits' with
  | nil =>
    obtain rfl := List.length_eq_zero_iff.mp hlen.symm
    simp
  | cons c digits ih =>
    cases digits' with
    | nil => exact absurd hlen (by simp)
    | cons c' digits' =>
      have hlen' : digits.length = digits'.length := Nat.succ.inj hlen
      have hall : ∀ x ∈ digits, x.isDigit := fun x hx => hdigits x (List.mem_cons_of_mem _ hx)
      have hall' : ∀ x ∈ digits', x.isDigit := fun x hx => hdigits' x (List.mem_cons_of_mem _ hx)
      have hlt := ofDigitChars_lt hall
      have hlt' := ofDigitChars_lt hall'
      have hc := (isDigit_iff c).mp (hdigits c List.mem_cons_self)
      have hc' := (isDigit_iff c').mp (hdigits' c' List.mem_cons_self)
      rw [List.cons_lt_cons_iff,ih hlen' hall hall',value_cons,value_cons,hlen']
      rw [hlen'] at hlt
      -- a greater first digit outweighs all that follows
      have hweigh {m n : ℕ} (h : m < n) :
          10 ^ digits'.length * m + 10 ^ digits'.length ≤ 10 ^ digits'.length * n := by
        rw [← Nat.mul_succ]
        exact Nat.mul_le_mul_left _ h
      rcases lt_trichotomy c.toNat c'.toNat with h | h | h
      · refine iff_of_true (Or.inl h) ?_
        have := hweigh (show c.toNat - '0'.toNat < c'.toNat - '0'.toNat by omega)
        omega
      · obtain rfl : c = c' := Char.toNat_inj.mp h
        simp
      · refine iff_of_false ?_ ?_
        · rintro (hlt | ⟨rfl,-⟩)
          · exact absurd (show c.toNat < c'.toNat from hlt) (by omega)
          · exact absurd h (by omega)
        · have := hweigh (show c'.toNat - '0'.toNat < c.toNat - '0'.toNat by omega)
          omega

def padded (w n : ℕ) : List Char := (Nat.toDigits 10 n).leftpad w '0'

variable {w n n' : ℕ}

theorem padded_length (hw : 0 < w) (hn : n < 10 ^ w) : (padded w n).length = w := by
  have hdigits : (Nat.toDigits 10 n).length ≤ w := (Nat.length_toDigits_le_iff (by decide) hw).mpr hn
  rw [padded,List.length_leftpad,max_eq_left hdigits]

theorem padded_isDigit (w n : ℕ) : ∀ c ∈ padded w n, c.isDigit := by
  intro c hc
  rcases List.mem_append.mp hc with hpad | hdigit
  · rw [List.eq_of_mem_replicate hpad]
    decide
  · exact Nat.isDigit_of_mem_toDigits (by decide) le_rfl hdigit

theorem padded_value (w n : ℕ) : Nat.ofDigitChars 10 (padded w n) 0 = n := by
  rw [padded,List.leftpad,Nat.ofDigitChars_append,Nat.ofDigitChars_replicate_zero,Nat.mul_zero,
    Nat.ofDigitChars_ten_toDigits]

theorem padded_lt_iff (hw : 0 < w) (hn : n < 10 ^ w) (hn' : n' < 10 ^ w) :
    padded w n < padded w n' ↔ n < n' := by
  have hlen : (padded w n).length = (padded w n').length := by
    rw [padded_length hw hn,padded_length hw hn']
  rw [digits_lt_iff hlen (padded_isDigit w n) (padded_isDigit w n'),padded_value,padded_value]

theorem padded_inj (h : padded w n = padded w n') : n = n' := by
  rw [← padded_value w n,h,padded_value]

theorem padded_append_lt_iff (hw : 0 < w) (hn : n < 10 ^ w) (hn' : n' < 10 ^ w) {b b' : List Char} :
    padded w n ++ b < padded w n' ++ b' ↔ n < n' ∨ n = n' ∧ b < b' := by
  rw [append_lt_append_iff (by rw [padded_length hw hn,padded_length hw hn']),padded_lt_iff hw hn hn']
  have heq : padded w n = padded w n' ↔ n = n' := ⟨padded_inj,fun h => by rw [h]⟩
  rw [heq]

/-- Read at most `k` more digits behind the number `val`, as long as it can still be `hi` at
most. -/
def scan (hi : ℕ) : ℕ → ℕ → List Char → ℕ × List Char
  | k+1, val, c :: s =>
    if val * 10 ≤ hi ∧ c.isDigit then scan hi k (10 * val + (c.toNat - '0'.toNat)) s else (val,c :: s)
  | _, val, s => (val,s)

/-- Skip blanks, and read a number between `lo` and `hi` of at most `k` digits. -/
def getNumber (lo hi k : ℕ) (s : List Char) : Option (ℕ × List Char) :=
  match s.dropWhile (· = ' ') with
  | c :: s =>
    if c.isDigit then
      let r := scan hi (k-1) (c.toNat - '0'.toNat) s
      if lo ≤ r.1 ∧ r.1 ≤ hi then some r else none
    else none
  | [] => none

variable {lo hi k val : ℕ}

theorem scan_digits (hdigits : ∀ c ∈ digits, c.isDigit) (hval : Nat.ofDigitChars 10 digits val ≤ hi)
    (hlen : digits.length ≤ k) (hrest : digits.length = k ∨ rest.takeWhile Char.isDigit = []) :
    scan hi k val (digits ++ rest) = (Nat.ofDigitChars 10 digits val,rest) := by
  induction digits generalizing k val with
  | nil =>
    cases k with
    | zero => rfl
    | succ k =>
      cases rest with
      | nil => rfl
      | cons c rest =>
        have hc : ¬ c.isDigit := by
          intro hc
          rcases hrest with h | h
          · exact absurd h (by simp)
          · rw [List.takeWhile_cons_of_pos hc] at h
            exact absurd h (by simp)
        exact if_neg fun h => hc h.2
  | cons c digits ih =>
    cases k with
    | zero => exact absurd hlen (by simp)
    | succ k =>
      rw [Nat.ofDigitChars_cons] at hval
      have hgrow : val * 10 ≤ hi := by
        rw [Nat.ofDigitChars_eq_ofDigitChars_zero] at hval
        have hone : 1 * (10 * val) ≤ 10 ^ digits.length * (10 * val + (c.toNat - '0'.toNat)) :=
          Nat.mul_le_mul (Nat.one_le_pow _ _ (by decide)) (by omega)
        omega
      rw [List.cons_append,scan,if_pos ⟨hgrow,hdigits c List.mem_cons_self⟩,Nat.ofDigitChars_cons]
      exact ih (fun x hx => hdigits x (List.mem_cons_of_mem _ hx)) hval (Nat.le_of_succ_le_succ hlen)
        (hrest.imp_left Nat.succ.inj)

theorem getNumber_digits (hne : digits ≠ []) (hdigits : ∀ c ∈ digits, c.isDigit)
    (hval : lo ≤ Nat.ofDigitChars 10 digits 0 ∧ Nat.ofDigitChars 10 digits 0 ≤ hi)
    (hlen : digits.length ≤ k)
    (hrest : digits.length = k ∨ rest.takeWhile Char.isDigit = []) :
    getNumber lo hi k (digits ++ rest) = some (Nat.ofDigitChars 10 digits 0,rest) := by
  cases digits with
  | nil => exact absurd rfl hne
  | cons c digits =>
    have hc : c.isDigit := hdigits c List.mem_cons_self
    have hblank : c ≠ ' ' := by
      rintro rfl
      exact absurd hc (by decide)
    have hvalue : Nat.ofDigitChars 10 (c :: digits) 0 = Nat.ofDigitChars 10 digits
        (c.toNat - '0'.toNat) := by
      rw [Nat.ofDigitChars_cons,Nat.mul_zero,Nat.zero_add]
    rw [hvalue] at hval ⊢
    have hscan : scan hi (k-1) (c.toNat - '0'.toNat) (digits ++ rest) =
        (Nat.ofDigitChars 10 digits (c.toNat - '0'.toNat),rest) := by
      rw [List.length_cons] at hlen hrest
      refine scan_digits (fun x hx => hdigits x (List.mem_cons_of_mem _ hx)) hval.2 (by omega) ?_
      exact hrest.imp_left fun h => by omega
    have hskip : ((c :: digits) ++ rest).dropWhile (· = ' ') = c :: (digits ++ rest) :=
      List.dropWhile_cons_of_neg (by simpa using hblank)
    rw [getNumber,hskip]
    simp only [if_pos hc,hscan,if_pos hval]

theorem getNumber_padded (hk : 0 < k) (hn : n < 10 ^ k) (hval : lo ≤ n ∧ n ≤ hi) :
    getNumber lo hi k (padded k n ++ rest) = some (n,rest) := by
  have hlen := padded_length hk hn
  have hne : padded k n ≠ [] := List.ne_nil_of_length_pos (by omega)
  have hnumber : getNumber lo hi k (padded k n ++ rest) = _ :=
    getNumber_digits hne (padded_isDigit k n) (by rwa [padded_value]) hlen.le (Or.inl hlen)
  rwa [padded_value] at hnumber

theorem getNumber_rest {r : ℕ × List Char} (hdigits : ∀ c ∈ digits, c.isDigit)
    (h : getNumber lo hi k digits = some r) : ∀ c ∈ r.2, c.isDigit := by
  have hscan (k val : ℕ) (s : List Char) (hs : ∀ c ∈ s, c.isDigit) :
      ∀ c ∈ (scan hi k val s).2, c.isDigit := by
    induction k generalizing val s with
    | zero => simpa [scan] using hs
    | succ k ih =>
      cases s with
      | nil => simp [scan]
      | cons c s =>
        rw [scan]
        split
        · exact ih _ _ fun x hx => hs x (List.mem_cons_of_mem _ hx)
        · exact hs
  rw [getNumber] at h
  split at h
  · next c s hdrop =>
    split at h
    · dsimp only at h
      split at h
      · rw [← Option.some.inj h]
        refine hscan _ _ _ fun x hx => hdigits x ?_
        have hsuffix : c :: s <:+ digits := hdrop ▸ List.dropWhile_suffix _
        exact hsuffix.subset (List.mem_cons_of_mem _ hx)
      · exact absurd h (by simp)
    · exact absurd h (by simp)
  · exact absurd h (by simp)

end Decimal
end LixRtos
