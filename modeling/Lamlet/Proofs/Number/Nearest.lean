import Lamlet.Proofs.Number.Rounding
import Mathlib.Algebra.Order.Field.Basic
import Mathlib.Algebra.Order.Ring.Abs
import Mathlib.Algebra.Ring.Parity
import Mathlib.Data.Nat.Cast.Order.Field

/-!
# Rounding goes to the nearest number

A quotient is rounded to a multiple of the weight of its last kept bit.  That multiple is
nearer to it than any other number of at most 53 significant bits: the multiples of smaller
weights that are no multiples of this one are smaller than the quotient by more.  So what a
decimal is read as is the magnitude nearest to it; of two equally near ones it is the one
with the even significand, and past the largest one there is the overflow bound.

## Main definitions

* `significand` — the significant bits of a number of units, as one number.
* `Magnitude.reach` — the units of a magnitude; what overflows counts as the overflow bound.
* `Magnitude.place` — the same as a rational number.
* `IsNearest` — the magnitude nearest to a rational number, a tie going to the even
  significand.

## Main results

* `IsNearest.unique` — there is only one.
* `Magnitude.isNearest_round?` — rounding a quotient finds it.
* `Decimal.isNearest_nearest?` — **reading a decimal finds it.**
-/

namespace Lamlet

/-! ### The nearest whole number -/

/-- What rounding leaves is at most half of the divisor, and exactly half of it only at an
even number. -/
theorem two_mul_roundDiv (num : ℕ) {den : ℕ} (hden : 0 < den) :
    |2 * (num : ℤ) - 2 * (roundDiv num den * den : ℕ)| ≤ den ∧
    (|2 * (num : ℤ) - 2 * (roundDiv num den * den : ℕ)| = den → Even (roundDiv num den)) := by
  have hnum : num = num / den * den + num % den := by
    rw [Nat.mul_comm, Nat.div_add_mod]
  have hlt : num % den < den := Nat.mod_lt num hden
  unfold roundDiv
  simp only
  split
  · next hup =>
    have hmul : (num / den + 1) * den = num / den * den + den := Nat.succ_mul _ _
    rw [hmul, abs_of_nonpos (by omega)]
    -- just half of the divisor is left, and only an odd number is rounded up then
    refine ⟨by omega, fun heq => ?_⟩
    rw [Nat.even_iff]
    omega
  · next hdown =>
    rw [abs_of_nonneg (by omega)]
    refine ⟨by omega, fun heq => ?_⟩
    rw [Nat.even_iff]
    omega

/-- The distance of a quotient from a whole number, in parts of the divisor. -/
theorem abs_div_sub (num n : ℕ) {den : ℕ} (hden : 0 < den) :
    |(num : ℚ) / den - n| = |2 * (num : ℤ) - 2 * (n * den : ℕ)| / (2 * den) := by
  have hpos : (0 : ℚ) < den := by exact_mod_cast hden
  have hsub : (num : ℚ) / den - n = (2 * (num : ℤ) - 2 * (n * den : ℕ) : ℤ) / (2 * den) := by
    push_cast
    field_simp
  rw [hsub, abs_div, abs_of_pos (by positivity : (0 : ℚ) < 2 * den)]
  push_cast
  rfl

theorem abs_sub_roundDiv_le (num : ℕ) {den : ℕ} (hden : 0 < den) :
    |(num : ℚ) / den - roundDiv num den| ≤ 1 / 2 := by
  have hpos : (0 : ℚ) < den := by exact_mod_cast hden
  have hle : ((|2 * (num : ℤ) - 2 * (roundDiv num den * den : ℕ)| : ℤ) : ℚ) ≤ den := by
    exact_mod_cast (two_mul_roundDiv num hden).1
  rw [abs_div_sub num _ hden, div_le_div_iff₀ (by positivity) (by positivity)]
  linarith

theorem even_roundDiv {num den : ℕ} (hden : 0 < den)
    (h : |(num : ℚ) / den - roundDiv num den| = 1 / 2) : Even (roundDiv num den) := by
  have hpos : (0 : ℚ) < den := by exact_mod_cast hden
  rw [abs_div_sub num _ hden, div_eq_div_iff (by positivity) (by positivity)] at h
  apply (two_mul_roundDiv num hden).2
  have heq : ((|2 * (num : ℤ) - 2 * (roundDiv num den * den : ℕ)| : ℤ) : ℚ) = den := by linarith
  exact_mod_cast heq

/-- A whole number at most one half away is the nearest one, and there is another one as near
only if it is one half away. -/
theorem nearest_of_half {x : ℚ} {n k : ℕ} (h : |x - n| ≤ 1 / 2) (hne : k ≠ n) :
    |x - n| ≤ |x - k| ∧ (|x - n| = |x - k| → |x - n| = 1 / 2) := by
  have hapart : (1 : ℚ) ≤ |(n : ℚ) - k| := by
    have hint : (1 : ℤ) ≤ |(n : ℤ) - k| := Int.one_le_abs (by omega)
    exact_mod_cast hint
  have htriangle : |(n : ℚ) - k| ≤ |x - n| + |x - k| := by
    rw [abs_sub_comm x n]
    exact abs_sub_le (n : ℚ) x k
  constructor
  · linarith
  · intro heq
    linarith

/-! ### Significant bits -/

/-- The significant bits of a number of units. -/
def significand (units : ℕ) : ℕ := units / 2 ^ lastBit units

/-- A mantissa that fills 53 bits, or any at all where every bit counts, has its last bit where
it is shifted to. -/
theorem lastBit_mul_two_pow {m k : ℕ} (hm : m < 2 ^ 53) (hk : k = 0 ∨ 2 ^ 52 ≤ m) :
    lastBit (m * 2 ^ k) = k := by
  refine le_antisymm (lastBit_mul_two_pow_le k hm) ?_
  rcases hk with rfl | hfull
  · exact Nat.zero_le _
  · have hle : 2 ^ (52 + k) ≤ m * 2 ^ k := by
      rw [Nat.pow_add]
      exact Nat.mul_le_mul_right _ hfull
    have hne : m * 2 ^ k ≠ 0 := (lt_of_lt_of_le (Nat.two_pow_pos _) hle).ne'
    have hlog := (Nat.le_log2 hne).2 hle
    simp only [lastBit]
    omega

theorem significand_mul_two_pow {m k : ℕ} (hm : m < 2 ^ 53) (hk : k = 0 ∨ 2 ^ 52 ≤ m) :
    significand (m * 2 ^ k) = m := by
  rw [significand, lastBit_mul_two_pow hm hk, Nat.mul_div_cancel _ (Nat.two_pow_pos k)]

theorem even_significand_two_pow {k : ℕ} (hk : 53 ≤ k) : Even (significand (2 ^ k)) := by
  have hbit : lastBit (2 ^ k) = k - 52 := by rw [lastBit, Nat.log2_two_pow]
  rw [significand, hbit, Nat.pow_div (by omega) (by decide)]
  have hexp : k - (k - 52) = 52 := by omega
  rw [hexp]
  decide

/-- An even mantissa leaves an even significand, also after a carry. -/
theorem even_significand {m k : ℕ} (hm : m ≤ 2 ^ 53) (hk : k = 0 ∨ 2 ^ 52 ≤ m)
    (heven : Even m) : Even (significand (m * 2 ^ k)) := by
  rcases Nat.lt_or_eq_of_le hm with hlt | rfl
  · rwa [significand_mul_two_pow hlt hk]
  · rw [← Nat.pow_add]
    exact even_significand_two_pow (by omega)

theorem significand_lt (units : ℕ) : significand units < 2 ^ 53 := by
  rw [significand, Nat.div_lt_iff_lt_mul (Nat.two_pow_pos _), ← Nat.pow_add]
  refine lt_of_lt_of_le Nat.lt_log2_self (Nat.pow_le_pow_right (by decide) ?_)
  simp only [lastBit]
  omega

theorem lastBit_eq_zero_or (units : ℕ) : lastBit units = 0 ∨ 2 ^ 52 ≤ significand units := by
  rcases Nat.eq_zero_or_pos (lastBit units) with hzero | hpos
  · exact .inl hzero
  · refine .inr ?_
    rw [significand, Nat.le_div_iff_mul_le (Nat.two_pow_pos _), ← Nat.pow_add]
    have hne : units ≠ 0 := by
      rintro rfl
      simp [lastBit] at hpos
    have hexp : 52 + lastBit units = units.log2 := by
      simp only [lastBit] at hpos ⊢
      omega
    rw [hexp]
    exact Nat.log2_self_le hne

theorem significand_mul {units : ℕ} (h : 2 ^ lastBit units ∣ units) :
    significand units * 2 ^ lastBit units = units :=
  Nat.div_mul_cancel h

namespace Magnitude

/-! ### The nearest number of 53 bits -/

section Rounded

variable (num : ℕ) {den : ℕ}

theorem two_pow_roundingBit_le (h : 0 < roundingBit num den) :
    2 ^ (52 + roundingBit num den) ≤ num / den := by
  have hne : num / den ≠ 0 := by
    intro hzero
    rw [roundingBit, hzero] at h
    simp [lastBit] at h
  have hexp : 52 + roundingBit num den = (num / den).log2 := by
    simp only [roundingBit, lastBit] at h ⊢
    omega
  rw [hexp]
  exact Nat.log2_self_le hne

theorem roundingBit_eq_zero_or (den : ℕ) :
    roundingBit num den = 0 ∨ 2 ^ 52 ≤ mantissa num den := by
  rcases Nat.eq_zero_or_pos (roundingBit num den) with hzero | hpos
  · exact .inl hzero
  · refine .inr (le_trans ?_ (div_le_roundDiv _ _))
    have hle := two_pow_roundingBit_le num hpos
    rw [Nat.pow_add] at hle
    rw [← Nat.div_div_eq_div_mul, Nat.le_div_iff_mul_le (Nat.two_pow_pos _)]
    exact hle

/-- Of the multiples of the weight of the last kept bit, the rounded one is the nearest. -/
theorem nearest_multiple (hden : 0 < den) {k : ℕ} (hne : k ≠ mantissa num den) :
    |(num : ℚ) / den - (mantissa num den * 2 ^ roundingBit num den : ℕ)|
        ≤ |(num : ℚ) / den - (k * 2 ^ roundingBit num den : ℕ)| ∧
    (|(num : ℚ) / den - (mantissa num den * 2 ^ roundingBit num den : ℕ)|
        = |(num : ℚ) / den - (k * 2 ^ roundingBit num den : ℕ)| → Even (mantissa num den)) := by
  have hweight : (0 : ℚ) < 2 ^ roundingBit num den := by positivity
  have hdiv : 0 < den * 2 ^ roundingBit num den := Nat.mul_pos hden (Nat.two_pow_pos _)
  -- distances are measured in the weight of the bit
  have hscale : ∀ n : ℕ, |(num : ℚ) / den - (n * 2 ^ roundingBit num den : ℕ)|
      = |(num : ℚ) / (den * 2 ^ roundingBit num den : ℕ) - n| * 2 ^ roundingBit num den := by
    intro n
    have hden' : (den : ℚ) ≠ 0 := by exact_mod_cast hden.ne'
    have hsub : (num : ℚ) / den - (n * 2 ^ roundingBit num den : ℕ)
        = (num / (den * 2 ^ roundingBit num den : ℕ) - n) * 2 ^ roundingBit num den := by
      push_cast
      field_simp
    rw [hsub, abs_mul, abs_of_pos hweight]
  have hhalf := abs_sub_roundDiv_le num hdiv
  have hnearest := nearest_of_half hhalf hne
  rw [hscale, hscale, mantissa]
  constructor
  · exact mul_le_mul_of_nonneg_right hnearest.1 hweight.le
  · intro heq
    exact even_roundDiv hdiv (hnearest.2 (mul_right_cancel₀ hweight.ne' heq))

/-- **No number of at most 53 bits is nearer than the rounded one**, and none is as near
unless its mantissa is even. -/
theorem nearest_kept (hden : 0 < den) {c : ℕ} (hc : 2 ^ lastBit c ∣ c)
    (hne : c ≠ mantissa num den * 2 ^ roundingBit num den) :
    |(num : ℚ) / den - (mantissa num den * 2 ^ roundingBit num den : ℕ)|
        ≤ |(num : ℚ) / den - c| ∧
    (|(num : ℚ) / den - (mantissa num den * 2 ^ roundingBit num den : ℕ)|
        = |(num : ℚ) / den - c| → Even (mantissa num den)) := by
  by_cases hdvd : 2 ^ roundingBit num den ∣ c
  · obtain ⟨k, rfl⟩ := hdvd
    rw [Nat.mul_comm (2 ^ roundingBit num den) k] at hne ⊢
    apply nearest_multiple num hden
    intro hk
    exact hne (by rw [hk])
  · -- the number ends in a smaller bit, so it lies below the power of two below the quotient
    have hbit : lastBit c < roundingBit num den := by
      by_contra hle
      exact hdvd (Nat.dvd_trans (Nat.pow_dvd_pow 2 (Nat.le_of_not_lt hle)) hc)
    have hbound := two_pow_roundingBit_le num (Nat.zero_lt_of_lt hbit)
    have hbelow : c < 2 ^ (52 + roundingBit num den) := by
      refine lt_of_lt_of_le Nat.lt_log2_self (Nat.pow_le_pow_right (by decide) ?_)
      simp only [lastBit] at hbit
      omega
    have hquotient : ((2 ^ (52 + roundingBit num den) : ℕ) : ℚ) ≤ num / den := by
      refine le_trans (by exact_mod_cast hbound : _ ≤ ((num / den : ℕ) : ℚ)) Nat.cast_div_le
    have hbelow' : (c : ℚ) < (2 ^ (52 + roundingBit num den) : ℕ) := by exact_mod_cast hbelow
    have hpower : |(num : ℚ) / den - (mantissa num den * 2 ^ roundingBit num den : ℕ)|
        ≤ |(num : ℚ) / den - (2 ^ (52 + roundingBit num den) : ℕ)| := by
      rw [Nat.pow_add]
      by_cases heq : 2 ^ 52 = mantissa num den
      · rw [heq]
      · exact (nearest_multiple num hden heq).1
    have hstrict : |(num : ℚ) / den - (2 ^ (52 + roundingBit num den) : ℕ)|
        < |(num : ℚ) / den - c| := by
      rw [abs_of_nonneg (by linarith), abs_of_nonneg (by linarith)]
      linarith
    exact ⟨(lt_of_le_of_lt hpower hstrict).le,
      fun heq => absurd heq (lt_of_le_of_lt hpower hstrict).ne⟩

end Rounded

/-! ### Magnitudes and the overflow bound -/

/-- The units of a magnitude; what overflows counts as the overflow bound. -/
def reach : Option Magnitude → ℕ
  | some a => a.units
  | none => overflowUnits

/-- The rational number where a magnitude stands; what overflows stands at the overflow
bound. -/
def place (m : Option Magnitude) : ℚ := reach m / 2 ^ unitBits

theorem two_pow_lastBit_dvd_reach (m : Option Magnitude) : 2 ^ lastBit (reach m) ∣ reach m := by
  cases m with
  | some a => exact a.representable.2
  | none =>
    refine Nat.pow_dvd_pow 2 ?_
    rw [lastBit, reach, overflowUnits, Nat.log2_two_pow]
    exact Nat.sub_le _ _

theorem reach_le (m : Option Magnitude) : reach m ≤ overflowUnits := by
  cases m with
  | some a => exact a.representable.1.le
  | none => exact le_refl _

theorem reach_injective : Function.Injective reach := by
  intro m m' h
  cases m with
  | some a =>
    cases m' with
    | some b => exact congrArg some (Magnitude.ext h)
    | none => exact absurd h a.representable.1.ne
  | none =>
    cases m' with
    | some b => exact absurd h.symm b.representable.1.ne
    | none => rfl

theorem even_significand_overflowUnits : Even (significand overflowUnits) :=
  even_significand_two_pow (by decide)

end Magnitude

open Magnitude

/-- The magnitude is the one nearest to a rational number.  Of two that are equally near it is
the one with the even significand. -/
structure IsNearest (q : ℚ) (m : Option Magnitude) : Prop where
  /-- No other magnitude is nearer. -/
  closest : ∀ m', |q - place m| ≤ |q - place m'|
  /-- If another one is as near, the significand is even. -/
  even : ∀ m', m' ≠ m → |q - place m| = |q - place m'| → Even (significand (reach m))

namespace IsNearest

variable {q : ℚ} {m m' : Option Magnitude}

/-- Two numbers of units with even significands are no neighbours. -/
theorem exists_between (hm : Even (significand (reach m))) (hm' : Even (significand (reach m')))
    (hlt : reach m < reach m') : ∃ c, reach m < reach c ∧ reach c < reach m' := by
  have hunits := significand_mul (two_pow_lastBit_dvd_reach m)
  have hodd : ¬ Even (significand (reach m) + 1) := by
    rw [Nat.even_add_one, not_not]
    exact hm
  have hsmall : significand (reach m) + 1 < 2 ^ 53 := by
    have hbound := significand_lt (reach m)
    rw [Nat.even_iff] at hm
    omega
  have hfull : lastBit (reach m) = 0 ∨ 2 ^ 52 ≤ significand (reach m) + 1 :=
    (lastBit_eq_zero_or (reach m)).imp_right fun h => Nat.le_succ_of_le h
  -- the next number of as many bits is odd, so it is not the other one
  have hne : (significand (reach m) + 1) * 2 ^ lastBit (reach m) ≠ reach m' := by
    intro heq
    rw [← heq, significand_mul_two_pow hsmall hfull] at hm'
    exact hodd hm'
  have hgt : reach m < (significand (reach m) + 1) * 2 ^ lastBit (reach m) := by
    rw [Nat.succ_mul, hunits]
    exact Nat.lt_add_of_pos_right (Nat.two_pow_pos _)
  have hle : (significand (reach m) + 1) * 2 ^ lastBit (reach m) ≤ reach m' := by
    obtain ⟨k, hk⟩ := Nat.dvd_trans (Nat.pow_dvd_pow 2 (lastBit_mono hlt.le))
      (two_pow_lastBit_dvd_reach m')
    have hlt' : significand (reach m) * 2 ^ lastBit (reach m) < k * 2 ^ lastBit (reach m) := by
      rw [hunits, Nat.mul_comm, ← hk]
      exact hlt
    rw [hk, Nat.mul_comm _ k]
    exact Nat.mul_le_mul_right _ (Nat.lt_of_mul_lt_mul_right hlt')
  have hrepresentable : Representable ((significand (reach m) + 1) * 2 ^ lastBit (reach m)) :=
    representable_mul_two_pow hsmall.le
      (lt_of_lt_of_le (lt_of_le_of_ne hle hne) (reach_le m'))
  exact ⟨some ⟨_, hrepresentable⟩, hgt, lt_of_le_of_ne hle hne⟩

theorem place_lt_place (h : reach m < reach m') : place m < place m' := by
  have hpos : (0 : ℚ) < 2 ^ unitBits := by positivity
  rw [place, place]
  gcongr

theorem not_reach_lt (h : IsNearest q m) (h' : IsNearest q m') : ¬ reach m < reach m' := by
  intro hlt
  have hne : m ≠ m' := by
    rintro rfl
    exact lt_irrefl _ hlt
  have heq : |q - place m| = |q - place m'| := le_antisymm (h.closest m') (h'.closest m)
  obtain ⟨c, hmc, hcm'⟩ :=
    exists_between (h.even m' hne.symm heq) (h'.even m hne heq.symm) hlt
  have hplace := place_lt_place hmc
  have hplace' := place_lt_place hcm'
  -- the rational number is halfway between the two, and what lies between them is nearer
  have hhalf : q - place m = place m' - q := by
    rcases abs_eq_abs.1 heq with hsame | hopposite
    · linarith
    · linarith
  have hnear : |q - place c| < |q - place m| := by
    rw [abs_of_pos (by linarith : 0 < q - place m), abs_lt]
    constructor
    · linarith
    · linarith
  exact absurd (h.closest c) (not_le.2 hnear)

/-- **There is only one nearest magnitude.**  Two that are equally near would be neighbours and
have even significands, which neighbours do not. -/
theorem unique (h : IsNearest q m) (h' : IsNearest q m') : m = m' := by
  apply reach_injective
  exact le_antisymm (not_lt.1 (h'.not_reach_lt h)) (not_lt.1 (h.not_reach_lt h'))

end IsNearest

/-! ### What rounding finds -/

namespace Magnitude

/-- Distances among places are distances in units. -/
theorem abs_sub_place (u : ℚ) (m : Option Magnitude) :
    |u / 2 ^ unitBits - place m| = |u - reach m| / 2 ^ unitBits := by
  have hpos : (0 : ℚ) < 2 ^ unitBits := by positivity
  rw [place, ← sub_div, abs_div, abs_of_pos hpos]

/-- What is nearest in units is nearest. -/
theorem isNearest_of_units {u : ℚ} {m : Option Magnitude}
    (closest : ∀ m', |u - reach m| ≤ |u - reach m'|)
    (even : ∀ m', m' ≠ m → |u - reach m| = |u - reach m'| → Even (significand (reach m))) :
    IsNearest (u / 2 ^ unitBits) m := by
  have hpos : (0 : ℚ) < 2 ^ unitBits := by positivity
  constructor
  · intro m'
    rw [abs_sub_place, abs_sub_place]
    exact div_le_div_of_nonneg_right (closest m') hpos.le
  · intro m' hne heq
    rw [abs_sub_place, abs_sub_place] at heq
    exact even m' hne ((div_left_inj' hpos.ne').1 heq)

/-- What lies past the overflow bound overflows. -/
theorem isNearest_none {u : ℚ} (h : overflowUnits ≤ u) : IsNearest (u / 2 ^ unitBits) none := by
  refine isNearest_of_units (fun m => ?_) fun _ _ _ => even_significand_overflowUnits
  have hm : (reach m : ℚ) ≤ overflowUnits := by exact_mod_cast reach_le m
  show |u - overflowUnits| ≤ |u - reach m|
  rw [abs_of_nonneg (by linarith), abs_of_nonneg (by linarith)]
  linarith

/-- What lies below half a unit vanishes. -/
theorem isNearest_zero {u : ℚ} (hnonneg : 0 ≤ u) (h : 2 * u < 1) :
    IsNearest (u / 2 ^ unitBits) (some zero) := by
  have hreach : reach (some zero) = 0 := rfl
  refine isNearest_of_units (fun m => ?_) fun _ _ _ => ?_
  · rw [hreach, Nat.cast_zero, sub_zero, abs_of_nonneg hnonneg]
    rcases Nat.eq_zero_or_pos (reach m) with hzero | hpos
    · rw [hzero, Nat.cast_zero, sub_zero, abs_of_nonneg hnonneg]
    · have hone : (1 : ℚ) ≤ reach m := by exact_mod_cast hpos
      rw [abs_of_neg (by linarith)]
      linarith
  · rw [hreach]
    decide

/-- **Rounding a quotient finds the nearest magnitude.**  The quotient is rounded once, to a whole
number of the units that its leading bit leaves room for; an infinite magnitude stands where the
next number after the largest one would be. -/
theorem isNearest_round? (num : ℕ) {den : ℕ} (hden : 0 < den) :
    IsNearest (num / den / 2 ^ unitBits) (round? num den) := by
  have hclosest : ∀ m : Option Magnitude,
      |(num : ℚ) / den - (mantissa num den * 2 ^ roundingBit num den : ℕ)|
        ≤ |(num : ℚ) / den - reach m| := by
    intro m
    by_cases hm : reach m = mantissa num den * 2 ^ roundingBit num den
    · rw [hm]
    · exact (nearest_kept num hden (two_pow_lastBit_dvd_reach m) hm).1
  by_cases hfinite : mantissa num den * 2 ^ roundingBit num den < overflowUnits
  · rw [round?, dif_pos hfinite]
    apply isNearest_of_units
    · exact hclosest
    · intro m hm heq
      have hne : reach m ≠ mantissa num den * 2 ^ roundingBit num den := by
        intro hreach
        exact hm (reach_injective hreach)
      have heven := (nearest_kept num hden (two_pow_lastBit_dvd_reach m) hne).2 heq
      exact even_significand (mantissa_le num den) (roundingBit_eq_zero_or num den) heven
  · rw [round?, dif_neg hfinite]
    rcases Nat.lt_or_eq_of_le (not_lt.1 hfinite) with hpast | hbound
    · -- a quotient that is rounded past the bound lies past it
      apply isNearest_none
      have hpast' : (overflowUnits : ℚ) < (mantissa num den * 2 ^ roundingBit num den : ℕ) := by
        exact_mod_cast hpast
      by_contra hlt
      rw [not_le] at hlt
      have hnone : |(num : ℚ) / den - (mantissa num den * 2 ^ roundingBit num den : ℕ)|
          ≤ |(num : ℚ) / den - overflowUnits| := hclosest none
      rw [abs_of_neg (by linarith), abs_of_neg (by linarith)] at hnone
      linarith
    · refine isNearest_of_units (fun m => ?_) fun _ _ _ => even_significand_overflowUnits
      show |(num : ℚ) / den - overflowUnits| ≤ |(num : ℚ) / den - reach m|
      rw [hbound]
      exact hclosest m

end Magnitude

namespace Decimal

theorem round?_units (d : Decimal) :
    ((d.digits * 10 ^ d.exponent.toNat * unitsPerOne : ℕ) : ℚ) / (10 ^ (-d.exponent).toNat : ℕ)
      / 2 ^ unitBits = d.value := by
  rw [value, ten_zpow_eq, unitsPerOne]
  push_cast
  field_simp

/-- **Reading a decimal finds the nearest magnitude**, however large its exponent is. -/
theorem isNearest_nearest? (d : Decimal) : IsNearest d.value d.nearest? := by
  have hpos : (0 : ℚ) < 2 ^ unitBits := by positivity
  have hunits : d.value = d.value * 2 ^ unitBits / 2 ^ unitBits :=
    (mul_div_cancel_right₀ _ hpos.ne').symm
  unfold nearest?
  split
  · next hzero =>
    rw [value_eq_zero_iff.2 hzero, ← zero_div]
    exact isNearest_zero le_rfl (by norm_num)
  · next hdigits =>
    have hbounds := value_bounds hdigits
    split
    · next hlarge =>
      -- the first digit alone puts the decimal past the largest magnitude
      rw [hunits]
      apply isNearest_none
      have hvalue : (10 : ℚ) ^ 309 ≤ d.value := by
        refine le_trans ?_ hbounds.1
        rw [← zpow_natCast]
        exact zpow_le_zpow_right₀ (by norm_num) (by omega)
      calc (overflowUnits : ℚ) ≤ 10 ^ 309 * 2 ^ unitBits := by exact_mod_cast overflowUnits_le
        _ ≤ d.value * 2 ^ unitBits := mul_le_mul_of_nonneg_right hvalue hpos.le
    · split
      · next hsmall =>
        -- the decimal is less than half of a unit
        rw [hunits]
        have hnonneg : 0 ≤ d.value := by
          rw [value]
          positivity
        have hvalue : d.value < 10 ^ (-331 : ℤ) := by
          refine lt_of_lt_of_le hbounds.2 ?_
          exact zpow_le_zpow_right₀ (by norm_num) (by omega)
        have hunit : (2 : ℚ) ^ unitBits < 10 ^ (330 : ℤ) := by
          exact_mod_cast two_pow_unitBits_lt
        apply isNearest_zero (mul_nonneg hnonneg hpos.le)
        calc 2 * (d.value * 2 ^ unitBits)
            ≤ 2 * (10 ^ (-331 : ℤ) * 10 ^ (330 : ℤ)) := by gcongr
          _ < 1 := by
            rw [← zpow_add₀ (by norm_num)]
            norm_num
      · -- in between the quotient is rounded
        rw [← d.round?_units]
        exact isNearest_round? _ (Nat.pow_pos (by decide))

end Decimal

end Lamlet
