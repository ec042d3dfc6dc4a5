import JCalc.Binary64.Magnitude
import Mathlib.Data.Rat.Cast.Order
import Mathlib.Algebra.Order.Field.Power
import Mathlib.Tactic.FieldSimp
import Mathlib.Tactic.Linarith
import Mathlib.Tactic.NormNum
import Mathlib.Tactic.Positivity
import Mathlib.Tactic.Ring

/-! What it is to round to a magnitude: to lie between the midpoints to its two
neighbours, ends included when its pattern is even, and without an upper end for
infinity. Every number of units rounds to one magnitude only, and it is the one that
`nearest` and, for the units of a decimal, `ofDecimal` give. -/

namespace JCalc

theorem twoPow_eq (k : Nat) : twoPow k = 2 ^ k := Nat.one_shiftLeft k

theorem tenPow_eq (k : Nat) : tenPow k = 10 ^ k := rfl

theorem binade_eq : binade = 2 ^ 52 := rfl

/-- The pattern with significand `k` and the exponent `s` above the least. -/
theorem unitsOf_mul_add {s k : Nat} (hk : k ≤ 2 * binade) (hs : s = 0 ∨ binade ≤ k) :
    Magnitude.unitsOf (s * binade + k) = k * 2 ^ s := by
  have hb : 0 < binade := by decide
  unfold Magnitude.unitsOf
  rw [twoPow_eq]
  by_cases hlt : k < binade
  · obtain rfl : s = 0 := by omega
    simp [hlt]
  · rw [if_neg (by have := Nat.zero_le (s * binade); omega)]
    by_cases htop : k = 2 * binade
    · have hcode : s * binade + k = (s + 2) * binade := by rw [htop, ← Nat.add_mul]
      rw [hcode, Nat.mul_mod_left, Nat.mul_div_cancel _ hb, htop, show s + 2 - 1 = s + 1 by omega,
        Nat.pow_succ]
      ring
    · have hcode : s * binade + k = (k - binade) + (s + 1) * binade := by
        rw [Nat.add_mul, Nat.one_mul]
        omega
      rw [hcode, Nat.add_mul_mod_self_right, Nat.add_mul_div_right _ _ hb,
        Nat.mod_eq_of_lt (by omega), Nat.div_eq_of_lt (by omega), show 0 + (s + 1) - 1 = s by omega,
        show binade + (k - binade) = k by omega]

theorem exists_significand (c : Nat) :
    ∃ s k, c = s * binade + k ∧ k < 2 * binade ∧ (s = 0 ∨ binade ≤ k) := by
  have hb : 0 < binade := by decide
  refine ⟨c / binade - 1, c - (c / binade - 1) * binade, ?_⟩
  have hdiv := Nat.div_add_mod c binade
  have hmod := Nat.mod_lt c hb
  rw [Nat.mul_comm] at hdiv
  cases hq : c / binade with
  | zero =>
    rw [hq, Nat.zero_mul, Nat.zero_add] at hdiv
    exact ⟨by simp, by omega, .inl rfl⟩
  | succ q =>
    rw [hq, Nat.add_mul, Nat.one_mul] at hdiv
    simp only [Nat.add_sub_cancel]
    omega

theorem unitsOf_lt_succ (c : Nat) : Magnitude.unitsOf c < Magnitude.unitsOf (c + 1) := by
  obtain ⟨s, k, rfl, hk, hs⟩ := exists_significand c
  rw [unitsOf_mul_add (by omega) hs, Nat.add_assoc, unitsOf_mul_add (by omega) (by omega)]
  exact Nat.mul_lt_mul_of_pos_right (Nat.lt_succ_self k) (Nat.pow_pos (by decide))

theorem unitsOf_strictMono : StrictMono Magnitude.unitsOf := strictMono_nat_of_lt_succ unitsOf_lt_succ

/-- The midpoint to the next smaller pattern, in half units. -/
def lowerMid (c : Nat) : Nat := Magnitude.unitsOf (c - 1) + Magnitude.unitsOf c

def upperMid (c : Nat) : Nat := Magnitude.unitsOf c + Magnitude.unitsOf (c + 1)

/-- The number of half units lies beyond the midpoint, or on it and the pattern is even. -/
def Reaches (c : Nat) (h : ℚ) : Prop := (lowerMid c : ℚ) < h ∨ c % 2 = 0 ∧ (lowerMid c : ℚ) = h

def Stays (c : Nat) (h : ℚ) : Prop := h < (upperMid c : ℚ) ∨ c % 2 = 0 ∧ h = (upperMid c : ℚ)

/-- The number of units rounds to the magnitude. -/
structure Magnitude.Rounds (m : Magnitude) (u : ℚ) : Prop where
  reaches : Reaches m.code (2 * u)
  stays : m.isInfinite = false → Stays m.code (2 * u)

theorem reaches_div {c point scale : Nat} (hs : 0 < scale) :
    Reaches c ((point : ℚ) / scale) ↔
      lowerMid c * scale < point ∨ c % 2 = 0 ∧ lowerMid c * scale = point := by
  have hpos : (0 : ℚ) < scale := by exact_mod_cast hs
  rw [Reaches, lt_div_iff₀ hpos, eq_div_iff hpos.ne']
  norm_cast

theorem stays_div {c point scale : Nat} (hs : 0 < scale) :
    Stays c ((point : ℚ) / scale) ↔
      point < upperMid c * scale ∨ c % 2 = 0 ∧ point = upperMid c * scale := by
  have hpos : (0 : ℚ) < scale := by exact_mod_cast hs
  rw [Stays, div_lt_iff₀ hpos, div_eq_iff hpos.ne']
  norm_cast

/-- Between one pattern and a larger one that is reached there is no room. -/
theorem not_reaches_of_stays {a b : Nat} {h : ℚ} (hab : a < b) (hs : Stays a h) :
    ¬ Reaches b h := by
  intro hr
  have hb : b = b - 1 + 1 := by omega
  have hle : upperMid a ≤ lowerMid b :=
    Nat.add_le_add (unitsOf_strictMono.monotone (by omega)) (unitsOf_strictMono.monotone (by omega))
  have hcast : (upperMid a : ℚ) ≤ lowerMid b := by exact_mod_cast hle
  rcases hs with hs | ⟨ha, hs⟩
  · rcases hr with hr | ⟨_, hr⟩ <;> linarith
  · rcases hr with hr | ⟨hb, hr⟩
    · linarith
    · have hlt : upperMid a < lowerMid b :=
        Nat.add_lt_add (unitsOf_strictMono (by omega)) (unitsOf_strictMono (by omega))
      have : (upperMid a : ℚ) < lowerMid b := by exact_mod_cast hlt
      linarith

namespace Magnitude

theorem isInfinite_of_le {m n : Magnitude} (h : m.code < n.code) : m.isInfinite = false := by
  have := n.code_le
  simp only [isInfinite, beq_eq_false_iff_ne]
  omega

theorem Rounds.le {m n : Magnitude} {u : ℚ} (hm : m.Rounds u) (hn : n.Rounds u) :
    n.code ≤ m.code := by
  by_contra hlt
  have hlt : m.code < n.code := by omega
  exact not_reaches_of_stays hlt (hm.stays (isInfinite_of_le hlt)) hn.reaches

theorem Rounds.unique {m n : Magnitude} {u : ℚ} (hm : m.Rounds u) (hn : n.Rounds u) : m = n := by
  have hcode : m.code = n.code := Nat.le_antisymm (hn.le hm) (hm.le hn)
  cases m
  cases n
  simpa using hcode

end Magnitude

theorem roundHalfEven_cases (num den : Nat) :
    roundHalfEven num den = num / den ∧ 2 * (num % den) ≤ den ∧
        (2 * (num % den) = den → num / den % 2 = 0) ∨
      roundHalfEven num den = num / den + 1 ∧ den ≤ 2 * (num % den) ∧
        (2 * (num % den) = den → num / den % 2 = 1) := by
  simp only [roundHalfEven]
  split_ifs with hlow hhigh
  · exact .inl ⟨rfl, by omega, by omega⟩
  · exact .inr ⟨rfl, by omega, by omega⟩
  · rcases Nat.mod_two_eq_zero_or_one (num / den) with hpar | hpar
    · exact .inl ⟨by omega, by omega, fun _ => hpar⟩
    · exact .inr ⟨by omega, by omega, fun _ => hpar⟩

/-- The rounded quotient is half away at most, and then even. -/
theorem roundHalfEven_bounds (num : Nat) {den : Nat} (hd : 0 < den) :
    ∃ product, product = roundHalfEven num den * den ∧
      2 * product ≤ 2 * num + den ∧ 2 * num ≤ 2 * product + den ∧
      (2 * product = 2 * num + den ∨ 2 * num = 2 * product + den →
        roundHalfEven num den % 2 = 0) := by
  have hdiv := Nat.div_add_mod num den
  have hmod := Nat.mod_lt num hd
  rw [Nat.mul_comm] at hdiv
  rcases roundHalfEven_cases num den with ⟨hk, hr, hpar⟩ | ⟨hk, hr, hpar⟩
  · refine ⟨num / den * den, by rw [hk], by omega, by omega, ?_⟩
    rw [hk]
    rintro (h | h)
    · omega
    · exact hpar (by omega)
  · refine ⟨num / den * den + den, by rw [hk, Nat.add_mul, Nat.one_mul], by omega, by omega, ?_⟩
    rw [hk]
    rintro (h | h)
    · have := hpar (by omega)
      omega
    · omega

/-- Where the exponent rises the next smaller pattern is only half as far away. -/
theorem lowerMid_add {s k : Nat} (hk : k ≤ 2 * binade) (h0 : 0 < k) (hs : s = 0 ∨ binade < k) :
    lowerMid (s * binade + k) + 2 ^ s = 2 * (k * 2 ^ s) := by
  have hpred : s * binade + k - 1 = s * binade + (k - 1) := by omega
  rw [lowerMid, hpred, unitsOf_mul_add (by omega) (by omega), unitsOf_mul_add hk (by omega)]
  obtain ⟨j, rfl⟩ : ∃ j, k = j + 1 := ⟨k - 1, by omega⟩
  rw [Nat.add_sub_cancel]
  ring

theorem le_upperMid {s k : Nat} (hk : k ≤ 2 * binade) (hs : s = 0 ∨ binade ≤ k) :
    2 * (k * 2 ^ s) + 2 ^ s ≤ upperMid (s * binade + k) := by
  have hb : 0 < binade := by decide
  rw [upperMid, unitsOf_mul_add hk hs]
  by_cases htop : k = 2 * binade
  · have hcode : s * binade + k + 1 = (s + 1) * binade + (binade + 1) := by
      rw [Nat.add_mul]
      omega
    rw [hcode, unitsOf_mul_add (by omega) (by omega), htop, Nat.pow_succ]
    have hring : (binade + 1) * (2 ^ s * 2) = 2 * binade * 2 ^ s + 2 * 2 ^ s := by ring
    have := Nat.zero_le (2 ^ s)
    omega
  · rw [Nat.add_assoc, unitsOf_mul_add (by omega) (by omega), Nat.add_mul]
    omega

section

variable {num den s k : Nat}

theorem significand_bounds (num den : Nat) :
    let s := (num / den).log2 - 52
    num / den < 2 * binade * 2 ^ s ∧ (s = 0 ∨ binade * 2 ^ s ≤ num / den) := by
  have hlt : num / den < 2 ^ ((num / den).log2 + 1) := Nat.lt_log2_self
  intro s
  constructor
  · calc num / den < 2 ^ ((num / den).log2 + 1) := hlt
      _ ≤ 2 ^ (53 + s) := Nat.pow_le_pow_right (by decide) (by omega)
      _ = 2 * binade * 2 ^ s := by rw [binade_eq, Nat.pow_add]; rfl
  · by_cases h0 : s = 0
    · exact .inl h0
    · right
      have hq : num / den ≠ 0 := by
        rintro hq
        simp [s, hq] at h0
      calc binade * 2 ^ s = 2 ^ (52 + s) := by rw [binade_eq, Nat.pow_add]
        _ = 2 ^ (num / den).log2 := by rw [show 52 + s = (num / den).log2 by omega]
        _ ≤ num / den := Nat.log2_self_le hq

theorem code_mod_two (s k : Nat) : (s * binade + k) % 2 = k % 2 := by
  rw [binade]
  omega

theorem reaches_significand (hd : 0 < den) (hk : k ≤ 2 * binade) (hs : s = 0 ∨ binade ≤ k)
    (hlow : s = 0 ∨ binade * 2 ^ s * den ≤ num)
    (hle : 2 * (k * 2 ^ s * den) ≤ 2 * num + 2 ^ s * den)
    (heven : 2 * (k * 2 ^ s * den) = 2 * num + 2 ^ s * den → k % 2 = 0) :
    Reaches (s * binade + k) ((2 * num : Nat) / den) := by
  rw [reaches_div hd, code_mod_two]
  by_cases h0 : k = 0
  · have hz : s = 0 := by
      have hb : 0 < binade := by decide
      omega
    subst h0 hz
    have hmid : lowerMid (0 * binade + 0) = 0 := rfl
    rw [hmid]
    omega
  by_cases hrise : s = 0 ∨ binade < k
  · have hmid := congrArg (· * den) (lowerMid_add hk (by omega) hrise)
    simp only [Nat.add_mul, Nat.mul_assoc] at hmid hle heven ⊢
    omega
  · left
    obtain rfl : k = binade := by omega
    have hlt : lowerMid (s * binade + binade) < 2 * (binade * 2 ^ s) := by
      have hb : 0 < binade := by decide
      have := unitsOf_strictMono (show s * binade + binade - 1 < s * binade + binade by omega)
      have := unitsOf_mul_add (s := s) (k := binade) (by omega) (by omega)
      rw [lowerMid]
      omega
    have := Nat.mul_lt_mul_of_pos_right hlt hd
    rw [Nat.mul_assoc] at this
    omega

theorem stays_significand (hd : 0 < den) (hk : k ≤ 2 * binade) (hs : s = 0 ∨ binade ≤ k)
    (hle : 2 * num ≤ 2 * (k * 2 ^ s * den) + 2 ^ s * den)
    (heven : 2 * num = 2 * (k * 2 ^ s * den) + 2 ^ s * den → k % 2 = 0) :
    Stays (s * binade + k) ((2 * num : Nat) / den) := by
  rw [stays_div hd, code_mod_two]
  have hmid := Nat.mul_le_mul_right den (le_upperMid hk hs)
  simp only [Nat.add_mul, Nat.mul_assoc] at hmid hle heven ⊢
  omega

theorem reaches_top {c : Nat} {h : ℚ} (hc : topCode ≤ c) (hr : Reaches c h) :
    Reaches topCode h := by
  rcases Nat.eq_or_lt_of_le hc with rfl | hlt
  · exact hr
  · left
    have hpos : 0 < topCode := by decide
    have hprev := unitsOf_strictMono (by omega : topCode - 1 < c - 1)
    have hmid : lowerMid topCode < lowerMid c := by
      have := unitsOf_strictMono hlt
      rw [lowerMid, lowerMid]
      omega
    have hmid : (lowerMid topCode : ℚ) < lowerMid c := by exact_mod_cast hmid
    rcases hr with hr | ⟨_, hr⟩ <;> linarith

theorem Magnitude.nearest_rounds (num : Nat) {den : Nat} (hd : 0 < den) :
    (nearest num den).Rounds ((num : ℚ) / den) := by
  obtain ⟨hlt, hge⟩ := significand_bounds num den
  generalize hs : (num / den).log2 - 52 = s at hlt hge
  have hD : 0 < den * twoPow s := Nat.mul_pos hd (by rw [twoPow_eq]; exact Nat.two_pow_pos s)
  obtain ⟨product, hproduct, hlow, hhigh, heven⟩ := roundHalfEven_bounds num hD
  have hcases := roundHalfEven_cases num (den * twoPow s)
  generalize hk : roundHalfEven num (den * twoPow s) = k at hproduct heven hcases
  have hquot : num / (den * twoPow s) = num / den / 2 ^ s := by rw [twoPow_eq, Nat.div_div_eq_div_mul]
  have hpow : 0 < 2 ^ s := Nat.pow_pos (by decide)
  have hle : k ≤ 2 * binade := by
    have := (Nat.div_lt_iff_lt_mul hpow).mpr hlt
    omega
  have hfull : s = 0 ∨ binade ≤ k := by
    refine hge.imp_right fun h => ?_
    have := (Nat.le_div_iff_mul_le hpow).mpr h
    omega
  have hcode : (nearest num den).code = min (s * binade + k) topCode := by
    simp only [nearest, hs, hk]
  have htwo : (2 : ℚ) * ((num : ℚ) / den) = ((2 * num : Nat) : ℚ) / den := by
    push_cast
    ring
  have hprod : product = k * 2 ^ s * den := by
    rw [hproduct, twoPow_eq]
    ring
  have hcomm : den * twoPow s = 2 ^ s * den := by rw [twoPow_eq, Nat.mul_comm]
  rw [hprod, hcomm] at hlow hhigh heven
  have hreach : Reaches (s * binade + k) ((2 * num : Nat) / den) := by
    refine reaches_significand hd hle hfull (hge.imp_right fun h => ?_) hlow fun h => heven (.inl h)
    exact (Nat.le_div_iff_mul_le hd).mp h
  constructor
  · rw [hcode, htwo]
    rcases Nat.le_total topCode (s * binade + k) with h | h
    · rw [Nat.min_eq_right h]
      exact reaches_top h hreach
    · rw [Nat.min_eq_left h]
      exact hreach
  · intro hfin
    have hne : (nearest num den).code ≠ topCode := by simpa [isInfinite] using hfin
    rw [hcode] at hne ⊢
    rcases Nat.le_total topCode (s * binade + k) with h | h
    · exact absurd (Nat.min_eq_right h) hne
    rw [htwo, Nat.min_eq_left h]
    exact stays_significand hd hle hfull hhigh fun h => heven (.inr h)

end

end JCalc
