import JCalc.Proofs.Numeral

/-! What rounds to a magnitude, said by its significand, and the grids on which the shortest decimal
is looked for. Two decimals of at most fifteen digits on one grid never round to the same normal
magnitude, since the grid is wider than the distance between magnitudes; so the shortest decimal of
a magnitude is the only one of so few digits. -/

namespace JCalc

theorem tenPow_add (a b : Nat) : tenPow (a + b) = tenPow a * tenPow b := Nat.pow_add 10 a b

theorem twoPow_add (a b : Nat) : twoPow (a + b) = twoPow a * twoPow b := by
  rw [twoPow_eq, twoPow_eq, twoPow_eq, Nat.pow_add]

theorem tenPow_lt_twoPow {k : Nat} (hk : 0 < k) : tenPow (59 * k) < twoPow (196 * k) := by
  rw [tenPow_eq, twoPow_eq, Nat.pow_mul, Nat.pow_mul]
  exact Nat.pow_lt_pow_left (by norm_num) (by omega)

namespace Magnitude

section

variable {m n : Magnitude} {u v w : ℚ}

theorem Rounds.mono (hm : m.Rounds u) (hn : n.Rounds w) (h : u ≤ w) : m.code ≤ n.code := by
  by_contra hlt
  have hlt : n.code < m.code := by omega
  have hstays : Stays n.code (2 * u) := by
    rcases hn.stays (isInfinite_of_le hlt) with hs | ⟨heven, hs⟩
    · exact .inl (by linarith)
    · rcases h.lt_or_eq with h | rfl
      · exact .inl (by linarith)
      · exact .inr ⟨heven, hs⟩
  exact not_reaches_of_stays hlt hstays hm.reaches

/-- A number not below the least power of ten of the normal range rounds to a normal magnitude. -/
theorem Rounds.normal (hm : m.Rounds (v * unitsPerOne)) (h : (tenPow 307 : ℚ)⁻¹ ≤ v) :
    binade ≤ m.code := by
  have hten : tenPow 307 * binade ≤ unitsPerOne := by
    rw [show 307 = 59 * 5 + 12 from rfl]
    calc tenPow (59 * 5 + 12) * binade = tenPow (59 * 5) * (tenPow 12 * binade) := by
          rw [tenPow_add, Nat.mul_assoc]
      _ ≤ twoPow (196 * 5) * twoPow 94 :=
          Nat.mul_le_mul (tenPow_lt_twoPow (by decide)).le (by decide)
      _ = unitsPerOne := (twoPow_add (196 * 5) 94).symm
  have hpos := cast_tenPow_pos 307
  let least : Magnitude := ⟨binade, by decide⟩
  have hleast : least.units = binade := by decide
  refine least.rounds_units.mono hm ?_
  rw [hleast]
  have hten : (tenPow 307 : ℚ) * binade ≤ unitsPerOne := by exact_mod_cast hten
  have hone : (0 : ℚ) ≤ unitsPerOne := Nat.cast_nonneg _
  calc (binade : ℚ) ≤ (tenPow 307 : ℚ)⁻¹ * unitsPerOne := (le_inv_mul_iff₀ hpos).mpr hten
    _ ≤ v * unitsPerOne := mul_le_mul_of_nonneg_right h hone

theorem Rounds.finite (hm : m.Rounds (v * unitsPerOne)) (h : v ≤ tenPow 308) :
    m.isInfinite = false := by
  let greatest : Magnitude := ⟨topCode - 1, by decide⟩
  have hgreatest : greatest.units = (2 * binade - 1) * twoPow 2045 := by
    rw [twoPow_eq]
    exact unitsOf_mul_add (s := 2045) (k := 2 * binade - 1) (by decide) (by decide)
  have hten : tenPow 308 * unitsPerOne ≤ greatest.units := by
    rw [show 308 = 59 * 5 + 13 from rfl, unitsPerOne]
    calc tenPow (59 * 5 + 13) * twoPow 1074 = tenPow (59 * 5) * (tenPow 13 * twoPow 1074) := by
          rw [tenPow_add, Nat.mul_assoc]
      _ ≤ twoPow (196 * 5) * (tenPow 13 * twoPow 1074) :=
          Nat.mul_le_mul_right _ (tenPow_lt_twoPow (by decide)).le
      _ = tenPow 13 * twoPow 9 * twoPow 2045 := by
          rw [Nat.mul_left_comm, ← twoPow_add, Nat.mul_assoc, ← twoPow_add]
      _ ≤ (2 * binade - 1) * twoPow 2045 := Nat.mul_le_mul_right _ (by decide)
      _ = greatest.units := hgreatest.symm
  have hle : v * unitsPerOne ≤ greatest.units := by
    have hten : (tenPow 308 : ℚ) * unitsPerOne ≤ greatest.units := by exact_mod_cast hten
    exact (mul_le_mul_of_nonneg_right h (Nat.cast_nonneg _)).trans hten
  have hcode := hm.mono greatest.rounds_units hle
  have hlt : greatest.code < topCode := by decide
  simp only [isInfinite, beq_eq_false_iff_ne]
  omega

/-- A normal magnitude by its significand and exponent. -/
theorem exists_normal (h : binade ≤ m.code) :
    ∃ s k, m.code = s * binade + k ∧ binade ≤ k ∧ k < 2 * binade := by
  obtain ⟨s, k, hcode, hk, hs⟩ := exists_significand m.code
  refine ⟨s, k, hcode, ?_, hk⟩
  rcases hs with rfl | hs
  · omega
  · exact hs

/-- A magnitude that is no zero by its significand and exponent. -/
theorem exists_nonzero (h0 : m.isZero = false) : ∃ s k, m.code = s * binade + k ∧
    m.units = k * 2 ^ s ∧ 0 < k ∧ k < 2 * binade ∧ (s = 0 ∨ binade ≤ k) := by
  obtain ⟨s, k, hcode, hk, hs⟩ := exists_significand m.code
  have hne : m.code ≠ 0 := by simpa [isZero] using h0
  refine ⟨s, k, hcode, ?_, ?_, hk, hs⟩
  · rw [units, hcode, unitsOf_mul_add hk.le hs]
  · have hbinade : 0 < binade := by decide
    by_contra hk0
    obtain ⟨rfl, rfl⟩ : k = 0 ∧ s = 0 := by omega
    exact hne (by simpa using hcode)

theorem units_pos (h0 : m.isZero = false) : 0 < m.units := by
  obtain ⟨s, k, _, hunits, hpos, _⟩ := exists_nonzero h0
  rw [hunits]
  exact Nat.mul_pos hpos (Nat.two_pow_pos s)

/-- Where the exponent rises the midpoint below is only a quarter of a step away. -/
theorem lowerMid_rise (s : Nat) :
    lowerMid ((s + 1) * binade + binade) + 2 ^ s = 2 * (binade * 2 ^ (s + 1)) := by
  have hpos : 0 < binade := by decide
  have hpred : (s + 1) * binade + binade - 1 = s * binade + (2 * binade - 1) := by
    rw [Nat.add_mul]
    omega
  have hhalf : (2 * binade - 1) * 2 ^ s + 2 ^ s = binade * 2 ^ (s + 1) := by
    rw [← Nat.succ_mul, show (2 * binade - 1).succ = binade * 2 from rfl, Nat.pow_succ']
    ring
  rw [lowerMid, hpred, unitsOf_mul_add (by omega) (.inr (by decide)),
    unitsOf_mul_add (by omega) (.inr le_rfl)]
  omega

theorem le_lowerMid {s k : Nat} (hs : s = 0 ∨ binade ≤ k) (hk : k < 2 * binade) :
    2 * (k * 2 ^ s) ≤ lowerMid (s * binade + k) + 2 ^ s := by
  by_cases h0 : k = 0
  · rw [h0, Nat.zero_mul, Nat.mul_zero]
    exact Nat.zero_le _
  by_cases hrise : s = 0 ∨ binade < k
  · exact (lowerMid_add (by omega) (by omega) hrise).ge
  · obtain ⟨j, rfl⟩ : ∃ j, s = j + 1 := ⟨s - 1, by omega⟩
    obtain rfl : k = binade := by omega
    rw [← lowerMid_rise j]
    exact Nat.add_le_add_left (Nat.pow_le_pow_right (by decide) (Nat.le_succ j)) _

theorem upperMid_eq {s k : Nat} (hs : s = 0 ∨ binade ≤ k) (hk : k < 2 * binade) :
    upperMid (s * binade + k) = 2 * (k * 2 ^ s) + 2 ^ s := by
  rw [upperMid, Nat.add_assoc, unitsOf_mul_add (by omega) hs,
    unitsOf_mul_add (by omega) (by omega)]
  ring

theorem Rounds.mids (hr : m.Rounds u) (hfin : m.isInfinite = false) :
    (lowerMid m.code : ℚ) ≤ 2 * u ∧ 2 * u ≤ (upperMid m.code : ℚ) := by
  constructor
  · rcases hr.reaches with h | ⟨_, h⟩
    · exact h.le
    · exact h.le
  · rcases hr.stays hfin with h | ⟨_, h⟩
    · exact h.le
    · exact h.le

/-- What rounds to a magnitude is at most half a step of its significand away. -/
theorem Rounds.within {s k : Nat} (hr : m.Rounds u) (hfin : m.isInfinite = false)
    (hcode : m.code = s * binade + k) (hs : s = 0 ∨ binade ≤ k) (hk : k < 2 * binade) :
    (2 * k - 1 : ℚ) * 2 ^ s ≤ 2 * u ∧ 2 * u ≤ (2 * k + 1) * 2 ^ s := by
  obtain ⟨hlow, hup⟩ := hr.mids hfin
  have hmid : (2 * (k * 2 ^ s) : ℚ) ≤ lowerMid m.code + 2 ^ s := by
    rw [hcode]
    exact_mod_cast le_lowerMid hs hk
  have hmid' : (upperMid m.code : ℚ) = 2 * (k * 2 ^ s) + 2 ^ s := by
    rw [hcode, upperMid_eq hs hk]
    push_cast
    ring
  constructor
  · linarith
  · linarith

end

section

variable {m : Magnitude} {c c' : Nat} {e : Int}

theorem units_mk (c : Nat) (e : Int) :
    (Decimal.mk c e).units = c * ((10 : ℚ) ^ e * unitsPerOne) := by
  rw [Decimal.units, Decimal.value, mul_assoc]

theorem grid_pos (e : Int) : (0 : ℚ) < (10 : ℚ) ^ e * unitsPerOne :=
  mul_pos (zpow_pos (by norm_num) e) cast_unitsPerOne_pos

/-- Points of one grid with at most fifteen digits round to different normal magnitudes. -/
theorem coefficient_unique (hnormal : binade ≤ m.code) (hfin : m.isInfinite = false)
    (hc : c < 10 ^ 15) (hr : m.Rounds (Decimal.mk c e).units)
    (hr' : m.Rounds (Decimal.mk c' e).units) : c = c' := by
  obtain ⟨s, k, hcode, hb, hk⟩ := exists_normal hnormal
  obtain ⟨hlow, hup⟩ := hr.within hfin hcode (.inr hb) hk
  obtain ⟨hlow', hup'⟩ := hr'.within hfin hcode (.inr hb) hk
  rw [units_mk] at hlow hup hlow' hup'
  have hgrid := grid_pos e
  generalize (10 : ℚ) ^ e * unitsPerOne = g at *
  have hstep : (0 : ℚ) < 2 ^ s := by positivity
  by_contra hne
  -- two points of the grid in one interval would make the grid no wider than the interval
  have hnarrow : g ≤ 2 ^ s := by
    rcases Nat.lt_or_gt_of_ne hne with hlt | hlt
    · have hcast : (c : ℚ) + 1 ≤ c' := by exact_mod_cast hlt
      nlinarith
    · have hcast : (c' : ℚ) + 1 ≤ c := by exact_mod_cast hlt
      nlinarith
  have hlarge : (2 * k - 1 : ℚ) ≤ 2 * c := by
    have hle : (2 * k - 1 : ℚ) * 2 ^ s ≤ 2 * c * 2 ^ s :=
      hlow.trans (by nlinarith [(Nat.cast_nonneg c : (0 : ℚ) ≤ c)])
    exact le_of_mul_le_mul_right hle hstep
  have hlarge : 2 * k ≤ 2 * c + 1 := by
    have : (2 * k : ℚ) ≤ 2 * c + 1 := by linarith
    exact_mod_cast this
  have hbinade : 10 ^ 15 < binade := by decide
  omega

theorem holds_of_rounds {point scale : Nat} (hs : 0 < scale) (hfin : m.isInfinite = false) {u : ℚ}
    (hu : 2 * u = point / scale) (h : m.Rounds u) : m.holds point scale = true := by
  obtain ⟨hreach, hstay⟩ := h
  have hstay := hstay hfin
  rw [hu, reaches_div hs] at hreach
  rw [hu, stays_div hs] at hstay
  exact holds_iff.mpr ⟨hreach, hstay⟩

theorem holds_units {scale : Nat} (hs : 0 < scale) (hfin : m.isInfinite = false) :
    m.holds (2 * m.units * scale) scale = true := by
  refine holds_of_rounds hs hfin ?_ m.rounds_units
  have hpos : (scale : ℚ) ≠ 0 := by exact_mod_cast hs.ne'
  rw [Nat.cast_mul, mul_div_cancel_right₀ _ hpos, Nat.cast_mul, Nat.cast_ofNat]

theorem holds_convex {p q r scale : Nat} (hp : m.holds p scale = true) (hr : m.holds r scale = true)
    (hpq : p ≤ q) (hqr : q ≤ r) : m.holds q scale = true := by
  rw [holds_iff] at hp hr ⊢
  omega

/-- Of the two points around a magnitude the one on the side of a point that rounds to it does so,
too. -/
theorem holds_around {scale step c : Nat} (hs : 0 < scale) (hstep : 0 < step)
    (hfin : m.isInfinite = false) (h : m.holds (c * step) scale = true) :
    let below := 2 * m.units * scale / step
    (c ≤ below → m.holds (below * step) scale = true) ∧
      (below < c → m.holds ((below + 1) * step) scale = true) := by
  intro below
  have hunits := holds_units hs hfin
  constructor
  · intro hc
    exact holds_convex h hunits (Nat.mul_le_mul_right step hc) (Nat.div_mul_le_self _ _)
  · intro hc
    refine holds_convex hunits h ?_ (Nat.mul_le_mul_right step hc)
    rw [Nat.mul_comm (below + 1)]
    exact (Nat.lt_mul_div_succ _ hstep).le

theorem isSome_onGrid? (hfin : m.isInfinite = false) (h : m.Rounds (Decimal.mk c e).units) :
    (m.onGrid? e).isSome = true := by
  have hstep := step_pos e.toNat
  have hholds := holds_of_rounds (tenPow_pos _) hfin (Decimal.mk c e).two_mul_units h
  obtain ⟨hbelow, habove⟩ := holds_around (tenPow_pos _) hstep hfin hholds
  simp only [onGrid?]
  split
  · split <;> rfl
  · rfl
  · rfl
  · rename_i hb ha
    rcases Nat.lt_or_ge (2 * m.units * tenPow (-e).toNat / (2 * unitsPerOne * tenPow e.toNat)) c
      with hc | hc
    · rw [habove hc] at ha
      cases ha
    · rw [hbelow hc] at hb
      cases hb

/-- A search through the first numbers ends at the first hit, or before a given one. -/
theorem findSome?_range {α : Type} {f : Nat → Option α} {n i : Nat} (hi : i < n)
    (h : (f i).isSome = true) :
    ∃ j a, j ≤ i ∧ f j = some a ∧ (List.range n).findSome? f = some a := by
  induction n with
  | zero => omega
  | succ n ih =>
    rw [List.range_succ, List.findSome?_append]
    rcases Nat.lt_succ_iff_lt_or_eq.mp hi with hlt | rfl
    · obtain ⟨j, a, hj, ha, hfind⟩ := ih hlt
      exact ⟨j, a, hj, ha, by rw [hfind]; rfl⟩
    · cases hfind : (List.range i).findSome? f with
      | some a =>
        obtain ⟨j, hj, ha⟩ := List.exists_of_findSome?_eq_some hfind
        exact ⟨j, a, (List.mem_range.mp hj).le, ha, rfl⟩
      | none =>
        obtain ⟨a, ha⟩ := Option.isSome_iff_exists.mp h
        exact ⟨i, a, Nat.le_refl i, ha, by simp [ha]⟩

/-- The shortest decimal stands on a grid no finer than that of any point that rounds to the
magnitude, among the grids that are tried. -/
theorem shortest_of_onGrid? (h : (m.onGrid? e).isSome = true) (hle : e ≤ m.coarsestGrid)
    (hlt : m.coarsestGrid < e + 128) :
    ∃ grid, e ≤ grid ∧ m.onGrid? grid = some m.shortest := by
  obtain ⟨i, hi⟩ : ∃ i : Nat, m.coarsestGrid - (i : Int) = e := ⟨(m.coarsestGrid - e).toNat, by omega⟩
  obtain ⟨j, d, hj, hd, hfind⟩ := findSome?_range (f := fun i : Nat => m.onGrid? (m.coarsestGrid - i))
    (show i < 128 by omega) (by rw [hi]; exact h)
  have hshortest : m.shortest = d := by
    rw [shortest, hfind]
    rfl
  exact ⟨_, by omega, hshortest ▸ hd⟩

end

theorem zpow_bounds {x y : Int} (h : (10 : ℚ) ^ x < 2 ^ y) :
    (0 ≤ x → 3 * x < y) ∧ (x ≤ 0 → 4 * x < y) := by
  have hx (n : Nat) : ((2 : ℚ) ^ 3) ^ n ≤ 10 ^ n ∧ (10 : ℚ) ^ n ≤ (2 ^ 4) ^ n :=
    ⟨pow_le_pow_left₀ (by norm_num) (by norm_num) n, pow_le_pow_left₀ (by norm_num) (by norm_num) n⟩
  constructor
  · intro h0
    obtain ⟨n, rfl⟩ := Int.eq_ofNat_of_zero_le h0
    have hlt : (2 : ℚ) ^ (3 * (n : Int)) < 2 ^ y := by
      refine lt_of_le_of_lt ?_ h
      rw [zpow_mul]
      exact_mod_cast (hx n).1
    exact (zpow_lt_zpow_iff_right₀ (by norm_num)).mp hlt
  · intro h0
    obtain ⟨n, hn⟩ := Int.eq_ofNat_of_zero_le (show 0 ≤ -x by omega)
    obtain rfl : x = -(n : Int) := by omega
    have hlt : (2 : ℚ) ^ (4 * -(n : Int)) < 2 ^ y := by
      refine lt_of_le_of_lt ?_ h
      rw [mul_neg, zpow_neg, zpow_neg, zpow_mul]
      exact inv_anti₀ (by positivity) (by exact_mod_cast (hx n).2)
    exact (zpow_lt_zpow_iff_right₀ (by norm_num)).mp hlt

section

variable {m : Magnitude} {u v : ℚ}

theorem Rounds.near (hr : m.Rounds u) (h0 : m.isZero = false) (hfin : m.isInfinite = false) :
    (m.units : ℚ) ≤ 2 * u ∧ u < 2 * m.units := by
  obtain ⟨s, k, hcode, hunits, hone, hk, hs⟩ := exists_nonzero h0
  obtain ⟨hlow, hup⟩ := hr.mids hfin
  have hmid : m.units ≤ lowerMid m.code := Nat.le_add_left _ _
  have hmid' : upperMid m.code ≤ 3 * m.units := by
    have hstep := Nat.mul_le_mul_right (2 ^ s) hone
    rw [hunits, hcode, upperMid_eq hs hk]
    omega
  have hpos := units_pos h0
  have hmid : (m.units : ℚ) ≤ lowerMid m.code := by exact_mod_cast hmid
  have hmid' : (upperMid m.code : ℚ) ≤ 3 * m.units := by exact_mod_cast hmid'
  have hpos : (0 : ℚ) < m.units := by exact_mod_cast hpos
  constructor
  · linarith
  · linarith

theorem Rounds.between (hr : m.Rounds (v * unitsPerOne)) (h0 : m.isZero = false)
    (hfin : m.isInfinite = false) :
    (2 : ℚ) ^ (m.units.log2 - 1074 - 1 : Int) ≤ v ∧ v < 2 ^ (m.units.log2 - 1074 + 2 : Int) := by
  obtain ⟨hhalf, hdouble⟩ := hr.near h0 hfin
  have hlog : (2 : ℚ) ^ (m.units.log2 : Int) ≤ m.units := by
    exact_mod_cast Nat.log2_self_le (units_pos h0).ne'
  have hlog' : (m.units : ℚ) < 2 ^ (m.units.log2 + 1 : Int) := by
    exact_mod_cast Nat.lt_log2_self (n := m.units)
  -- the exponent of the unit is kept a variable, so that its power is never computed
  obtain ⟨w, hw, hone⟩ : ∃ w : Nat, (w : Int) = 1074 ∧ (unitsPerOne : ℚ) = 2 ^ w :=
    ⟨1074, rfl, by rw [unitsPerOne_eq, Nat.cast_pow, Nat.cast_ofNat]⟩
  have hpos : (0 : ℚ) < 2 ^ w := by positivity
  have hscale (a : Int) : (2 : ℚ) ^ a * 2 ^ w = 2 ^ (a + w) := by
    rw [zpow_add₀ (by norm_num), zpow_natCast]
  rw [hone] at hhalf hdouble
  rw [← hw]
  generalize m.units.log2 = l at *
  generalize m.units = n at *
  constructor
  · refine le_of_mul_le_mul_right ?_ hpos
    have htwice : (2 : ℚ) ^ (l : Int) = 2 * 2 ^ (l - 1 : Int) := by
      rw [← zpow_one_add₀ (by norm_num), show 1 + ((l : Int) - 1) = l by omega]
    calc (2 : ℚ) ^ (l - w - 1 : Int) * 2 ^ w = 2 ^ (l - 1 : Int) := by
          rw [hscale, show (l : Int) - w - 1 + w = l - 1 by omega]
      _ ≤ v * 2 ^ w := by linarith
  · refine lt_of_mul_lt_mul_right ?_ hpos.le
    calc v * 2 ^ w < 2 * 2 ^ (l + 1 : Int) := by linarith
      _ = 2 ^ (1 + (l + 1) : Int) := (zpow_one_add₀ (by norm_num) _).symm
      _ = 2 ^ (l - w + 2 : Int) * 2 ^ w := by rw [hscale, show 1 + ((l : Int) + 1) = l - w + 2 + w by omega]

theorem le_coarsestGrid {x : Int} (hr : m.Rounds (v * unitsPerOne)) (h0 : m.isZero = false)
    (hfin : m.isInfinite = false) (hlow : (10 : ℚ) ^ x ≤ v) : x ≤ m.coarsestGrid := by
  obtain ⟨hlarge, hsmall⟩ := zpow_bounds (hlow.trans_lt (hr.between h0 hfin).2)
  rw [coarsestGrid]
  generalize m.units.log2 = l at *
  rcases Int.lt_or_le x 0 with hx | hx
  · have hsmall := hsmall (by omega)
    split_ifs <;> omega
  · have hlarge := hlarge (by omega)
    split_ifs <;> omega

/-- The coarsest grid that is tried is not too far above the leading digit. -/
theorem coarsestGrid_lt {x : Int} (hx : x ≤ 310) (hr : m.Rounds (v * unitsPerOne))
    (h0 : m.isZero = false) (hfin : m.isInfinite = false) (hup : v < (10 : ℚ) ^ (x + 1)) :
    m.coarsestGrid < x + 111 := by
  have hbelow : (10 : ℚ) ^ (-(x + 1)) < 2 ^ (-(m.units.log2 - 1074 - 1 : Int)) := by
    rw [zpow_neg, zpow_neg]
    exact inv_strictAnti₀ (zpow_pos (by norm_num) _) ((hr.between h0 hfin).1.trans_lt hup)
  obtain ⟨hsmall, hlarge⟩ := zpow_bounds hbelow
  rw [coarsestGrid]
  generalize m.units.log2 = l at *
  rcases Int.lt_or_le x 0 with hx | hx
  · have hsmall := hsmall (by omega)
    split_ifs <;> omega
  · have hlarge := hlarge (by omega)
    split_ifs <;> omega

end

end Magnitude

end JCalc
