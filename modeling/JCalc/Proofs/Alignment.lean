import JCalc.Diff.Alignment
import Mathlib.Data.List.Basic

/-! The two sides of an alignment are the two lists, since what a run covers is the same in both.
A list and itself are aligned as one kept stretch: of all the runs the earliest longest
lies as far into one as into the other, and it is extended over everything. -/

namespace JCalc

variable {α : Type}

theorem take_reverse_take {xs : List α} {n k : Nat} (hn : n ≤ xs.length) (hk : k ≤ n) :
    ((xs.take n).reverse.take k).reverse = (xs.drop (n - k)).take k := by
  rw [List.take_reverse, List.reverse_reverse, List.length_take, Nat.min_eq_left hn,
    List.drop_take, Nat.sub_sub_self hk]

theorem take_append_run (zs : List α) (k n : Nat) :
    zs.take k ++ ((zs.drop k).take n ++ zs.drop (k + n)) = zs := by
  rw [← List.drop_drop, List.take_append_drop, List.take_append_drop]

section

-- Either side of an alignment: kept items stand on both as they are.
variable {side : Edit α → List α} (hs : ∀ items, side (.keep items) = items)

include hs

theorem flatMap_consEdit (e : Edit α) (es : List (Edit α)) :
    (consEdit e es).flatMap side = side e ++ es.flatMap side := by
  fun_cases consEdit e es with
  | case1 xs ys rest => simp [hs]
  | case2 => simp

theorem flatMap_foldr_consEdit (es fs : List (Edit α)) :
    (es.foldr consEdit fs).flatMap side = es.flatMap side ++ fs.flatMap side := by
  induction es with
  | nil => rfl
  | cons e es ih => rw [List.foldr_cons, flatMap_consEdit hs, ih, List.flatMap_cons, List.append_assoc]

end

variable [DecidableEq α]

section

variable {passes : α → Bool} {xs ys : List α}

theorem take_commonLength (passes : α → Bool) (xs ys : List α) :
    xs.take (commonLength passes xs ys) = ys.take (commonLength passes xs ys) := by
  fun_induction commonLength passes xs ys with
  | case1 x xs y ys h ih =>
    simp only [Bool.and_eq_true, decide_eq_true_eq] at h
    rw [List.take_succ_cons, List.take_succ_cons, ih, h.1]
  | case2 => rfl
  | case3 => rfl

theorem commonLength_comm (passes : α → Bool) (xs ys : List α) :
    commonLength passes xs ys = commonLength passes ys xs := by
  fun_induction commonLength passes xs ys with
  | case1 x xs y ys h ih =>
    simp only [Bool.and_eq_true, decide_eq_true_eq] at h
    obtain ⟨rfl, hp⟩ := h
    simp [commonLength, hp, ih]
  | case2 x xs y ys h =>
    have h' : ¬ (decide (y = x) && passes x) = true := by
      simp only [Bool.and_eq_true, decide_eq_true_eq] at h ⊢
      rintro ⟨rfl, hp⟩
      exact h ⟨rfl, hp⟩
    rw [commonLength, if_neg h']
  | case3 xs ys h =>
    rw [commonLength]
    exact fun y ys' x xs' hy hx => h x xs' y ys' hx hy

theorem commonLength_le_right (passes : α → Bool) (xs ys : List α) :
    commonLength passes xs ys ≤ ys.length := by
  rw [commonLength_comm]
  exact commonLength_le passes ys xs

/-- Nothing has more in common with a list than the list itself. -/
theorem commonLength_le_self (passes : α → Bool) (xs ys : List α) :
    commonLength passes xs ys ≤ commonLength passes xs xs := by
  fun_induction commonLength passes xs ys with
  | case1 x xs y ys h ih =>
    simp only [Bool.and_eq_true, decide_eq_true_eq] at h
    obtain ⟨rfl, hp⟩ := h
    simpa [commonLength, hp] using ih
  | case2 => exact Nat.zero_le _
  | case3 => exact Nat.zero_le _

theorem commonLength_self (xs : List α) : commonLength (fun _ => true) xs xs = xs.length := by
  induction xs with
  | nil => rfl
  | cons x xs ih => simp [commonLength, ih]

/-- The run covers the same items in both lists. -/
structure Run.Common (r : Run) (xs ys : List α) : Prop where
  left : r.left + r.size ≤ xs.length
  right : r.right + r.size ≤ ys.length
  items : (xs.drop r.left).take r.size = (ys.drop r.right).take r.size

theorem common_commonLength {left right : Nat} (hl : left ≤ xs.length) (hr : right ≤ ys.length) :
    (Run.mk left right (commonLength passes (xs.drop left) (ys.drop right))).Common xs ys := by
  have hx := commonLength_le passes (xs.drop left) (ys.drop right)
  have hy := commonLength_le_right passes (xs.drop left) (ys.drop right)
  rw [List.length_drop] at hx hy
  exact ⟨by simp only; omega, by simp only; omega, take_commonLength passes _ _⟩

theorem common_longestFrom {left right : Nat} {best : Run} (hb : best.Common xs ys)
    (hl : left ≤ xs.length) (hr : right ≤ ys.length) :
    (longestFrom passes left (xs.drop left) best right (ys.drop right)).Common xs ys := by
  induction hn : ys.length - right generalizing right best with
  | zero =>
    have hnil : ys.drop right = [] := List.drop_of_length_le (by omega)
    rw [hnil]
    exact hb
  | succ n ih =>
    have hlt : right < ys.length := by omega
    rw [List.drop_eq_getElem_cons hlt, longestFrom, ← List.drop_eq_getElem_cons hlt]
    refine ih ?_ hlt (by omega)
    unfold Run.orLonger
    split
    · exact common_commonLength hl hr
    · exact hb

theorem common_longestOver {left : Nat} {best : Run} (hb : best.Common xs ys)
    (hl : left ≤ xs.length) :
    (longestOver passes ys best left (xs.drop left)).Common xs ys := by
  induction hn : xs.length - left generalizing left best with
  | zero =>
    rw [List.drop_of_length_le (by omega)]
    exact hb
  | succ n ih =>
    have hlt : left < xs.length := by omega
    rw [List.drop_eq_getElem_cons hlt, longestOver, ← List.drop_eq_getElem_cons hlt]
    exact ih (common_longestFrom hb hl (Nat.zero_le _)) hlt (by omega)

theorem Run.Common.extend {r : Run} (h : r.Common xs ys) : (r.extend xs ys).Common xs ys := by
  obtain ⟨left, right, size⟩ := r
  obtain ⟨hl, hr, hitems⟩ := h
  simp only at hl hr hitems
  unfold Run.extend
  simp only
  generalize hb : commonLength (fun _ => true) (xs.take left).reverse (ys.take right).reverse = b
  generalize ha : commonLength (fun _ => true) (xs.drop (left + size)) (ys.drop (right + size)) = a
  have hbl := commonLength_le (fun _ => true) (xs.take left).reverse (ys.take right).reverse
  have hbr := commonLength_le_right (fun _ => true) (xs.take left).reverse (ys.take right).reverse
  have hal := commonLength_le (fun _ => true) (xs.drop (left + size)) (ys.drop (right + size))
  have har := commonLength_le_right (fun _ => true) (xs.drop (left + size)) (ys.drop (right + size))
  simp only [hb, ha, List.length_reverse, List.length_take, List.length_drop] at hbl hbr hal har
  have hbefore : (xs.drop (left - b)).take b = (ys.drop (right - b)).take b := by
    have htake := take_commonLength (fun _ => true) (xs.take left).reverse (ys.take right).reverse
    rw [hb] at htake
    rw [← take_reverse_take (by omega) (by omega), ← take_reverse_take (by omega) (by omega), htake]
  have hafter : (xs.drop (left + size)).take a = (ys.drop (right + size)).take a := by
    have htake := take_commonLength (fun _ => true) (xs.drop (left + size)) (ys.drop (right + size))
    rwa [ha] at htake
  refine ⟨by simp only; omega, by simp only; omega, ?_⟩
  have hcut (zs : List α) (k : Nat) (hk : b ≤ k) : (zs.drop (k - b)).take (b + size + a) =
      (zs.drop (k - b)).take b ++ (zs.drop k).take size ++ (zs.drop (k + size)).take a := by
    rw [List.take_add, List.take_add, List.drop_drop, List.drop_drop, Nat.sub_add_cancel hk,
      show k - b + (b + size) = k + size by omega]
  simp only
  rw [hcut xs left (by omega), hcut ys right (by omega), hbefore, hitems, hafter]

theorem common_longestRun (passes : α → Bool) (xs ys : List α) :
    (longestRun passes xs ys).Common xs ys := by
  have hempty : (Run.mk 0 0 0).Common xs ys := ⟨by simp, by simp, by simp⟩
  have hover : (longestOver passes ys ⟨0, 0, 0⟩ 0 xs).Common xs ys :=
    common_longestOver hempty (Nat.zero_le _)
  exact hover.extend

theorem sides_alignWith (passes : α → Bool) (xs ys : List α) :
    (alignWith passes xs ys).flatMap Edit.old = xs ∧
      (alignWith passes xs ys).flatMap Edit.new = ys := by
  fun_induction alignWith passes xs ys with
  | case1 xs ys r h0 hempty =>
    simp only [Bool.and_eq_true, List.isEmpty_iff] at hempty
    obtain ⟨rfl, rfl⟩ := hempty
    exact ⟨rfl, rfl⟩
  | case2 xs ys r h0 hempty => simp [Edit.old, Edit.new]
  | case3 xs ys r h0 ihb iha =>
    have hitems := (common_longestRun passes xs ys).items
    constructor
    · rw [flatMap_foldr_consEdit (fun _ => rfl), flatMap_consEdit (fun _ => rfl), ihb.1, iha.1]
      exact take_append_run xs _ _
    · rw [flatMap_foldr_consEdit (fun _ => rfl), flatMap_consEdit (fun _ => rfl), ihb.2, iha.2, Edit.new,
        hitems]
      exact take_append_run ys _ _

theorem sides_align (xs ys : List α) :
    (align xs ys).flatMap Edit.old = xs ∧ (align xs ys).flatMap Edit.new = ys :=
  sides_alignWith _ xs ys

end

section

variable {passes : α → Bool} {xs zs : List α} {left right : Nat} {best : Run}

theorem orLonger_of_le {earlier later : Run} (h : later.size ≤ earlier.size) :
    earlier.orLonger later = earlier := by
  rw [Run.orLonger, if_neg (by omega)]

/-- Starts that give nothing longer than the best run so far are passed over. -/
theorem longestFrom_drop {n : Nat} (hn : n ≤ zs.length)
    (h : ∀ k < n, commonLength passes xs (zs.drop k) ≤ best.size) :
    longestFrom passes left xs best right zs =
      longestFrom passes left xs best (right + n) (zs.drop n) := by
  induction n generalizing right zs with
  | zero => simp
  | succ n ih =>
    rcases zs with _ | ⟨z, zs⟩
    · simp at hn
    · have hfirst : commonLength passes xs (z :: zs) ≤ best.size := h 0 (by omega)
      rw [longestFrom, orLonger_of_le hfirst, ih (by simpa using hn), List.drop_succ_cons,
        Nat.add_right_comm, Nat.add_assoc]
      exact fun k hk => h (k + 1) (by omega)

theorem longestFrom_of_le (h : ∀ k < zs.length, commonLength passes xs (zs.drop k) ≤ best.size) :
    longestFrom passes left xs best right zs = best := by
  rw [longestFrom_drop (Nat.le_refl _) h, List.drop_length]
  rfl

/-- The best run before the place `left` lies as far into one list as into the other, and no run
that begins before that place is longer. -/
structure Run.Diagonal (best : Run) (passes : α → Bool) (zs : List α) (left : Nat) : Prop where
  left_eq : best.left = best.right
  longest : ∀ k < left, commonLength passes (zs.drop k) (zs.drop k) ≤ best.size

theorem diagonal_longestFrom (h : best.Diagonal passes zs left) (hl : left < zs.length) :
    (longestFrom passes left (zs.drop left) best 0 zs).Diagonal passes zs (left + 1) := by
  have hbefore : ∀ k < left, commonLength passes (zs.drop left) (zs.drop k) ≤ best.size := by
    intro k hk
    rw [commonLength_comm]
    exact Nat.le_trans (commonLength_le_self passes _ _) (h.longest k hk)
  by_cases hle : commonLength passes (zs.drop left) (zs.drop left) ≤ best.size
  · rw [longestFrom_of_le fun k _ => Nat.le_trans (commonLength_le_self passes _ _) hle]
    refine ⟨h.left_eq, fun k hk => ?_⟩
    rcases Nat.lt_succ_iff_lt_or_eq.mp hk with hk | rfl
    · exact h.longest k hk
    · exact hle
  · have hrun : longestFrom passes left (zs.drop left) best 0 zs =
        ⟨left, left, commonLength passes (zs.drop left) (zs.drop left)⟩ := by
      rw [longestFrom_drop (Nat.le_of_lt hl) hbefore, Nat.zero_add]
      conv_lhs => arg 6; rw [List.drop_eq_getElem_cons hl]
      rw [longestFrom, ← List.drop_eq_getElem_cons hl, Run.orLonger, if_pos (by simpa using hle)]
      exact longestFrom_of_le fun k _ => commonLength_le_self passes _ _
    rw [hrun]
    refine ⟨rfl, fun k hk => ?_⟩
    rcases Nat.lt_succ_iff_lt_or_eq.mp hk with hk | rfl
    · have := h.longest k hk
      simp only
      omega
    · exact Nat.le_refl _

theorem diagonal_longestOver (h : best.Diagonal passes zs left) (hl : left ≤ zs.length) :
    (longestOver passes zs best left (zs.drop left)).Diagonal passes zs zs.length := by
  induction hn : zs.length - left generalizing left best with
  | zero =>
    obtain rfl : left = zs.length := by omega
    rw [List.drop_length]
    exact h
  | succ n ih =>
    have hlt : left < zs.length := by omega
    rw [List.drop_eq_getElem_cons hlt, longestOver, ← List.drop_eq_getElem_cons hlt]
    exact ih (diagonal_longestFrom h hlt) hlt (by omega)

theorem extend_diagonal {r : Run} (hd : r.left = r.right) (h : r.Common zs zs) :
    r.extend zs zs = ⟨0, 0, zs.length⟩ := by
  obtain ⟨left, right, size⟩ := r
  obtain rfl : left = right := hd
  have hle : left + size ≤ zs.length := h.left
  unfold Run.extend
  simp only [commonLength_self, List.length_reverse, List.length_take, List.length_drop,
    Run.mk.injEq]
  omega

theorem longestRun_self (passes : α → Bool) (zs : List α) :
    longestRun passes zs zs = ⟨0, 0, zs.length⟩ := by
  have hempty : (Run.mk 0 0 0).Common zs zs := ⟨by simp, by simp, rfl⟩
  have hstart : (Run.mk 0 0 0).Diagonal passes zs 0 := ⟨rfl, by simp⟩
  have hdiagonal := diagonal_longestOver hstart (Nat.zero_le _)
  have hcommon : (longestOver passes zs ⟨0, 0, 0⟩ 0 zs).Common zs zs :=
    common_longestOver hempty (Nat.zero_le _)
  exact extend_diagonal hdiagonal.left_eq hcommon

theorem alignWith_self (passes : α → Bool) (zs : List α) :
    alignWith passes zs zs = if zs = [] then [] else [.keep zs] := by
  have hnil : alignWith passes ([] : List α) [] = [] := by
    rw [alignWith, longestRun_self]
    rfl
  by_cases hz : zs = []
  · rw [if_pos hz, hz, hnil]
  · have hlen : zs.length ≠ 0 := by simpa using hz
    rw [alignWith, longestRun_self]
    simp only [hlen, if_false, List.take_zero, List.drop_zero, List.take_length, Nat.zero_add,
      List.drop_length, hnil, hz]
    rfl

end

/-- An alignment without changes is one of a list with itself. -/
theorem change_not_mem_align_iff (xs ys : List α) :
    (∀ removed added, Edit.change removed added ∉ align xs ys) ↔ xs = ys := by
  constructor
  · intro h
    obtain ⟨hold, hnew⟩ := sides_align xs ys
    have hsame : (align xs ys).flatMap Edit.old = (align xs ys).flatMap Edit.new := by
      refine List.flatMap_congr fun e he => ?_
      cases e with
      | keep items => rfl
      | change removed added => exact absurd he (h removed added)
    rwa [hold, hnew] at hsame
  · rintro rfl removed added hmem
    rw [align, alignWith_self] at hmem
    split at hmem <;> simp at hmem

end JCalc
