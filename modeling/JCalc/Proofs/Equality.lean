import JCalc.Proofs.Flush
import JCalc.Proofs.Pointwise
import JCalc.Proofs.ZeroSigns

/-! Equality of nouns. Arrays compare values with subnormals taken to zeros and without the signs of
zeros, so nouns are equal when the same is left of both after that. Outcomes are compared likewise:
both are nouns, or both are refusals. -/

namespace JCalc

namespace Extended

variable {x y : Extended}

theorem eq_of_code (hn : x.negative = y.negative) (hm : x.magnitude.code = y.magnitude.code) :
    x = y := by
  obtain ⟨m, ⟨c, hc⟩⟩ := x
  obtain ⟨n, ⟨d, hd⟩⟩ := y
  simp only at hn hm
  subst hn hm
  rfl

theorem rank_eq_iff : x.rank = y.rank ↔ x.unsignZero = y.unsignZero := by
  have hzero (z : Extended) : z.isZero = true ↔ z.magnitude.code = 0 := beq_iff_eq
  constructor
  · intro h
    have hcode : x.magnitude.code = y.magnitude.code := by
      simp only [rank] at h
      split_ifs at h <;> omega
    by_cases hx : x.isZero = true
    · have hy : y.isZero = true := by rwa [hzero, ← hcode, ← hzero]
      rw [unsignZero, unsignZero, if_pos hx, if_pos hy]
    · have hy : ¬ y.isZero = true := by rwa [hzero, ← hcode, ← hzero]
      rw [unsignZero, unsignZero, if_neg hx, if_neg hy]
      rw [hzero] at hx
      refine eq_of_code ?_ hcode
      cases hm : x.negative <;> cases hn : y.negative
      all_goals simp only [rank, hm, hn, if_true, Bool.false_eq_true, if_false] at h ⊢
      all_goals omega
  · intro h
    rw [← apply_unsignZero rank rfl x, h, apply_unsignZero rank rfl y]

/-- Equal are the same numbers, and any two that count as zeros. -/
theorem unsignZero_flush_eq_iff : x.flush.unsignZero = y.flush.unsignZero ↔
    x = y ∨ x.magnitude.isSubnormal = true ∧ y.magnitude.isSubnormal = true := by
  have hzero {z : Extended} (h : z.magnitude.isSubnormal = true) : z.flush.unsignZero = zero := by
    rw [flush_of_isSubnormal h]
    rfl
  have hnormal {z : Extended} (h : z.magnitude.isSubnormal = false) : z.flush.unsignZero = z := by
    rw [unsignZero, flush_isZero, h, if_neg Bool.false_ne_true, flush_of_normal h]
  have hne {z : Extended} (h : z.magnitude.isSubnormal = false) : z ≠ zero := by
    rintro rfl
    cases h
  cases hx : x.magnitude.isSubnormal <;> cases hy : y.magnitude.isSubnormal
  · rw [hnormal hx, hnormal hy]
    simp
  · rw [hnormal hx, hzero hy]
    refine iff_of_false (hne hx) ?_
    rintro (rfl | ⟨h, _⟩)
    · simp [hx] at hy
    · cases h
  · rw [hzero hx, hnormal hy]
    refine iff_of_false (hne hy).symm ?_
    rintro (rfl | ⟨_, h⟩)
    · simp [hx] at hy
    · cases h
  · rw [hzero hx, hzero hy]
    simp

end Extended

namespace Binary64

variable {x y : Binary64}

/-- What is compared. -/
def settle (x : Binary64) : Binary64 := x.flush.unsign

/-- The same number, or both below the normal ones. -/
def Same (x y : Binary64) : Prop :=
  ∃ m n, x = .number m ∧ y = .number n ∧
    (m = n ∨ m.magnitude.value < 1 / 2 ^ 1022 ∧ n.magnitude.value < 1 / 2 ^ 1022)

theorem equal_iff (x y : Binary64) : x.equal y = true ↔ x.isNaN = false ∧ x.settle = y.settle := by
  cases x with
  | nan => exact iff_of_false Bool.false_ne_true fun h => Bool.noConfusion h.1
  | number x =>
    cases y with
    | nan => exact iff_of_false Bool.false_ne_true fun h => by cases h.2
    | number y =>
      rw [equal, beq_iff_eq, Extended.rank_eq_iff]
      exact ⟨fun h => ⟨rfl, congrArg number h⟩, fun h => Binary64.number.inj h.2⟩

theorem equal_iff_same : x.equal y = true ↔ x.Same y := by
  rw [equal_iff]
  constructor
  · rintro ⟨hx, h⟩
    obtain ⟨m, rfl⟩ := exists_number hx
    cases y with
    | nan => cases h
    | number n =>
      have h := Extended.unsignZero_flush_eq_iff.mp (Binary64.number.inj h)
      rw [Magnitude.isSubnormal_iff, Magnitude.isSubnormal_iff] at h
      exact ⟨m, n, rfl, rfl, h⟩
  · rintro ⟨m, n, rfl, rfl, h⟩
    rw [← Magnitude.isSubnormal_iff, ← Magnitude.isSubnormal_iff] at h
    exact ⟨rfl, congrArg number (Extended.unsignZero_flush_eq_iff.mpr h)⟩

theorem settle_unsign (x : Binary64) : x.unsign.settle = x.settle := apply_unsign settle rfl x

theorem settle_flush (x : Binary64) : x.flush.settle = x.settle := by
  rw [settle, flush_flush, settle]

theorem settle_of_vanishes (h : x.vanishes = true) : x.settle = zero := by
  cases x with
  | nan => cases h
  | number x =>
    rw [settle, flush, Extended.flush_of_isSubnormal h]
    rfl

end Binary64

namespace Scalar

def settle (s : Scalar) : Scalar := s.flush.unsign

theorem isDefined_settle (s : Scalar) : s.settle.isDefined = s.isDefined := by
  rw [settle, isDefined_unsign, isDefined_flush]

theorem settle_unsign (s : Scalar) : s.unsign.settle = s.settle := by
  change Scalar.mk s.re.unsign.settle s.im.unsign.settle = ⟨s.re.settle, s.im.settle⟩
  rw [Binary64.settle_unsign, Binary64.settle_unsign]

theorem settle_eq_iff {s t : Scalar} :
    s.settle = t.settle ↔ s.re.settle = t.re.settle ∧ s.im.settle = t.im.settle :=
  Scalar.mk.injEq _ _ _ _ ▸ Iff.rfl

theorem equal_iff (s t : Scalar) : (s.re.equal t.re && s.im.equal t.im) = true ↔
    s.isDefined = true ∧ s.settle = t.settle := by
  rw [Bool.and_eq_true, Binary64.equal_iff, Binary64.equal_iff, settle_eq_iff, isDefined_iff]
  exact and_and_and_comm

end Scalar

namespace Noun

variable {x y : Noun}

abbrev Equal (x y : Noun) : Prop := x.equal y = true

def settle (x : Noun) : Noun := x.map .settle

/-- Of lists of one length it is enough that every pair of elements passes. -/
theorem equal_eq_true_iff : x.Equal y ↔ x.shape = y.shape ∧
    ∀ i a b, x.at? i = some a → y.at? i = some b → (a.re.equal b.re && a.im.equal b.im) = true := by
  rw [Equal, equal, Bool.and_eq_true, beq_iff_eq, List.all_eq_true]
  refine and_congr_right fun hshape => ?_
  cases x with
  | atom s =>
    cases y with
    | atom t => simp [elements, at?]
    | list ys => cases hshape
  | list xs =>
    cases y with
    | atom t => cases hshape
    | list ys =>
      constructor
      · intro h i a b ha hb
        exact h _ (List.mem_of_getElem? (List.getElem?_zipWith_eq_some.mpr ⟨a, b, ha, hb, rfl⟩))
      · intro h r hr
        obtain ⟨i, hi⟩ := List.mem_iff_getElem?.mp hr
        obtain ⟨a, b, ha, hb, rfl⟩ := List.getElem?_zipWith_eq_some.mp hi
        exact h i a b ha hb

theorem equal_iff_same : x.Equal y ↔ x.shape = y.shape ∧
    ∀ i a b, x.at? i = some a → y.at? i = some b → a.re.Same b.re ∧ a.im.Same b.im := by
  simp only [equal_eq_true_iff, Bool.and_eq_true, Binary64.equal_iff_same]

theorem equal_iff : x.Equal y ↔ (x.All fun s => s.isDefined = true) ∧ x.settle = y.settle := by
  rw [Equal, equal, Bool.and_eq_true, beq_iff_eq]
  cases x with
  | atom s =>
    cases y with
    | atom t => simpa [shape, elements, All, settle, map] using Scalar.equal_iff s t
    | list ys => simp [shape, settle, map]
  | list xs =>
    cases y with
    | atom t => simp [shape, settle, map]
    | list ys =>
      simp only [shape, elements, All, settle, map, List.cons.injEq, and_true, list.injEq]
      induction xs generalizing ys with
      | nil => cases ys <;> simp
      | cons s xs ih =>
        cases ys with
        | nil => simp
        | cons t ys =>
          simp only [List.length_cons, Nat.add_right_cancel_iff, List.zipWith_cons_cons,
            List.all_cons, id_eq, Bool.and_eq_true, List.forall_mem_cons, List.map_cons,
            List.cons.injEq]
          rw [and_left_comm, ih, ← Bool.and_eq_true, Scalar.equal_iff, and_and_and_comm]

theorem equal_of_settle (hx : x.All fun s => s.isDefined = true) (h : x.settle = y.settle) :
    x.Equal y :=
  equal_iff.mpr ⟨hx, h⟩

end Noun

/-- Both give nouns, related in one way, or both are refused, for faults related in another. -/
inductive Agree (p : Noun → Noun → Prop) (q : Fault → Fault → Prop) :
    Except Fault Noun → Except Fault Noun → Prop where
  | ok {x y : Noun} (h : p x y) : Agree p q (.ok x) (.ok y)
  | error {f g : Fault} (h : q f g) : Agree p q (.error f) (.error g)

def Fault.SameKind (f g : Fault) : Prop := f.report.kind = g.report.kind

section

variable {p : Noun → Noun → Prop} {q : Fault → Fault → Prop} {r s : Except Fault Noun}

theorem Agree.of_eq (hp : ∀ x, p x x) (hq : ∀ f, q f f) (h : r = s) : Agree p q r s := by
  subst h
  cases r with
  | ok x => exact .ok (hp x)
  | error f => exact .error (hq f)

theorem Agree.trans {t : Except Fault Noun} (h : Agree p Fault.SameKind r s)
    (h' : Agree Eq Fault.SameKind s t) : Agree p Fault.SameKind r t := by
  cases h with
  | ok h =>
    cases h' with
    | ok h' => exact .ok (h' ▸ h)
  | error h =>
    cases h' with
    | error h' => exact .error (Eq.trans h h')

/-- Outcomes that are the same once they have been settled are equal as nouns. -/
theorem Agree.of_settle (hr : ∀ x, r = .ok x → x.All fun s => s.isDefined = true)
    (h : Agree Eq q (r.map Noun.settle) (s.map Noun.settle)) : Agree Noun.Equal q r s := by
  cases r with
  | ok x =>
    cases s with
    | ok y =>
      cases h with
      | ok h => exact .ok (Noun.equal_of_settle (hr x rfl) h)
    | error g => cases h
  | error f =>
    cases s with
    | ok y => cases h
    | error g =>
      cases h with
      | error h => exact .error h

end

end JCalc
