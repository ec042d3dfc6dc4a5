import JCalc.Proofs.VerbResults
import Mathlib.Algebra.BigOperators.Group.List.Basic

/-! Verbs that work element by element, read at one index. What such a verb gives for lists is
what it gives for the atoms at each index, and it fails for lists just when it fails for some of
these atoms. Division of a list by one atom is the exception: it multiplies by the reciprocal,
which is rounded on its own. -/

namespace JCalc

/-- What a noun has at an index of a result; an atom has its one element at every index. -/
def Noun.at? : Noun → Nat → Option Scalar
  | .atom e, _ => some e
  | .list es, i => es[i]?

/-- The result is, index by index, that of an application to the atoms there. -/
structure Verb.Pointwise (v : Verb) (apply : Scalar → Scalar → Except Fault Noun) (x y : Noun)
    (shape : List Nat) (r : Except Fault Noun) : Prop where
  operands : ∀ i < shape.prod, ∃ a b, x.at? i = some a ∧ y.at? i = some b
  ok_iff : (∃ z, r = .ok z) ↔
    ∀ i < shape.prod, ∀ a b, x.at? i = some a → y.at? i = some b → ∃ c, apply a b = .ok c
  shape_eq : ∀ z, r = .ok z → z.shape = shape
  element : ∀ z, r = .ok z → ∀ i < shape.prod, ∀ a b, x.at? i = some a → y.at? i = some b →
    ∃ c, z.at? i = some c ∧ apply a b = .ok (.atom c)
  refused : ∀ fault, r = .error fault →
    fault.report = .domain (v.spelling ++ " has no defined result here".toList)

/-- Several elements divided by one atom other than zero. -/
def Verb.SharesDivisor (v : Verb) (x y : Noun) : Prop :=
  v = .divide ∧ 1 < x.elements.length ∧ ∃ b, y = .atom b ∧ b.re.vanishes = false

namespace Noun

variable {x y : Noun} {shape : List Nat} {i : Nat} {a b : Scalar}

theorem exists_at? (hi : x.isAtom = true ∨ i < x.shape.prod) : ∃ a, x.at? i = some a := by
  cases x with
  | atom e => exact ⟨e, rfl⟩
  | list es =>
    have hlength : i < es.length := by simpa [isAtom, Noun.shape] using hi
    exact ⟨es[i], List.getElem?_eq_getElem hlength⟩

theorem mem_of_at? (h : x.at? i = some a) : a ∈ x.elements := by
  cases x with
  | atom e =>
    obtain rfl := Option.some.inj h
    exact List.mem_singleton_self e
  | list es => exact List.mem_of_getElem? h

theorem all_iff_at? {p : Scalar → Prop} (x : Noun) :
    x.All p ↔ ∀ i < x.shape.prod, ∀ a, x.at? i = some a → p a := by
  constructor
  · intro h i _ a ha
    exact h a (mem_of_at? ha)
  · intro h a ha
    cases x with
    | atom e =>
      obtain rfl := List.mem_singleton.mp ha
      exact h 0 (by simp [Noun.shape]) a rfl
    | list es =>
      obtain ⟨i, hi, rfl⟩ := List.mem_iff_getElem.mp ha
      have hlength : i < (list es).shape.prod := by rwa [Noun.shape, List.prod_singleton]
      exact h i hlength _ (List.getElem?_eq_getElem hi)

theorem shapes_of_conform (h : x.conform y = .ok shape) :
    (x.isAtom = true ∨ x.shape = shape) ∧ (y.isAtom = true ∨ y.shape = shape) := by
  unfold conform at h
  split_ifs at h with heq hx hy
  · cases h
    exact ⟨.inr rfl, .inr heq.symm⟩
  · cases h
    exact ⟨.inl hx, .inr rfl⟩
  · cases h
    exact ⟨.inr rfl, .inl hy⟩

theorem exists_operands (h : x.conform y = .ok shape) (hi : i < shape.prod) :
    ∃ a b, x.at? i = some a ∧ y.at? i = some b := by
  have operand {z : Noun} (hz : z.isAtom = true ∨ z.shape = shape) : ∃ a, z.at? i = some a :=
    exists_at? (hz.imp_right fun (hs : z.shape = shape) => hs.symm ▸ hi)
  obtain ⟨hx, hy⟩ := shapes_of_conform h
  obtain ⟨a, ha⟩ := operand hx
  obtain ⟨b, hb⟩ := operand hy
  exact ⟨a, b, ha, hb⟩

theorem at?_zipWith (f : Scalar → Scalar → Scalar) (ha : x.at? i = some a)
    (hb : y.at? i = some b) : (x.zipWith f y).at? i = some (f a b) := by
  rcases x with e | es <;> rcases y with d | ds <;>
    simp_all [at?, zipWith, List.getElem?_zipWith]

theorem all_zipWith_iff {f : Scalar → Scalar → Scalar} {p : Scalar → Prop}
    (h : x.conform y = .ok shape) : (x.zipWith f y).All p ↔ ∀ i < shape.prod, ∀ a b,
      x.at? i = some a → y.at? i = some b → p (f a b) := by
  rw [all_iff_at?, shape_zipWith_of_conform f h]
  constructor
  · intro hp i hi a b ha hb
    exact hp i hi _ (at?_zipWith f ha hb)
  · intro hp i hi c hc
    obtain ⟨a, b, ha, hb⟩ := exists_operands h hi
    rw [at?_zipWith f ha hb] at hc
    obtain rfl := Option.some.inj hc
    exact hp i hi a b ha hb

theorem zipWith_congr_right {f g : Scalar → Scalar → Scalar} {b : Scalar}
    (h : ∀ a, f a b = g a b) (x : Noun) : x.zipWith f (.atom b) = x.zipWith g (.atom b) := by
  cases x <;> simp [zipWith, h]

theorem all_map {p : Scalar → Prop} (f : Scalar → Scalar) (x : Noun) :
    (x.map f).All p ↔ x.All fun s => p (f s) := by
  rw [All, elements_map, List.forall_mem_map]
  rfl

theorem all_and {p q : Scalar → Prop} (x : Noun) : x.All p ∧ x.All q ↔ x.All fun s => p s ∧ q s := by
  simp only [All, imp_and, forall_and]

theorem isReal_iff (x : Noun) : x.isReal = true ↔ x.All fun s => s.im.vanishes = true :=
  List.all_eq_true

theorem isReal_at? (h : x.isReal = true) (ha : x.at? i = some a) : (atom a).isReal = true := by
  rw [isReal_iff] at h ⊢
  intro s hs
  obtain rfl := List.mem_singleton.mp hs
  exact h s (mem_of_at? ha)

theorem all_concatenate {limit : Int} {c : Noun} {p : Scalar → Prop}
    (h : x.concatenate limit y = .ok c) : c.All p ↔ x.All p ∧ y.All p := by
  obtain rfl := elements_of_concatenate h
  exact List.forall_mem_append

end Noun

namespace Verb

variable {x y z : Noun} {shape : List Nat}

theorem requireDefined_eq_ok_iff (v : Verb) :
    v.requireDefined x = .ok z ↔ (x.All fun s => s.isDefined = true) ∧ z = x := by
  rw [requireDefined, Noun.All, ← List.all_eq_true]
  split_ifs with h
  · simp [h, eq_comm]
  · simp [h]

theorem exists_requireDefined_iff (v : Verb) (x : Noun) :
    (∃ z, v.requireDefined x = .ok z) ↔ x.All fun s => s.isDefined = true := by
  simp only [requireDefined_eq_ok_iff, exists_and_left, exists_eq, and_true]

theorem pointwise_zipWith (v : Verb) (f : Scalar → Scalar → Scalar) (h : x.conform y = .ok shape) :
    v.Pointwise (fun a b => v.requireDefined (.atom (f a b))) x y shape
      (v.requireDefined (x.zipWith f y)) := by
  have hshape := Noun.shape_zipWith_of_conform f h
  have hatom (s : Scalar) : (∃ c, v.requireDefined (.atom s) = .ok c) ↔ s.isDefined = true :=
    (exists_requireDefined_iff v _).trans List.forall_mem_singleton
  have hall := @Noun.all_zipWith_iff x y shape f (fun s => s.isDefined = true) h
  refine ⟨fun i hi => Noun.exists_operands h hi, ?_, ?_, ?_, ?_⟩
  · rw [exists_requireDefined_iff, hall]
    simp only [hatom]
  · intro z hz
    obtain ⟨_, rfl⟩ := (requireDefined_eq_ok_iff v).mp hz
    exact hshape
  · intro z hz i hi a b ha hb
    obtain ⟨hdefined, rfl⟩ := (requireDefined_eq_ok_iff v).mp hz
    obtain ⟨c, hc⟩ := (hatom (f a b)).mpr (hall.mp hdefined i hi a b ha hb)
    have hresult := ((requireDefined_eq_ok_iff v).mp hc).2
    exact ⟨f a b, Noun.at?_zipWith f ha hb, hresult ▸ hc⟩
  · intro fault hfault
    unfold requireDefined at hfault
    split_ifs at hfault
    cases hfault
    rfl

theorem Pointwise.congr {v : Verb} {f g : Scalar → Scalar → Except Fault Noun}
    {r : Except Fault Noun} (h : v.Pointwise f x y shape r)
    (hfg : ∀ i a b, x.at? i = some a → y.at? i = some b → f a b = g a b) :
    v.Pointwise g x y shape r := by
  refine ⟨h.operands, h.ok_iff.trans ?_, h.shape_eq, ?_, h.refused⟩
  · constructor
    · intro hok i hi a b ha hb
      rw [← hfg i a b ha hb]
      exact hok i hi a b ha hb
    · intro hok i hi a b ha hb
      rw [hfg i a b ha hb]
      exact hok i hi a b ha hb
  · intro z hz i hi a b ha hb
    rw [← hfg i a b ha hb]
    exact h.element z hz i hi a b ha hb

theorem elementwise_eq (v : Verb) (f : Scalar → Scalar → Scalar) (h : x.conform y = .ok shape) :
    v.elementwise f x y = v.requireDefined (x.zipWith f y) := by
  rw [elementwise, h]
  rfl

theorem realElementwise_eq (v : Verb) (f : Binary64 → Binary64 → Binary64)
    (h : x.conform y = .ok shape) (hx : x.isReal = true) (hy : y.isReal = true) :
    v.realElementwise f x y = v.requireDefined (x.zipWith (.onReals f) y) := by
  rw [realElementwise, h, Noun.requireReal, Noun.requireReal, if_pos hx, if_pos hy]
  rfl

theorem pointwise_elementwise (v : Verb) (f : Scalar → Scalar → Scalar)
    (h : x.conform y = .ok shape) :
    v.Pointwise (fun a b => v.elementwise f (.atom a) (.atom b)) x y shape
      (v.elementwise f x y) := by
  rw [elementwise_eq v f h]
  exact pointwise_zipWith v f h

theorem pointwise_realElementwise (v : Verb) (f : Binary64 → Binary64 → Binary64)
    (h : x.conform y = .ok shape) (hx : x.isReal = true) (hy : y.isReal = true) :
    v.Pointwise (fun a b => v.realElementwise f (.atom a) (.atom b)) x y shape
      (v.realElementwise f x y) := by
  rw [realElementwise_eq v f h hx hy]
  refine (pointwise_zipWith v _ h).congr fun i a b ha hb => ?_
  have hatoms : (Noun.atom a).conform (.atom b) = .ok [] := rfl
  rw [realElementwise_eq v f hatoms (Noun.isReal_at? hx ha) (Noun.isReal_at? hy hb)]
  rfl

theorem quotient_eq (h : x.conform y = .ok shape) (hx : x.isReal = true) (hy : y.isReal = true)
    (hs : ¬ SharesDivisor .divide x y) : quotient x y = divide.realElementwise .divide x y := by
  rw [quotient]
  split_ifs with hshared
  · obtain ⟨hatom, hlength⟩ := Bool.and_eq_true_iff.mp hshared
    obtain ⟨b, rfl⟩ : ∃ b, y = .atom b := by
      cases y with
      | atom b => exact ⟨b, rfl⟩
      | list es => cases hatom
    -- by a zero, neither way of dividing takes a reciprocal
    have hzero : b.re.vanishes = true := by
      by_contra hb
      exact hs ⟨rfl, by simpa using hlength, b, rfl, by simpa using hb⟩
    have hsame (a : Scalar) : Scalar.onReals .divideShared a b = Scalar.onReals .divide a b := by
      simp only [Scalar.onReals, Binary64.divideShared, Binary64.divide, if_pos hzero]
    rw [realElementwise_eq _ _ h hx hy, realElementwise_eq _ _ h hx hy,
      Noun.zipWith_congr_right hsame]
  · rfl

theorem quotient_atoms (a b : Scalar) :
    quotient (.atom a) (.atom b) = divide.realElementwise .divide (.atom a) (.atom b) := rfl

theorem quotient_of_sharesDivisor (h : x.conform y = .ok shape) (hx : x.isReal = true)
    (hy : y.isReal = true) (hs : SharesDivisor .divide x y) :
    divide.Pointwise (fun a b => divide.requireDefined
      (.atom (.ofReal (a.re.mul ((Binary64.number .one).div b.re))))) x y shape (quotient x y) := by
  obtain ⟨_, hlength, b, rfl, hb⟩ := hs
  have hshared : ((Noun.atom b).isAtom && decide (1 < x.elements.length)) = true := by
    simpa [Noun.isAtom] using hlength
  rw [quotient, if_pos hshared, realElementwise_eq _ _ h hx hy]
  refine (pointwise_zipWith divide _ h).congr fun i a c ha hc => ?_
  obtain rfl := Option.some.inj hc
  simp only [Scalar.onReals, Binary64.divideShared, hb, Bool.false_eq_true, if_false]

theorem requireDefined_map_eq_ok_iff (v : Verb) (f : Scalar → Scalar) :
    v.requireDefined (y.map f) = .ok z ↔ (y.All fun s => (f s).isDefined = true) ∧ z = y.map f := by
  rw [requireDefined_eq_ok_iff, Noun.all_map]

theorem requireReal_eq_ok_iff {subject : Text} {next : Unit → Except Fault Noun} :
    (y.requireReal subject >>= next) = .ok z ↔
      (y.All fun s => s.im.vanishes = true) ∧ next () = .ok z := by
  rw [Noun.requireReal, ← Noun.isReal_iff]
  split_ifs with h
  · simp [h, bind, Except.bind]
  · simp [h, bind, Except.bind]

theorem reciprocal_eq (y : Noun) :
    quotient (.atom (.ofReal (.number .one))) y =
      (y.requireReal divide.spelling >>= fun _ =>
        divide.requireDefined (y.map (.onReals .divide (.ofReal (.number .one))))) := by
  cases y <;> rfl

theorem not_eq_ok_iff {limit : Int} : Verb.not.applyMonad limit y = .ok z ↔
    (y.All fun s => s.im.vanishes = true ∧ s.re.inUnitInterval = true ∧
      (s.onReal .complement).isDefined = true) ∧ z = y.map (.onReal .complement) := by
  rw [← Noun.all_and, ← Noun.all_and, and_assoc, and_assoc, applyMonad, requireReal_eq_ok_iff,
    ← requireDefined_map_eq_ok_iff not]
  by_cases hunit : y.elements.all (·.re.inUnitInterval) = true
  · have hall : y.All fun s => s.re.inUnitInterval = true := List.all_eq_true.mp hunit
    simp only [if_pos hunit, hall, true_and]
  · have hall : ¬ y.All fun s => s.re.inUnitInterval = true := fun h => hunit (List.all_eq_true.mpr h)
    simp only [if_neg hunit, hall, false_and, reduceCtorEq]

/-- These monads judge and change each element on its own. -/
theorem exists_accepts {v : Verb} (hv : v ∈ [minus, not, times, divide]) (limit : Int) :
    ∃ (accepts : Scalar → Prop) (f : Scalar → Scalar), ∀ y z,
      v.applyMonad limit y = .ok z ↔ y.All accepts ∧ z = y.map f := by
  simp only [List.mem_cons, List.not_mem_nil, or_false] at hv
  rcases hv with rfl | rfl | rfl | rfl
  · exact ⟨_, .neg, fun y z => requireDefined_map_eq_ok_iff minus .neg⟩
  · exact ⟨_, .onReal .complement, fun y z => not_eq_ok_iff⟩
  · refine ⟨fun s => s.im.vanishes = true ∧ (s.onReal .signum).isDefined = true,
      .onReal .signum, fun y z => ?_⟩
    rw [applyMonad, requireReal_eq_ok_iff, requireDefined_map_eq_ok_iff, ← and_assoc, Noun.all_and]
  · refine ⟨fun s => s.im.vanishes = true ∧
      (Scalar.onReals .divide (.ofReal (.number .one)) s).isDefined = true,
      .onReals .divide (.ofReal (.number .one)), fun y z => ?_⟩
    rw [applyMonad, reciprocal_eq, requireReal_eq_ok_iff, requireDefined_map_eq_ok_iff, ← and_assoc,
      Noun.all_and]

theorem applyMonad_concatenate {v : Verb} (hv : v ∈ [minus, not, times, divide]) {limit : Int}
    {a b c : Noun} (h : a.concatenate limit b = .ok c) :
    ((∃ z, v.applyMonad limit c = .ok z) ↔
      (∃ p, v.applyMonad limit a = .ok p) ∧ ∃ q, v.applyMonad limit b = .ok q) ∧
    ∀ p q, v.applyMonad limit a = .ok p → v.applyMonad limit b = .ok q →
      ∃ z, p.concatenate limit q = .ok z ∧ v.applyMonad limit c = .ok z := by
  obtain ⟨accepts, f, heq⟩ := exists_accepts hv limit
  constructor
  · simp only [heq, exists_and_left, exists_eq, and_true]
    exact Noun.all_concatenate h
  · intro p q hp hq
    obtain ⟨ha, rfl⟩ := (heq a p).mp hp
    obtain ⟨hb, rfl⟩ := (heq b q).mp hq
    have hc := (Noun.all_concatenate h).mpr ⟨ha, hb⟩
    have hjoin : (a.map f).concatenate limit (b.map f) = .ok (c.map f) := by
      rw [Noun.concatenate_map, h]
      rfl
    exact ⟨c.map f, hjoin, (heq c _).mpr ⟨hc, rfl⟩⟩

end Verb

/-- Sums, differences, products and quotients are, element by element, those of the atoms at each
index, and fail just when one of these does, except that a list divided by an atom other than zero
is multiplied by its reciprocal. Negation, complement, sign and reciprocal of a join are the joins
of those of its parts. -/
theorem verbs_work_pointwise (limit : Int) (x y : Noun) :
    (∀ v ∈ [Verb.plus, .minus, .times, .divide], ∀ shape, x.conform y = .ok shape →
      (v = .times ∨ v = .divide → x.isReal = true ∧ y.isReal = true) →
      (¬ v.SharesDivisor x y →
        v.Pointwise (fun a b => v.applyDyad (.atom a) (.atom b)) x y shape (v.applyDyad x y)) ∧
      (v.SharesDivisor x y →
        v.Pointwise (fun a b =>
            v.requireDefined (.atom (.ofReal (a.re.mul ((Binary64.number .one).div b.re)))))
          x y shape (v.applyDyad x y))) ∧
    ∀ v ∈ [Verb.minus, .not, .times, .divide], ∀ join, x.concatenate limit y = .ok join →
      ((∃ z, v.applyMonad limit join = .ok z) ↔
        (∃ p, v.applyMonad limit x = .ok p) ∧ ∃ q, v.applyMonad limit y = .ok q) ∧
      ∀ p q, v.applyMonad limit x = .ok p → v.applyMonad limit y = .ok q →
        ∃ z, p.concatenate limit q = .ok z ∧ v.applyMonad limit join = .ok z := by
  refine ⟨fun v hv shape h hreal => ?_, fun v hv join h => Verb.applyMonad_concatenate hv h⟩
  simp only [List.mem_cons, List.not_mem_nil, or_false] at hv
  rcases hv with rfl | rfl | rfl | rfl
  · exact ⟨fun _ => Verb.pointwise_elementwise .plus _ h, fun hs => nomatch hs.1⟩
  · exact ⟨fun _ => Verb.pointwise_elementwise .minus _ h, fun hs => nomatch hs.1⟩
  · obtain ⟨hx, hy⟩ := hreal (.inl rfl)
    exact ⟨fun _ => Verb.pointwise_realElementwise .times _ h hx hy, fun hs => nomatch hs.1⟩
  · obtain ⟨hx, hy⟩ := hreal (.inr rfl)
    refine ⟨fun hs => ?_, Verb.quotient_of_sharesDivisor h hx hy⟩
    simp only [Verb.applyDyad, Verb.quotient_eq h hx hy hs, Verb.quotient_atoms]
    exact Verb.pointwise_realElementwise .divide _ h hx hy

theorem verbs_work_pointwise_by_zero :
    let zero := Scalar.ofReal .zero
    let infinity := Scalar.ofReal (.number .infinity)
    let list := Noun.list [infinity, zero]
    Verb.divide.Pointwise (fun a b => Verb.divide.applyDyad (.atom a) (.atom b)) list (.atom zero) [2]
        (Verb.divide.applyDyad list (.atom zero)) ∧
      Verb.divide.Pointwise (fun a b => Verb.divide.requireDefined
          (.atom (.ofReal (a.re.mul ((Binary64.number .one).div b.re)))))
        list (.atom infinity) [2] (Verb.divide.applyDyad list (.atom infinity)) ∧
      ∃ z, (Noun.atom infinity).concatenate 3 list = .ok z ∧
        Verb.minus.applyMonad 3 (.list [infinity.neg, infinity.neg, zero.neg]) = .ok z := by
  intro zero infinity list
  have hzero := (verbs_work_pointwise 2 list (.atom zero)).1 .divide (by decide) [2] rfl
    fun _ => ⟨rfl, rfl⟩
  have hshared := (verbs_work_pointwise 2 list (.atom infinity)).1 .divide (by decide) [2] rfl
    fun _ => ⟨rfl, rfl⟩
  have hjoin := (verbs_work_pointwise 3 (.atom infinity.neg) (.list [infinity.neg, zero.neg])).2
    .minus (by decide) (.list [infinity.neg, infinity.neg, zero.neg]) rfl
  refine ⟨hzero.1 ?_, hshared.2 ⟨rfl, by decide, infinity, rfl, rfl⟩, ?_⟩
  · rintro ⟨_, _, b, hb, hdivisor⟩
    cases hb
    cases hdivisor
  · exact hjoin.2 (.atom infinity) list rfl rfl

/-- A third is rounded before it is multiplied. -/
theorem list_by_three_not_pointwise :
    let x := Noun.list [.ofReal (.number .infinity), .ofReal (.number (.ofNat 10000000000))]
    let y := Noun.atom (.ofReal (.number (.ofNat 3)))
    x.conform y = .ok [2] ∧ (x.isReal = true ∧ y.isReal = true) ∧
      ((x.All fun s => s.isDefined = true) ∧ y.All fun s => s.isDefined = true) ∧
      ¬ Verb.divide.Pointwise (fun a b => Verb.divide.applyDyad (.atom a) (.atom b)) x y [2]
        (Verb.divide.applyDyad x y) := by
  intro x y
  have hx : x.elements.all Scalar.isDefined = true := rfl
  have hy : y.elements.all Scalar.isDefined = true := rfl
  refine ⟨rfl, ⟨rfl, rfl⟩, ⟨List.all_eq_true.mp hx, List.all_eq_true.mp hy⟩, fun h => ?_⟩
  have hlist : Verb.divide.applyDyad x y = .ok (x.zipWith (.onReals .divideShared) y) := by
    decide +kernel
  obtain ⟨c, hc, hatoms⟩ := h.element _ hlist 1 (by decide) _ _ rfl rfl
  obtain rfl := Option.some.inj hc
  exact absurd hatoms (by decide +kernel)

end JCalc
