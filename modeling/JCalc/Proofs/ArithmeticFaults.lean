import JCalc.Proofs.InfiniteOperands
import JCalc.Proofs.Pointwise

/-! When arithmetic fails. Lengths are judged first, then whether a product or a quotient is asked
of real numbers, then whether infinities cancel at some index. Nothing else fails, but for a list
divided by one atom an infinity fails already against a reciprocal that counts as a zero. -/

namespace JCalc

def Noun.DifferInLength (x y : Noun) : Prop :=
  ∃ xs ys, x = .list xs ∧ y = .list ys ∧ xs.length ≠ ys.length

def Scalar.IsComplex (s : Scalar) : Prop :=
  ∃ n, s.im = .number n ∧ 1 / 2 ^ 1022 ≤ n.magnitude.value

namespace Verb

def RealOnly (v : Verb) : Prop := v = .times ∨ v = .divide

def Refuses (v : Verb) (x y : Noun) : Prop :=
  v.RealOnly ∧ ∃ s, (s ∈ x.elements ∨ s ∈ y.elements) ∧ s.IsComplex

/-- Infinities of opposite sign have no sum, of the same sign no difference, and of any sign no
quotient. Parts are added and subtracted each on its own. -/
def Cancels : Verb → Scalar → Scalar → Prop
  | plus, a, b =>
    (∃ negative, a.re = .infinite negative ∧ b.re = .infinite (!negative)) ∨
      ∃ negative, a.im = .infinite negative ∧ b.im = .infinite (!negative)
  | minus, a, b =>
    (∃ negative, a.re = .infinite negative ∧ b.re = .infinite negative) ∨
      ∃ negative, a.im = .infinite negative ∧ b.im = .infinite negative
  | divide, a, b => ∃ m n, a.re = .infinite m ∧ b.re = .infinite n
  | _, _, _ => False

/-- The same for an infinity by a divisor whose reciprocal counts as a zero. -/
def CancelsShared (a b : Scalar) : Prop :=
  (∃ negative, a.re = .infinite negative) ∧
    ∃ n, b.re = .number n ∧ 2 ^ 1022 < n.magnitude.value

def CancelsSomewhere (cancels : Scalar → Scalar → Prop) (x y : Noun) : Prop :=
  ∃ i a b, x.at? i = some a ∧ y.at? i = some b ∧ cancels a b

/-- The outcome is refused for lengths, for elements that are not real, or for elements that cancel,
in this order and in no other case. -/
structure FailsExactly (v : Verb) (x y : Noun) (cancels : Scalar → Scalar → Prop)
    (r : Except Fault Noun) : Prop where
  lengths_iff : ∀ left right, r = .error (.lengths left right) ↔
    x.DifferInLength y ∧ left = x.shape ∧ right = y.shape
  notReal_iff : ∀ subject, r = .error (.notReal subject) ↔
    ¬ x.DifferInLength y ∧ v.Refuses x y ∧ subject = v.spelling
  undefined_iff : ∀ u, r = .error (.undefinedResult u) ↔
    ¬ x.DifferInLength y ∧ ¬ v.Refuses x y ∧ CancelsSomewhere cancels x y ∧ u = v
  ok_iff : (∃ z, r = .ok z) ↔
    ¬ x.DifferInLength y ∧ ¬ v.Refuses x y ∧ ¬ CancelsSomewhere cancels x y

end Verb

section

variable {x y : Noun} {v : Verb} {shape : List Nat} {cancels : Scalar → Scalar → Prop}
  {r : Except Fault Noun}

theorem Noun.conform_cases (x y : Noun) :
    x.DifferInLength y ∧ x.conform y = .error (.lengths x.shape y.shape) ∨
      ¬ x.DifferInLength y ∧ ∃ shape, x.conform y = .ok shape := by
  by_cases h : x.DifferInLength y
  · obtain ⟨xs, ys, rfl, rfl, hne⟩ := id h
    have hshape : (list xs).shape ≠ (list ys).shape := by simpa [Noun.shape] using hne
    exact .inl ⟨h, by simp only [conform, if_neg hshape, isAtom, Bool.false_eq_true, if_false]⟩
  · refine .inr ⟨h, ?_⟩
    unfold conform
    split_ifs with hshape hx hy
    · exact ⟨_, rfl⟩
    · exact ⟨_, rfl⟩
    · exact ⟨_, rfl⟩
    · cases x with
      | atom a => exact absurd rfl hx
      | list xs =>
        cases y with
        | atom b => exact absurd rfl hy
        | list ys => exact absurd ⟨xs, ys, rfl, rfl, by simpa [Noun.shape] using hshape⟩ h

theorem Scalar.isComplex_iff {s : Scalar} (h : s.isDefined = true) :
    s.IsComplex ↔ s.im.vanishes = false := by
  obtain ⟨n, hn⟩ := Binary64.exists_number (s.isDefined_iff.mp h).2
  have hsub : n.magnitude.isSubnormal = false ↔ 1 / 2 ^ 1022 ≤ n.magnitude.value := by
    rw [← Bool.not_eq_true, Magnitude.isSubnormal_iff, not_lt]
  rw [IsComplex, hn, Binary64.vanishes, hsub]
  constructor
  · rintro ⟨_, ⟨⟩, hle⟩
    exact hle
  · intro hle
    exact ⟨n, rfl, hle⟩

theorem Verb.refuses_iff (hx : x.All fun s => s.isDefined = true)
    (hy : y.All fun s => s.isDefined = true) :
    v.Refuses x y ↔ v.RealOnly ∧ ¬ (x.isReal = true ∧ y.isReal = true) := by
  have hnoun {z : Noun} (hz : z.All fun s => s.isDefined = true) :
      (∃ s ∈ z.elements, s.IsComplex) ↔ ¬ z.isReal = true := by
    rw [Noun.isReal_iff, Noun.All]
    push Not
    refine exists_congr fun s => and_congr_right fun hs => ?_
    rw [Scalar.isComplex_iff (hz s hs), ne_eq, Bool.not_eq_true]
  rw [Refuses, not_and_or, ← hnoun hx, ← hnoun hy, ← exists_or]
  simp only [or_and_right]

/-- What a verb does beyond the three judgements is to apply its rule to the elements. -/
theorem Verb.failsExactly_of {f : Scalar → Scalar → Scalar}
    (hf : ∀ a ∈ x.elements, ∀ b ∈ y.elements, (f a b).isDefined = true ↔ ¬ cancels a b)
    (hl : ∀ fault, x.conform y = .error fault → r = .error fault)
    (hr : ∀ shape, x.conform y = .ok shape → v.Refuses x y → r = .error (.notReal v.spelling))
    (hd : ∀ shape, x.conform y = .ok shape → ¬ v.Refuses x y → r = v.requireDefined (x.zipWith f y)) :
    v.FailsExactly x y cancels r := by
  rcases x.conform_cases y with ⟨hdiffer, hconform⟩ | ⟨hdiffer, shape, hconform⟩
  · obtain rfl := hl _ hconform
    constructor <;> simp [hdiffer, eq_comm]
  by_cases hrefuses : v.Refuses x y
  · obtain rfl := hr shape hconform hrefuses
    constructor <;> simp [hdiffer, hrefuses, eq_comm]
  obtain rfl := hd shape hconform hrefuses
  have hall : ((x.zipWith f y).All fun s => s.isDefined = true) ↔ ¬ CancelsSomewhere cancels x y := by
    constructor
    · rintro hdefined ⟨i, a, b, ha, hb, hcancels⟩
      have h := hdefined _ (Noun.mem_of_at? (Noun.at?_zipWith f ha hb))
      exact (hf a (Noun.mem_of_at? ha) b (Noun.mem_of_at? hb)).mp h hcancels
    · intro hnone
      refine (Noun.all_zipWith_iff hconform).mpr fun i _ a b ha hb => ?_
      exact (hf a (Noun.mem_of_at? ha) b (Noun.mem_of_at? hb)).mpr fun hcancels =>
        hnone ⟨i, a, b, ha, hb, hcancels⟩
  by_cases hcancels : CancelsSomewhere cancels x y
  · have hfault : v.requireDefined (x.zipWith f y) = .error (.undefinedResult v) := by
      refine if_neg fun h => ?_
      exact hall.mp (List.all_eq_true.mp h) hcancels
    rw [hfault]
    constructor <;> simp [hdiffer, hrefuses, hcancels, eq_comm]
  · have hok : v.requireDefined (x.zipWith f y) = .ok (x.zipWith f y) :=
      if_pos (List.all_eq_true.mpr (hall.mpr hcancels))
    rw [hok]
    constructor <;> simp [hdiffer, hrefuses, hcancels]

namespace Verb

theorem failsExactly_elementwise {f : Scalar → Scalar → Scalar} (hv : ¬ v.RealOnly)
    (hf : ∀ a ∈ x.elements, ∀ b ∈ y.elements, (f a b).isDefined = true ↔ ¬ cancels a b) :
    v.FailsExactly x y cancels (v.elementwise f x y) := by
  refine failsExactly_of hf (fun fault h => ?_) (fun _ _ h => absurd h.1 hv)
    (fun _ h _ => elementwise_eq v f h)
  rw [elementwise, h]
  rfl

theorem failsExactly_realElementwise {f : Binary64 → Binary64 → Binary64} (hv : v.RealOnly)
    (hx : x.All fun s => s.isDefined = true) (hy : y.All fun s => s.isDefined = true)
    (hf : ∀ a ∈ x.elements, ∀ b ∈ y.elements, (f a.re b.re).isNaN = true ↔ cancels a b) :
    v.FailsExactly x y cancels (v.realElementwise f x y) := by
  refine failsExactly_of (f := .onReals f) (fun a ha b hb => ?_) (fun fault h => ?_)
    (fun shape h hrefuses => ?_) (fun shape h hrefuses => ?_)
  · rw [Scalar.onReals, Scalar.isDefined_ofReal, hf a ha b hb]
  · rw [realElementwise, h]
    rfl
  · have hreal := ((refuses_iff hx hy).mp hrefuses).2
    rw [realElementwise, h, Noun.requireReal, Noun.requireReal]
    by_cases hxreal : x.isReal = true
    · rw [if_pos hxreal, if_neg fun hyreal => hreal ⟨hxreal, hyreal⟩]
      rfl
    · rw [if_neg hxreal]
      rfl
  · have hreal : x.isReal = true ∧ y.isReal = true := by
      by_contra hno
      exact hrefuses ((refuses_iff hx hy).mpr ⟨hv, hno⟩)
    exact realElementwise_eq v f h hreal.1 hreal.2

theorem element_of_elementwise {f : Scalar → Scalar → Scalar} {z : Noun}
    (h : v.elementwise f x y = .ok z) : x.conform y = .ok z.shape ∧
      ∀ i a b, x.at? i = some a → y.at? i = some b → z.at? i = some (f a b) := by
  obtain ⟨shape, hconform, h⟩ := bind_eq_ok h
  obtain ⟨_, rfl⟩ := (requireDefined_eq_ok_iff v).mp h
  rw [Noun.shape_zipWith_of_conform f hconform]
  exact ⟨hconform, fun i a b => Noun.at?_zipWith f⟩

theorem element_of_realElementwise {f : Binary64 → Binary64 → Binary64} {z : Noun}
    (h : v.realElementwise f x y = .ok z) : x.conform y = .ok z.shape ∧
      ∀ i a b, x.at? i = some a → y.at? i = some b → z.at? i = some (.ofReal (f a.re b.re)) := by
  obtain ⟨shape, hconform, h⟩ := bind_eq_ok h
  obtain ⟨_, _, h⟩ := bind_eq_ok h
  obtain ⟨_, _, h⟩ := bind_eq_ok h
  obtain ⟨_, rfl⟩ := (requireDefined_eq_ok_iff v).mp h
  rw [Noun.shape_zipWith_of_conform _ hconform]
  exact ⟨hconform, fun i a b => Noun.at?_zipWith _⟩

/-- Parts that are added or subtracted each on its own fail each on its own. -/
theorem failsExactly_partwise {op : Binary64 → Binary64 → Binary64}
    {part : Binary64 → Binary64 → Prop} (hv : ¬ v.RealOnly)
    (hx : x.All fun s => s.isDefined = true) (hy : y.All fun s => s.isDefined = true)
    (hop : ∀ {a b}, a.isNaN = false → b.isNaN = false → ((op a b).isNaN = true ↔ part a b)) :
    v.FailsExactly x y (fun a b => part a.re b.re ∨ part a.im b.im)
      (v.elementwise (fun a b => ⟨op a.re b.re, op a.im b.im⟩) x y) := by
  refine failsExactly_elementwise hv fun a ha b hb => ?_
  obtain ⟨hare, haim⟩ := a.isDefined_iff.mp (hx a ha)
  obtain ⟨hbre, hbim⟩ := b.isDefined_iff.mp (hy b hb)
  rw [Scalar.isDefined_iff, not_or, ← hop hare hbre, ← hop haim hbim, Bool.not_eq_true,
    Bool.not_eq_true]

theorem failsExactly_times (hx : x.All fun s => s.isDefined = true)
    (hy : y.All fun s => s.isDefined = true) :
    times.FailsExactly x y times.Cancels (times.realElementwise .times x y) := by
  refine failsExactly_realElementwise (.inl rfl) hx hy fun a ha b hb => ?_
  obtain ⟨hare, _⟩ := a.isDefined_iff.mp (hx a ha)
  obtain ⟨hbre, _⟩ := b.isDefined_iff.mp (hy b hb)
  rw [Binary64.isNaN_times hare hbre]
  exact iff_of_false Bool.false_ne_true id

theorem divideShared_of_vanishes {a b : Binary64} (h : b.vanishes = true) :
    a.divideShared b = a.divide b := by
  rw [Binary64.divideShared, Binary64.divide, if_pos h, if_pos h]

theorem failsExactly_quotient (hx : x.All fun s => s.isDefined = true)
    (hy : y.All fun s => s.isDefined = true) (hs : ¬ divide.SharesDivisor x y) :
    divide.FailsExactly x y divide.Cancels (quotient x y) := by
  have hnan (a : Scalar) (ha : a ∈ x.elements) (b : Scalar) (hb : b ∈ y.elements) :
      (a.re.divide b.re).isNaN = true ↔ divide.Cancels a b :=
    Binary64.isNaN_divide (a.isDefined_iff.mp (hx a ha)).1 (b.isDefined_iff.mp (hy b hb)).1
  unfold quotient
  split_ifs with hshared
  · obtain ⟨hatom, hlength⟩ := Bool.and_eq_true_iff.mp hshared
    refine failsExactly_realElementwise (.inr rfl) hx hy fun a ha b hb => ?_
    cases y with
    | list ys => cases hatom
    | atom d =>
      obtain rfl := List.mem_singleton.mp hb
      -- what is not shared although it looks so is a zero
      have hzero : b.re.vanishes = true := by
        by_contra hb
        exact hs ⟨rfl, by simpa using hlength, b, rfl, Bool.eq_false_iff.mpr hb⟩
      rw [divideShared_of_vanishes hzero]
      exact hnan a ha b hb
  · exact failsExactly_realElementwise (.inr rfl) hx hy hnan

theorem failsExactly_shared (hx : x.All fun s => s.isDefined = true)
    (hy : y.All fun s => s.isDefined = true) (hs : divide.SharesDivisor x y) :
    divide.FailsExactly x y CancelsShared (quotient x y) := by
  obtain ⟨_, hlength, d, rfl, hd⟩ := hs
  rw [quotient, if_pos (by simpa [Noun.isAtom] using hlength)]
  refine failsExactly_realElementwise (.inr rfl) hx hy fun a ha b hb => ?_
  obtain rfl := List.mem_singleton.mp hb
  rw [Binary64.divideShared, if_neg (Bool.eq_false_iff.mp hd)]
  exact Binary64.isNaN_mul_reciprocal (a.isDefined_iff.mp (hx a ha)).1
    (b.isDefined_iff.mp (hy b hb)).1 hd

theorem element_of_quotient {z : Noun} (h : quotient x y = .ok z) :
    x.conform y = .ok z.shape ∧ ∀ i a b, x.at? i = some a → y.at? i = some b →
      b.re.vanishes = true → z.at? i = some (.ofReal a.re.divideByZero) := by
  unfold quotient at h
  split_ifs at h
  · obtain ⟨hconform, helement⟩ := element_of_realElementwise h
    refine ⟨hconform, fun i a b ha hb hzero => ?_⟩
    rw [helement i a b ha hb, Binary64.divideShared, if_pos hzero]
  · obtain ⟨hconform, helement⟩ := element_of_realElementwise h
    refine ⟨hconform, fun i a b ha hb hzero => ?_⟩
    rw [helement i a b ha hb, Binary64.divide, if_pos hzero]

end Verb

end

/-- Arithmetic on defined elements is refused for lengths, for elements that are not real and for
infinities that cancel, and for nothing else. A product by a zero is a zero, and a quotient by a
zero is a zero or the infinity with the sign of the dividend. -/
theorem arithmetic_fails_exactly {x y : Noun} (hx : x.All fun s => s.isDefined = true)
    (hy : y.All fun s => s.isDefined = true) :
    ∀ v ∈ [Verb.plus, .minus, .times, .divide],
      (¬ v.SharesDivisor x y → v.FailsExactly x y v.Cancels (v.applyDyad x y)) ∧
      (v.SharesDivisor x y → v.FailsExactly x y Verb.CancelsShared (v.applyDyad x y)) ∧
      ∀ z, v.applyDyad x y = .ok z → x.conform y = .ok z.shape ∧
        ∀ i a b, x.at? i = some a → y.at? i = some b →
          (v = .times → a.re.vanishes = true ∨ b.re.vanishes = true →
            z.at? i = some (.ofReal .zero)) ∧
          (v = .divide → b.re.vanishes = true →
            (a.re.vanishes = true → z.at? i = some (.ofReal .zero)) ∧
            ∀ n, a.re = .number n → a.re.vanishes = false →
              z.at? i = some (.ofReal (.infinite n.negative))) := by
  intro v hv
  simp only [List.mem_cons, List.not_mem_nil, or_false] at hv
  rcases hv with rfl | rfl | rfl | rfl
  · have hparts : ¬ Verb.plus.RealOnly := by rintro (h | h) <;> cases h
    refine ⟨fun _ => Verb.failsExactly_partwise hparts hx hy Binary64.isNaN_add,
      fun hs => absurd hs.1 (by decide), fun z hz => ?_⟩
    exact ⟨(Verb.element_of_elementwise hz).1, fun i a b _ _ => ⟨by simp, by simp⟩⟩
  · have hparts : ¬ Verb.minus.RealOnly := by rintro (h | h) <;> cases h
    refine ⟨fun _ => Verb.failsExactly_partwise hparts hx hy Binary64.isNaN_sub,
      fun hs => absurd hs.1 (by decide), fun z hz => ?_⟩
    exact ⟨(Verb.element_of_elementwise hz).1, fun i a b _ _ => ⟨by simp, by simp⟩⟩
  · refine ⟨fun _ => Verb.failsExactly_times hx hy, fun hs => absurd hs.1 (by decide), fun z hz => ?_⟩
    obtain ⟨hconform, helement⟩ := Verb.element_of_realElementwise hz
    refine ⟨hconform, fun i a b ha hb => ⟨fun _ hzero => ?_, by simp⟩⟩
    rw [helement i a b ha hb, Binary64.times, if_pos (by simpa using hzero)]
  · refine ⟨Verb.failsExactly_quotient hx hy, Verb.failsExactly_shared hx hy, fun z hz => ?_⟩
    obtain ⟨hconform, helement⟩ := Verb.element_of_quotient hz
    refine ⟨hconform, fun i a b ha hb => ⟨by simp, fun _ hzero => ⟨fun ha0 => ?_, fun n hn ha0 => ?_⟩⟩⟩
    · rw [helement i a b ha hb hzero, Binary64.divideByZero_of_vanishes ha0]
    · rw [hn] at ha0
      rw [helement i a b ha hb hzero, hn, Binary64.divideByZero_number ha0]

theorem arithmetic_fails_exactly_of_infinity :
    let infinity : Scalar := .ofReal (.infinite false)
    let tiny : Scalar := .ofReal (.number ⟨true, ⟨1, by decide⟩⟩)
    let x : Noun := .list [infinity, tiny]
    Verb.plus.applyDyad x (.atom infinity.neg) = .error (.undefinedResult .plus) ∧
      Verb.CancelsSomewhere Verb.plus.Cancels x (.atom infinity.neg) ∧
      Verb.divide.applyDyad x (.atom infinity) = .error (.undefinedResult .divide) ∧
      Verb.CancelsSomewhere Verb.CancelsShared x (.atom infinity) ∧
      ∃ z, Verb.divide.applyDyad x (.atom tiny) = .ok z ∧ z.at? 0 = some infinity ∧
        z.at? 1 = some (.ofReal .zero) := by
  intro infinity tiny x
  have hx : x.All fun s => s.isDefined = true :=
    List.all_eq_true.mp (show x.elements.all Scalar.isDefined = true from rfl)
  have hatom (s : Scalar) (h : s.isDefined = true) : (Noun.atom s).All fun s => s.isDefined = true :=
    List.forall_mem_singleton.mpr h
  have hplus := (arithmetic_fails_exactly hx (hatom infinity.neg rfl) .plus (by decide)).1
    fun hs => absurd hs.1 (by decide)
  have hshared := (arithmetic_fails_exactly hx (hatom infinity rfl) .divide (by decide)).2.1
    ⟨rfl, by decide, infinity, rfl, rfl⟩
  have hsum : Verb.plus.applyDyad x (.atom infinity.neg) = .error (.undefinedResult .plus) := by
    decide +kernel
  have hquotient : Verb.divide.applyDyad x (.atom infinity) = .error (.undefinedResult .divide) := by
    decide +kernel
  have hvalue : Verb.divide.applyDyad x (.atom tiny) = .ok (.list [infinity, .ofReal .zero]) := by
    decide +kernel
  obtain ⟨_, helement⟩ :=
    (arithmetic_fails_exactly hx (hatom tiny rfl) .divide (by decide)).2.2 _ hvalue
  refine ⟨hsum, ((hplus.undefined_iff _).mp hsum).2.2.1, hquotient,
    ((hshared.undefined_iff _).mp hquotient).2.2.1, _, hvalue, ?_, ?_⟩
  · exact ((helement 0 infinity tiny rfl rfl).2 rfl rfl).2 _ rfl rfl
  · exact ((helement 1 tiny tiny rfl rfl).2 rfl rfl).1 rfl

/-- The reciprocal of a large number counts as a zero. -/
theorem infinities_by_large_refused :
    let x := Noun.list [.ofReal (.infinite false), .ofReal (.infinite false)]
    let y := Noun.atom (.ofReal (.number (.ofNat (tenPow 308))))
    ((x.All fun s => s.isDefined = true) ∧ y.All fun s => s.isDefined = true) ∧
      ¬ Verb.divide.FailsExactly x y Verb.divide.Cancels (Verb.divide.applyDyad x y) := by
  intro x y
  have hx : x.elements.all Scalar.isDefined = true := rfl
  have hy : y.elements.all Scalar.isDefined = true := rfl
  refine ⟨⟨List.all_eq_true.mp hx, List.all_eq_true.mp hy⟩, fun h => ?_⟩
  have hrefused : Verb.divide.applyDyad x y = .error (.undefinedResult .divide) := by decide +kernel
  obtain ⟨_, _, ⟨i, a, b, _, hb, _, n, _, hinfinite⟩, _⟩ := (h.undefined_iff _).mp hrefused
  obtain rfl := Option.some.inj hb
  have hfinite : (Extended.ofNat (tenPow 308)).isInfinite = false := by decide +kernel
  rw [(Binary64.number_eq_infinite_iff.mp hinfinite).1] at hfinite
  cases hfinite

end JCalc
