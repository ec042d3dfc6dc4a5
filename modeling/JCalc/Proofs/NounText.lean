import JCalc.Noun.Text
import JCalc.Proofs.Numeral
import JCalc.Proofs.VerbResults
import Mathlib.Data.Set.List

/-! The text of a noun of real numbers: the literals of its numbers with single blanks
between them, as many as fit, and so nothing but digits and the few signs of numbers. -/

namespace JCalc

section

variable {p : Char → Bool} {width : Int} {shown : Text} {parts : List Text}

theorem forall_spaced (hs : p ' ' = true) (h : ∀ t ∈ parts, ∀ c ∈ t, p c = true) :
    ∀ c ∈ spaced parts, p c = true := by
  fun_induction spaced parts with
  | case1 => simp
  | case2 t => exact h t (by simp)
  | case3 t ts _ ih =>
    intro c hc
    rcases List.mem_append.mp hc with hc | hc
    · exact h t (by simp) c hc
    · rcases List.mem_cons.mp hc with rfl | hc
      · exact hs
      · exact ih (fun u hu => h u (by simp [hu])) c hc

theorem forall_cutAt (hs : p ' ' = true) (hd : p '.' = true) (hshown : ∀ c ∈ shown, p c = true)
    (h : ∀ t ∈ parts, ∀ c ∈ t, p c = true) : ∀ c ∈ cutAt width shown parts, p c = true := by
  have hdots : ∀ c ∈ ellipsis, p c = true := by simp [ellipsis, hs, hd]
  induction parts generalizing shown with
  | nil => exact List.forall_mem_append.mpr ⟨hshown, hdots⟩
  | cons t ts ih =>
    rw [cutAt]
    split
    · exact List.forall_mem_append.mpr ⟨hshown, hdots⟩
    · refine ih (List.forall_mem_append.mpr ⟨hshown, ?_⟩) (fun u hu => h u (by simp [hu]))
      exact List.forall_mem_cons.mpr ⟨hs, h t (by simp)⟩

theorem fit_cases (width : Option Int) (parts : List Text) :
    fit width parts = spaced parts ∨
      ∃ w t ts, parts = t :: ts ∧ fit width parts = cutAt w t ts := by
  rcases width with _ | w <;> rcases parts with _ | ⟨t, _ | ⟨u, us⟩⟩
  case some.cons.cons =>
    simp only [fit]
    split
    · exact .inl rfl
    · exact .inr ⟨w, t, u :: us, rfl, rfl⟩
  all_goals exact .inl rfl

theorem forall_fit (width : Option Int) (hs : p ' ' = true) (hd : p '.' = true)
    (h : ∀ t ∈ parts, ∀ c ∈ t, p c = true) : ∀ c ∈ fit width parts, p c = true := by
  rcases fit_cases width parts with hfit | ⟨w, t, ts, rfl, hfit⟩
  · rw [hfit]
    exact forall_spaced hs h
  · rw [hfit]
    exact forall_cutAt hs hd (h t (by simp)) (fun u hu => h u (by simp [hu]))

theorem prefix_cutAt : shown <+: cutAt width shown parts := by
  induction parts generalizing shown with
  | nil => exact List.prefix_append shown ellipsis
  | cons t ts ih =>
    rw [cutAt]
    split
    · exact List.prefix_append shown ellipsis
    · exact (List.prefix_append shown (' ' :: t)).trans ih

theorem prefix_spaced (t : Text) (ts : List Text) : t <+: spaced (t :: ts) := by
  cases ts with
  | nil => exact List.prefix_refl t
  | cons u us => exact List.prefix_append t _

theorem prefix_fit (width : Option Int) (t : Text) (ts : List Text) : t <+: fit width (t :: ts) := by
  rcases fit_cases width (t :: ts) with hfit | ⟨w, u, us, ⟨⟩, hfit⟩
  · rw [hfit]
    exact prefix_spaced t ts
  · rw [hfit]
    exact prefix_cutAt

end

theorem exists_numbers {es : List Scalar} (h : ∀ e ∈ es, e.isDefined = true) :
    ∃ xs : List Number, es = xs.map Number.toScalar := by
  have hrange : es ∈ Set.range (List.map Number.toScalar) := by
    rw [Set.range_list_map]
    intro e he
    obtain ⟨hre, him⟩ := e.isDefined_iff.mp (h e he)
    obtain ⟨_ | re, _ | im⟩ := e
    · cases hre
    · cases hre
    · cases him
    · exact ⟨⟨re, im⟩, rfl⟩
  obtain ⟨xs, hxs⟩ := hrange
  exact ⟨xs, hxs.symm⟩

theorem exists_realNumbers {es : List Scalar} (hre : ∀ e ∈ es, e.re.isNaN = false)
    (him : ∀ e ∈ es, ∃ negative, e.im = .number ⟨negative, .zero⟩) :
    ∃ xs : List Number, es = xs.map Number.toScalar ∧ ∀ x ∈ xs, x.isReal = true := by
  have hdefined : ∀ e ∈ es, e.isDefined = true := by
    intro e he
    obtain ⟨negative, hi⟩ := him e he
    exact e.isDefined_iff.mpr ⟨hre e he, by rw [hi]; rfl⟩
  obtain ⟨xs, rfl⟩ := exists_numbers hdefined
  refine ⟨xs, rfl, fun x hx => ?_⟩
  obtain ⟨negative, hi⟩ := him x.toScalar (List.mem_map_of_mem hx)
  have him : x.im = ⟨negative, .zero⟩ := Binary64.number.inj hi
  rw [Number.isReal, him]
  rfl

theorem mapM_number?_toScalar (xs : List Number) :
    (xs.map Number.toScalar).mapM Scalar.number? = some xs := by
  induction xs with
  | nil => rfl
  | cons x xs ih =>
    rw [List.map_cons, List.mapM_cons, ih]
    rfl

theorem text_eq_of_isReal {x : Number} (h : x.isReal = true) : x.text = x.re.literal.text := by
  rw [Number.text, if_pos h, Number.realText_eq]

theorem wellFormed_literals (xs : List Number) : ∀ l ∈ xs.map fun x => x.re.literal, l.WellFormed := by
  intro l hl
  obtain ⟨x, _, rfl⟩ := List.mem_map.mp hl
  exact x.re.wellFormed_literal

theorem text_of_numbers {x : Noun} {ns : List Number} (h : x.elements = ns.map Number.toScalar)
    (width : Option Int) : x.text width = .ok (fit width (ns.map Number.text)) := by
  rw [Noun.text, Noun.numbers, h, mapM_number?_toScalar]
  rfl

theorem text_of_realNumbers {n : Noun} {xs : List Number} (h : n.elements = xs.map Number.toScalar)
    (hreal : ∀ x ∈ xs, x.isReal = true) (width : Option Int) :
    n.text width = .ok (fit width ((xs.map fun x => x.re.literal).map Literal.text)) := by
  have htexts : xs.map Number.text = (xs.map fun x => x.re.literal).map Literal.text := by
    rw [List.map_map]
    exact List.map_congr_left fun x hx => text_eq_of_isReal (hreal x hx)
  rw [text_of_numbers h, htexts]

end JCalc
