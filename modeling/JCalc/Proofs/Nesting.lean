import JCalc.Proofs.Levels
import Mathlib.Data.Set.Card

/-! How deep a place between two tokens lies: in how many groups. Balanced tokens on either side
of the place do not count, and one more group around everything counts one. So at every moment
the levels that wait are as many as the groups around the place of work. -/

namespace JCalc

/-- A group opened after `before` holds the place between the two lists of tokens. -/
inductive GroupAround (left right before : List Token) : Prop where
  | intro {l r after : List Token} {opening closing : Token} (hl : left = before ++ opening :: l)
      (hr : right = r ++ closing :: after)
      (h : Partners (left ++ right) before opening (l ++ r) closing after)

/-- The number of groups around the place between the two lists of tokens. -/
noncomputable def nesting (left right : List Token) : Nat :=
  {before | GroupAround left right before}.ncard

section

variable {a b left right before inside middle l r after : List Token} {opening closing : Token}

theorem groupAround_of_balanced (ho : opening.kind = .leftParen) (hc : closing.kind = .rightParen)
    (h : Balanced (l ++ r)) :
    GroupAround (before ++ opening :: l) (r ++ closing :: after) before :=
  ⟨rfl, rfl, ⟨by simp, ho, hc, h⟩⟩

/-- Balanced tokens right of the place close no group around it. -/
theorem groupAround_right_iff (hm : Balanced middle) :
    GroupAround left (middle ++ right) before ↔ GroupAround left right before := by
  constructor
  · rintro @⟨l, r, after, opening, closing, rfl, hr, ⟨_, ho, hc, h⟩⟩
    rcases split_append hr with ⟨e, rfl, _⟩ | ⟨e, rfl, rfl⟩
    · have hnonneg := hm.excess_nonneg (a := r ++ [closing]) ⟨e, by simp⟩
      rw [excess_append, excess_right hc] at hnonneg
      have := h.excess_of_append
      omega
    · exact groupAround_of_balanced ho hc ((balanced_around_iff hm).mp h)
  · rintro ⟨rfl, rfl, ⟨_, ho, hc, h⟩⟩
    rw [← List.append_assoc]
    exact groupAround_of_balanced ho hc ((balanced_around_iff hm).mpr h)

/-- Balanced tokens left of the place open no group around it. -/
theorem groupAround_left_iff (hm : Balanced middle) :
    GroupAround (left ++ middle) right before ↔ GroupAround left right before := by
  constructor
  · rintro @⟨l, r, after, opening, closing, hl, rfl, ⟨_, ho, hc, h⟩⟩
    rcases split_append hl with ⟨e, rfl, rfl⟩ | ⟨e, rfl, rfl⟩
    · rw [List.append_assoc, balanced_around_iff hm] at h
      exact groupAround_of_balanced ho hc h
    · have hzero := hm.excess_eq
      have hnonneg := hm.excess_nonneg (List.prefix_append e (opening :: l))
      rw [excess_append, excess_left ho] at hzero
      have := h.excess_of_append
      omega
  · rintro @⟨l, r, after, opening, closing, rfl, rfl, ⟨_, ho, hc, h⟩⟩
    have hinside : Balanced (l ++ middle ++ r) := by
      rw [List.append_assoc]
      exact (balanced_around_iff hm).mpr h
    have hcut : before ++ opening :: l ++ middle = before ++ opening :: (l ++ middle) := by simp
    rw [hcut]
    exact groupAround_of_balanced ho hc hinside

/-- Of the groups that hold the place between two parentheses one consists of these. -/
theorem groupAround_pair_iff (ho : opening.kind = .leftParen) (hc : closing.kind = .rightParen) :
    GroupAround (a ++ [opening]) (closing :: b) before ↔ before = a ∨ GroupAround a b before := by
  have hpair : Balanced [opening, closing] := .group ho hc .empty
  constructor
  · rintro @⟨l, r, after, opening', closing', hl, hr, ⟨_, ho', hc', h⟩⟩
    rcases split_append hl with ⟨e, rfl, rfl⟩ | ⟨e, rfl, he⟩
    · rcases List.cons_eq_append_iff.mp hr with ⟨rfl, _⟩ | ⟨f, rfl, rfl⟩
      · rw [List.append_nil] at h
        have hopening := h.excess_of_append.2
        rw [excess_opening ho] at hopening
        omega
      · refine .inr (groupAround_of_balanced ho' hc' ((balanced_around_iff hpair).mp ?_))
        simpa using h
    · obtain ⟨rfl, _⟩ := List.append_eq_singleton_iff.mp he.symm |>.resolve_right (by simp)
      exact .inl (List.append_nil a)
  · rintro (rfl | @⟨l, r, after, opening', closing', rfl, rfl, ⟨_, ho', hc', h⟩⟩)
    · exact groupAround_of_balanced (l := []) (r := []) ho hc .empty
    · have hinside : Balanced (l ++ [opening] ++ closing :: r) := by
        simpa using (balanced_around_iff hpair).mpr h
      have hgroup : GroupAround (before ++ opening' :: (l ++ [opening]))
          (closing :: r ++ closing' :: after) before := groupAround_of_balanced ho' hc' hinside
      simpa using hgroup

theorem not_groupAround_end : ¬ GroupAround left [] before := by
  rintro ⟨_, hr, _⟩
  simp at hr

theorem not_groupAround_self : ¬ GroupAround left right left := by
  rintro ⟨hl, _, _⟩
  simp at hl

theorem finite_groupAround (left right : List Token) :
    {before | GroupAround left right before}.Finite := by
  refine left.inits.finite_toSet.subset ?_
  rintro before ⟨rfl, _, _⟩
  simp

theorem nesting_right (hm : Balanced middle) :
    nesting left (middle ++ right) = nesting left right := by
  simp only [nesting, groupAround_right_iff hm]

theorem nesting_left (hm : Balanced middle) :
    nesting (left ++ middle) right = nesting left right := by
  simp only [nesting, groupAround_left_iff hm]

theorem nesting_end : nesting left [] = 0 := by
  have hempty : {before | GroupAround left [] before} = ∅ :=
    Set.eq_empty_of_forall_notMem fun _ => not_groupAround_end
  rw [nesting, hempty, Set.ncard_empty]

theorem nesting_pair (ho : opening.kind = .leftParen) (hc : closing.kind = .rightParen) :
    nesting (a ++ [opening]) (closing :: b) = nesting a b + 1 := by
  have hinsert : {before | GroupAround (a ++ [opening]) (closing :: b) before} =
      insert a {before | GroupAround a b before} :=
    Set.ext fun _ => groupAround_pair_iff ho hc
  have hnot : a ∉ {before | GroupAround a b before} := not_groupAround_self
  rw [nesting, hinsert, Set.ncard_insert_of_notMem hnot (finite_groupAround a b), nesting]

end

section

variable {limits : Limits} {tokens inside l middle r right : List Token} {outer : List Suspended}
  {m : Moment}

/-- The levels that wait are as many as the groups around any place on the level at work that
has balanced tokens right of it there. -/
theorem Encloses.nesting_eq (h : Encloses tokens outer inside right)
    (hcut : inside = l ++ middle ++ r) (hm : Balanced middle) (hr : Balanced r) :
    nesting (outside outer ++ l) (r ++ right) = outer.length := by
  rw [nesting_right hr]
  induction h generalizing l middle r with
  | whole => exact nesting_end
  | @group level outer closing inside passed right _ ho hc hi hp ih =>
    have hl : Balanced l := by
      rw [hcut, List.append_assoc, balanced_around_iff hm] at hi
      exact hi.of_append_right hr
    have hgroup : Balanced (level.opening :: (inside ++ [closing])) := .group ho hc hi
    rw [nesting_left hl, outside, nesting_pair ho hc, nesting_right hp,
      ih (by simp) hgroup hp, List.length_cons]

theorem Moment.Located.nesting_eq (h : m.Located tokens) :
    ∃ right, m.left ++ right = tokens ∧ nesting m.left right = m.outer.length := by
  obtain ⟨passed, right, hp, he⟩ := h
  have hcut : m.before.reverse ++ passed = m.before.reverse ++ [] ++ passed := by simp
  exact ⟨passed ++ right, by simpa [Moment.left] using he.tokens_eq, he.nesting_eq hcut .empty hp⟩

end

end JCalc
