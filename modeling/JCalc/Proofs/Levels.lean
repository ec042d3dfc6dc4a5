import JCalc.Proofs.Partners
import JCalc.Proofs.Transitions

/-! The levels of an evaluation. One moment follows another without a token, by passing a token
that is no parenthesis, by entering the group that a closing one ends, or by leaving a group at
its opening one. So the tokens are gone through one by one from the right, and the levels that
wait are those of matched groups around the place of work. -/

namespace JCalc

/-- How one moment follows another, as far as tokens and levels go. -/
inductive Moves (limits : Limits) (m : Moment) : Moment → Prop where
  | rest {stack : List Entry} : Moves limits m { m with stack }
  | pass {stack : List Entry} {t : Token} {before : List Token} (ht : t.kind.isParen = false)
      (hb : m.before = t :: before) : Moves limits m ⟨stack, before, m.outer⟩
  | enter {t : Token} {before : List Token} {g : Group} (ht : t.kind = .rightParen)
      (hb : m.before = t :: before) (hg : closeGroup? 0 before = some g)
      (hd : (m.outer.length : Int) + 1 ≤ limits.depth) :
      Moves limits m ⟨[], g.inside, ⟨g.opening, m.stack, g.before⟩ :: m.outer⟩
  | leave {stack : List Entry} {level : Suspended} {outer : List Suspended} (hb : m.before = [])
      (ho : m.outer = level :: outer) : Moves limits m ⟨stack, level.before, outer⟩

/-- The ways in which an evaluation fails at a moment. -/
inductive FailsAt (limits : Limits) (m : Moment) : Fault → Prop where
  | redex {r : Redex} {fault : Fault} (hr : redex? limits.size m.stack = some r)
      (hv : r.value = .error fault) : FailsAt limits m fault
  | unknownVerb (spelling : Text) : FailsAt limits m (.unknownVerb spelling)
  | unmatchedOpen {t : Token} {before : List Token} (ht : t.kind = .leftParen)
      (hb : m.before = t :: before) : FailsAt limits m (.unmatchedOpen t.place)
  | unmatchedClose {t : Token} {before : List Token} (ht : t.kind = .rightParen)
      (hb : m.before = t :: before) (hg : closeGroup? 0 before = none) :
      FailsAt limits m (.unmatchedClose t.place)
  | tooDeep {t : Token} {before : List Token} {g : Group} (ht : t.kind = .rightParen)
      (hb : m.before = t :: before) (hg : closeGroup? 0 before = some g)
      (hd : limits.depth < (m.outer.length : Int) + 1) :
      FailsAt limits m (.tooDeep (m.outer.length + 1) limits.depth)
  | strayToken (label : Text) (place : Int) : FailsAt limits m (.strayToken label place)
  | emptyGroup (place : Int) : FailsAt limits m (.emptyGroup place)
  | irreducible : FailsAt limits m .irreducible
  | noRightArgument (v : Verb) : FailsAt limits m (.noRightArgument v)

section

variable {limits : Limits} {m m' : Moment} {fault : Fault}

/-- What a moment can lead to, as far as tokens and levels go. -/
theorem next_cases (limits : Limits) (m : Moment) :
    (∃ m', m.next limits = .working m' ∧ Moves limits m m') ∨
    (∃ fault, m.next limits = .answered (.error fault) ∧ FailsAt limits m fault) ∨
    ∃ e, m.next limits = .answered (.ok e) ∧ m.before = [] ∧ m.outer = [] := by
  have hadvances := advances_next limits m
  generalize m.next limits = p at hadvances ⊢
  cases hadvances with
  | reduce | mark => exact .inl ⟨_, rfl, .rest⟩
  | number _ hb ht | verb _ hb ht _ | finish _ hb ht => exact .inl ⟨_, rfl, .pass (by rw [ht]; rfl) hb⟩
  | enter _ hb ht hg hd => exact .inl ⟨_, rfl, .enter ht hb hg hd⟩
  | leave _ hb _ _ ho => exact .inl ⟨_, rfl, .leave hb ho⟩
  | refuse hr hv => exact .inr (.inl ⟨_, rfl, .redex hr hv⟩)
  | unknownVerb => exact .inr (.inl ⟨_, rfl, .unknownVerb _⟩)
  | tooDeep hb ht hg hd => exact .inr (.inl ⟨_, rfl, .tooDeep ht hb hg hd⟩)
  | unmatchedClose hb ht hg => exact .inr (.inl ⟨_, rfl, .unmatchedClose ht hb hg⟩)
  | unmatchedOpen hb ht => exact .inr (.inl ⟨_, rfl, .unmatchedOpen ht hb⟩)
  | strayToken => exact .inr (.inl ⟨_, rfl, .strayToken _ _⟩)
  | emptyGroup => exact .inr (.inl ⟨_, rfl, .emptyGroup _⟩)
  | unfinished _ _ hf =>
    rcases fault_of_finish hf with rfl | ⟨v, rfl⟩
    · exact .inr (.inl ⟨_, rfl, .irreducible⟩)
    · exact .inr (.inl ⟨_, rfl, .noRightArgument v⟩)
  | answer hb _ ho => exact .inr (.inr ⟨_, rfl, hb, ho⟩)

theorem moves_of_next (h : m.next limits = .working m') : Moves limits m m' := by
  rcases next_cases limits m with ⟨_, hw, hm⟩ | ⟨_, hw, _⟩ | ⟨_, hw, _⟩
  · rw [h] at hw
    cases hw
    exact hm
  · rw [h] at hw
    cases hw
  · rw [h] at hw
    cases hw

theorem failsAt_of_next (h : m.next limits = .answered (.error fault)) : FailsAt limits m fault := by
  rcases next_cases limits m with ⟨_, hw, _⟩ | ⟨_, hw, hm⟩ | ⟨_, hw, _⟩
  · rw [h] at hw
    cases hw
  · rw [h] at hw
    cases hw
    exact hm
  · rw [h] at hw
    cases hw

end

/-- The tokens left of what the given levels wait for, up to its opening parenthesis. -/
def outside : List Suspended → List Token
  | [] => []
  | level :: outer => outside outer ++ level.before.reverse ++ [level.opening]

/-- All tokens left of the place of work, on whatever level they will be shifted. -/
def Moment.left (m : Moment) : List Token := outside m.outer ++ m.before.reverse

/-- The levels wait for matched groups, each inside the next, with the given tokens inside the
innermost one and right of it. -/
inductive Encloses (tokens : List Token) : List Suspended → List Token → List Token → Prop where
  | whole : Encloses tokens [] tokens []
  | group {level : Suspended} {outer : List Suspended} {closing : Token}
      {inside passed right : List Token}
      (h : Encloses tokens outer
        (level.before.reverse ++ level.opening :: (inside ++ closing :: passed)) right)
      (ho : level.opening.kind = .leftParen) (hc : closing.kind = .rightParen)
      (hi : Balanced inside) (hp : Balanced passed) :
      Encloses tokens (level :: outer) inside (closing :: (passed ++ right))

/-- The moment is somewhere in the tokens, with balanced ones passed on its level. -/
def Moment.Located (tokens : List Token) (m : Moment) : Prop :=
  ∃ passed right, Balanced passed ∧ Encloses tokens m.outer (m.before.reverse ++ passed) right

section

variable {limits : Limits} {tokens inside right : List Token} {outer : List Suspended}
  {m m' : Moment}

theorem Encloses.tokens_eq (h : Encloses tokens outer inside right) :
    outside outer ++ inside ++ right = tokens := by
  induction h with
  | whole => simp [outside]
  | group _ _ _ _ _ ih => simpa [outside] using ih

theorem Encloses.balanced (h : Encloses tokens outer inside right) (ho : outer ≠ []) :
    Balanced inside := by
  cases h with
  | whole => exact absurd rfl ho
  | group _ _ _ hi _ => exact hi

theorem Encloses.enter {t : Token} {before passed : List Token} {g : Group}
    (h : Encloses tokens outer ((t :: before).reverse ++ passed) right) (stack : List Entry)
    (ht : t.kind = .rightParen) (hg : closeGroup? 0 before = some g) (hp : Balanced passed) :
    Encloses tokens (⟨g.opening, stack, g.before⟩ :: outer) g.inside.reverse
      (t :: (passed ++ right)) := by
  obtain ⟨ho, rfl⟩ := eq_of_closeGroup? hg
  refine .group ?_ ho ht (balanced_of_closeGroup? hg) hp
  simpa using h

theorem located_of_moves (h : m.Located tokens) (hm : Moves limits m m') : m'.Located tokens := by
  obtain ⟨passed, right, hp, he⟩ := h
  cases hm with
  | rest => exact ⟨passed, right, hp, he⟩
  | @pass _ t before ht hb =>
    refine ⟨t :: passed, right, .append (.plain ht) hp, ?_⟩
    rw [hb] at he
    simpa using he
  | enter ht hb hg _ =>
    rw [hb] at he
    have hinside := he.enter m.stack ht hg hp
    rw [← List.append_nil (List.reverse _)] at hinside
    exact ⟨[], _, .empty, hinside⟩
  | @leave _ level outer hb ho =>
    rw [hb, ho] at he
    cases he with
    | @group _ _ closing _ passed' right' h hopen hc hi hp' =>
      refine ⟨level.opening :: (passed ++ [closing]) ++ passed', right', ?_, ?_⟩
      · exact .append (.group hopen hc hp) hp'
      · simpa using h

/-- What holds where an evaluation begins, and is kept from one moment to the next, holds at every
moment. -/
theorem occurs_induction_next {p : Moment → Prop}
    (hb : 0 ≤ limits.depth → p ⟨[], tokens.reverse, []⟩)
    (hs : ∀ {m m'}, m.Occurs limits tokens → m'.Occurs limits tokens → p m →
      m.next limits = .working m' → p m')
    (h : m.Occurs limits tokens) : p m := by
  suffices hp : ∀ a, Leads limits (begin limits tokens) a → ∀ m, a = .working m → p m from
    hp _ h m rfl
  intro a ha
  induction ha with
  | refl =>
    intro m hm
    unfold begin at hm
    split_ifs at hm with hd
    cases hm
    exact hb (by omega)
  | tail hl hstep ih =>
    rintro m' rfl
    have hl' := hl.tail hstep
    obtain ⟨m, rfl, hnext⟩ := hstep
    exact hs hl hl' (ih m rfl) hnext

/-- The same after every move. -/
theorem occurs_induction {p : Moment → Prop} (hb : 0 ≤ limits.depth → p ⟨[], tokens.reverse, []⟩)
    (hs : ∀ {m m'}, m.Occurs limits tokens → m'.Occurs limits tokens → p m → Moves limits m m' →
      p m')
    (h : m.Occurs limits tokens) : p m :=
  occurs_induction_next hb (fun hm hm' hp hnext => hs hm hm' hp (moves_of_next hnext)) h

theorem located_of_occurs (h : m.Occurs limits tokens) : m.Located tokens := by
  refine occurs_induction (fun _ => ?_) (fun _ _ => located_of_moves) h
  exact ⟨[], [], .empty, by simpa using Encloses.whole⟩

theorem length_outer_le (h : m.Occurs limits tokens) : (m.outer.length : Int) ≤ limits.depth := by
  refine occurs_induction (p := fun m => (m.outer.length : Int) ≤ limits.depth) id ?_ h
  intro m m' _ _ hle hm
  cases hm with
  | rest | pass => exact hle
  | enter _ _ _ hd => simpa using hd
  | leave _ ho =>
    rw [ho, List.length_cons] at hle
    push_cast at hle
    exact Int.le_of_lt (Int.lt_of_add_one_le hle)

end

end JCalc
