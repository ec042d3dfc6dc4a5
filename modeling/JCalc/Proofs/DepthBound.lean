import JCalc.Session
import JCalc.Proofs.Nesting
import JCalc.Proofs.Runs

/-! The limit on depth. A group is entered at a depth that is the number of groups it lies in,
itself included, and an evaluation that has a value has entered every group. Limits on depth
differ only at the moment at which the lower of them is reached and a further group is to be
entered. -/

namespace JCalc

section

variable {limits limits' : Limits} {tokens before inside after : List Token}
  {opening closing : Token} {m m' : Moment}

/-- A parenthesis that closes a group is not passed but by entering the group. -/
theorem left_of_moves (hp : Partners tokens before opening inside closing after)
    (hm : m.Located tokens) (hmoves : Moves limits m m')
    (h : before ++ opening :: (inside ++ [closing]) <+: m.left) :
    before ++ opening :: (inside ++ [closing]) <+: m'.left ∨
      m'.stack = [] ∧ m'.before = inside.reverse ∧ m'.left = before ++ opening :: inside := by
  have last {t : Token} (hleft : m.left = m'.left ++ [t]) :
      before ++ opening :: (inside ++ [closing]) <+: m'.left ∨
        m'.left = before ++ opening :: inside ∧ t = closing := by
    rw [hleft] at h
    rcases List.prefix_concat_iff.mp h with heq | hleading
    · have hcut : (before ++ opening :: inside) ++ [closing] = m'.left ++ [t] := by simpa using heq
      obtain ⟨hl, ht⟩ := List.append_inj' hcut rfl
      exact .inr ⟨hl.symm, (List.singleton_inj.mp ht).symm⟩
    · exact .inl hleading
  cases hmoves with
  | rest => exact .inl h
  | @pass _ t _ ht hb =>
    rcases last (t := t) (by simp [Moment.left, hb]) with hl | ⟨_, heq⟩
    · exact .inl hl
    · rw [heq, hp.closes] at ht
      cases ht
  | @leave _ level _ hb ho =>
    obtain ⟨passed, right, _, he⟩ := hm
    rw [ho] at he
    cases he with
    | group _ hopen _ _ _ =>
      rcases last (t := level.opening) (by simp [Moment.left, hb, ho, outside]) with hl | ⟨_, heq⟩
      · exact .inl hl
      · rw [heq, hp.closes] at hopen
        cases hopen
  | @enter t _ g ht hb hg _ =>
    obtain ⟨hopen, rfl⟩ := eq_of_closeGroup? hg
    rcases last (t := t) (by simp [Moment.left, hb, outside]) with hl | ⟨hleft, _⟩
    · exact .inl hl
    have hcut : outside m.outer ++ g.before.reverse ++ g.opening :: g.inside.reverse =
        before ++ opening :: inside := by simpa [Moment.left, outside] using hleft
    obtain ⟨_, _, hinside⟩ :=
      opening_unique hcut hopen hp.opens (balanced_of_closeGroup? hg) hp.balanced
    exact .inr ⟨rfl, by rw [← hinside, List.reverse_reverse], hleft⟩

theorem exists_last_moment {value : Option Noun} (h : evaluate limits tokens = .ok value) :
    ∃ m : Moment, m.Occurs limits tokens ∧ m.left = [] := by
  obtain ⟨r, hl, he⟩ := leads_evaluate limits tokens
  rw [he] at h
  rcases r with fault | e
  · cases h
  rcases Relation.ReflTransGen.cases_tail hl with hb | ⟨_, hm, ⟨m, rfl, hnext⟩⟩
  · unfold begin at hb
    split_ifs at hb
    cases hb
  · rcases next_cases limits m with ⟨_, hw, _⟩ | ⟨_, hw, _⟩ | ⟨_, _, hb, ho⟩
    · rw [hnext] at hw
      cases hw
    · rw [hnext] at hw
      cases hw
    · exact ⟨m, hm, by simp [Moment.left, hb, ho, outside]⟩

/-- An evaluation that has a value has entered every group. -/
theorem Partners.entered (hp : Partners tokens before opening inside closing after)
    {value : Option Noun} (h : evaluate limits tokens = .ok value) :
    ∃ m : Moment, m.Occurs limits tokens ∧ m.stack = [] ∧ m.before = inside.reverse ∧
      m.left = before ++ opening :: inside := by
  by_contra hno
  obtain ⟨last, hlast, hend⟩ := exists_last_moment h
  suffices hleading : before ++ opening :: (inside ++ [closing]) <+: last.left by
    rw [hend] at hleading
    simp at hleading
  refine occurs_induction (p := fun m => before ++ opening :: (inside ++ [closing]) <+: m.left)
    (fun _ => ?_) (fun {m m'} hm hm' hleading hmoves => ?_) hlast
  · exact ⟨after, by simp [Moment.left, outside, hp.tokens_eq]⟩
  · rcases left_of_moves hp (located_of_occurs hm) hmoves hleading with hl | hentered
    · exact hl
    · exact absurd ⟨m', hm', hentered⟩ hno

theorem Moment.Located.outer_length (h : m.Located tokens) {right : List Token}
    (hright : m.left ++ right = tokens) : m.outer.length = nesting m.left right := by
  obtain ⟨right', hright', hn⟩ := h.nesting_eq
  obtain rfl := List.append_cancel_left (hright.trans hright'.symm)
  exact hn.symm

/-- Moments lead to the same under either limit, unless a group is to be entered that is too deep
for the lower one. -/
theorem next_eq_or_tooDeep (hsize : limits.size = limits'.size)
    (hdepth : limits.depth ≤ limits'.depth) (m : Moment) :
    m.next limits = m.next limits' ∨
      (∃ t before g, t.kind = .rightParen ∧ m.before = t :: before ∧
        closeGroup? 0 before = some g) ∧
      limits.depth < m.outer.length + 1 ∧
      m.next limits = .answered (.error (.tooDeep (m.outer.length + 1) limits.depth)) := by
  obtain ⟨size, depth⟩ := limits
  obtain ⟨size', depth'⟩ := limits'
  obtain ⟨stack, before, outer⟩ := m
  dsimp only at hsize hdepth ⊢
  subst hsize
  unfold Moment.next
  dsimp only
  cases redex? size stack with
  | some r =>
    obtain ⟨above, value, below⟩ := r
    cases value <;> exact .inl rfl
  | none =>
    rcases before with _ | ⟨t, before⟩
    · exact .inl rfl
    · dsimp only [Moment.shift]
      cases hk : t.kind with
      | rightParen =>
        cases hg : closeGroup? 0 before with
        | none => exact .inl rfl
        | some g =>
          by_cases hd : depth < (outer.length : Int) + 1
          · simp only [hd, if_true]
            exact .inr ⟨⟨t, before, g, hk, rfl, hg⟩, trivial, trivial⟩
          · have hd' : ¬ depth' < (outer.length : Int) + 1 := by omega
            simp only [hd, hd', if_false]
            exact .inl trivial
      | _ => exact .inl rfl

/-- The group that is to be entered lies one deeper than the place of work. -/
theorem Moment.Located.exists_group (h : m.Located tokens) {t : Token} {front : List Token}
    {g : Group} (ht : t.kind = .rightParen) (hb : m.before = t :: front)
    (hg : closeGroup? 0 front = some g) :
    ∃ before opening inside closing after, Partners tokens before opening inside closing after ∧
      nesting (before ++ opening :: inside) (closing :: after) = m.outer.length + 1 := by
  obtain ⟨passed, right, hp, he⟩ := h
  rw [hb] at he
  have hinside := he.enter m.stack ht hg hp
  have hbalanced := balanced_of_closeGroup? hg
  have hcut : g.inside.reverse = g.inside.reverse ++ [] ++ [] := by simp
  have hn := hinside.nesting_eq hcut .empty .empty
  have htokens := hinside.tokens_eq
  refine ⟨outside m.outer ++ g.before.reverse, g.opening, g.inside.reverse, t, passed ++ right,
    ⟨?_, (eq_of_closeGroup? hg).1, ht, hbalanced⟩, ?_⟩
  · simpa [outside] using htokens.symm
  · simpa [outside] using hn

/-- A group lies deeper than the limit says, itself counted. -/
def NestedDeeper (tokens : List Token) (limit : Int) : Prop :=
  ∃ before opening inside closing after, Partners tokens before opening inside closing after ∧
    limit < nesting (before ++ opening :: inside) (closing :: after)

theorem not_nestedDeeper_of_evaluate {value : Option Noun} (h : evaluate limits tokens = .ok value) :
    ¬ NestedDeeper tokens limits.depth := by
  rintro ⟨before, opening, inside, closing, after, hp, hn⟩
  obtain ⟨m, hm, _, _, hleft⟩ := hp.entered h
  have hright : m.left ++ closing :: after = tokens := by simp [hleft, hp.tokens_eq]
  have hlength := (located_of_occurs hm).outer_length hright
  rw [hleft] at hlength
  have := length_outer_le hm
  omega

theorem evaluate_eq_or_tooDeep (hsize : limits.size = limits'.size) (h0 : 0 ≤ limits.depth)
    (hdepth : limits.depth ≤ limits'.depth) (tokens : List Token) :
    evaluate limits tokens = evaluate limits' tokens ∨
      evaluate limits tokens = .error (.tooDeep (limits.depth + 1) limits.depth) ∧
        NestedDeeper tokens limits.depth := by
  have hbegin : begin limits tokens = begin limits' tokens := by
    unfold begin
    rw [if_neg (by omega), if_neg (by omega)]
  have hs : ∀ m : Moment, m.Occurs limits tokens → m.Occurs limits' tokens →
      m.next limits = m.next limits' ∨
      ∃ fault, (fault = .tooDeep (limits.depth + 1) limits.depth ∧
        NestedDeeper tokens limits.depth) ∧ m.next limits = .answered (.error fault) := by
    intro m hm _
    rcases next_eq_or_tooDeep hsize hdepth m with heq | ⟨⟨t, front, g, ht, hb, hg⟩, hd, hnext⟩
    · exact .inl heq
    have hlength : (m.outer.length : Int) = limits.depth := by
      have := length_outer_le hm
      omega
    obtain ⟨before, opening, inside, closing, after, hp, hn⟩ :=
      (located_of_occurs hm).exists_group ht hb hg
    rw [hlength] at hnext
    exact .inr ⟨_, ⟨rfl, before, opening, inside, closing, after, hp, by omega⟩, hnext⟩
  rcases evaluate_eq_or_cut hbegin hs with heq | ⟨_, ⟨rfl, hgroup⟩, hend⟩
  · exact .inl heq
  · exact .inr ⟨hend, hgroup⟩

end

end JCalc
