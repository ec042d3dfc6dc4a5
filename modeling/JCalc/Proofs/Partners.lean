import JCalc.Proofs.Balanced
import Mathlib.Data.List.Basic

/-! Partners of parentheses. Tokens balance just when they close as much as they open and, from
the left, never more. The search for the partner of a closing parenthesis finds the opening one
that only balanced tokens separate from it, if there is one, and in balanced tokens every
parenthesis has a partner. -/

namespace JCalc

section

variable {ts a b middle : List Token} {t : Token} {n : Nat} {g : Group}

theorem excess_opening (h : t.kind = .leftParen) : excess [t] = 1 := excess_left h []

theorem excess_reverse (ts : List Token) : excess ts.reverse = excess ts := by
  simp only [excess, List.countP_reverse]

theorem isParen_cases (t : Token) :
    t.kind.isParen = false ∨ t.kind = .leftParen ∨ t.kind = .rightParen := by
  cases t.kind <;> simp [TokenKind.isParen]

/-- What the search passes over opens, from the left, at least as much as it closes, and in the
end as much more as was to be made up for. -/
theorem excess_of_closeGroup? (h : closeGroup? n ts = some g) :
    excess g.inside.reverse = n ∧ ∀ a, a <+: g.inside.reverse → 0 ≤ excess a := by
  induction ts generalizing n g with
  | nil => cases h
  | cons t before ih =>
    have push {k : Nat} (hk : k + excess [t] = n)
        (hp : (closeGroup? k before).map (Group.push t) = some g) :
        excess g.inside.reverse = n ∧ ∀ a, a <+: g.inside.reverse → 0 ≤ excess a := by
      obtain ⟨g, hg, rfl⟩ := Option.map_eq_some_iff.mp hp
      obtain ⟨hsum, hleading⟩ := ih hg
      have htotal : excess (g.inside.reverse ++ [t]) = n := by rw [excess_append, hsum, hk]
      simp only [Group.push, List.reverse_cons]
      refine ⟨htotal, fun a ha => ?_⟩
      rcases List.prefix_concat_iff.mp ha with rfl | ha
      · omega
      · exact hleading a ha
    rcases isParen_cases t with hk | hk | hk
    · rw [closeGroup?_plain hk] at h
      exact push (by rw [excess_plain hk]; omega) h
    · cases n with
      | zero =>
        rw [closeGroup?_left_zero hk] at h
        cases h
        refine ⟨rfl, fun a ha => ?_⟩
        obtain rfl := List.prefix_nil.mp ha
        exact Int.le_refl 0
      | succ n =>
        rw [closeGroup?_left_succ hk] at h
        exact push (by rw [excess_opening hk]; push_cast; rfl) h
    · rw [closeGroup?_right hk] at h
      exact push (by rw [excess_right hk]; omega) h

/-- A search in vain has not seen more opening parentheses than it had to make up for. -/
theorem excess_of_closeGroup?_eq_none (h : closeGroup? n ts = none) : excess ts ≤ n := by
  induction ts generalizing n with
  | nil => exact Int.natCast_nonneg n
  | cons t before ih =>
    have hcons : excess (t :: before) = excess [t] + excess before := excess_append [t] before
    rcases isParen_cases t with hk | hk | hk
    · rw [closeGroup?_plain hk, Option.map_eq_none_iff] at h
      have := ih h
      rw [hcons, excess_plain hk]
      omega
    · cases n with
      | zero =>
        rw [closeGroup?_left_zero hk] at h
        cases h
      | succ n =>
        rw [closeGroup?_left_succ hk, Option.map_eq_none_iff] at h
        have := ih h
        rw [hcons, excess_opening hk]
        omega
    · rw [closeGroup?_right hk, Option.map_eq_none_iff] at h
      have := ih h
      rw [hcons, excess_right hk]
      omega

theorem balanced_of_excess (hzero : excess ts = 0) (hleading : ∀ a, a <+: ts → 0 ≤ excess a) :
    Balanced ts := by
  induction hn : ts.length using Nat.strongRecOn generalizing ts with
  | ind n ih =>
    rcases List.eq_nil_or_concat' ts with rfl | ⟨front, t, rfl⟩
    · exact .empty
    have hlength : front.length < n := by simp [← hn]
    have hfront : ∀ a, a <+: front → 0 ≤ excess a := fun a ha =>
      hleading a (ha.trans (List.prefix_append front [t]))
    have hnonneg := hfront front (List.prefix_refl front)
    rw [excess_append] at hzero
    rcases isParen_cases t with hk | hk | hk
    · rw [excess_plain hk, Int.add_zero] at hzero
      exact .append (ih _ hlength hzero hfront rfl) (.plain hk)
    · rw [excess_opening hk] at hzero
      omega
    · rw [excess_right hk] at hzero
      cases hg : closeGroup? 0 front.reverse with
      | none =>
        have := excess_of_closeGroup?_eq_none hg
        rw [excess_reverse] at this
        omega
      | some g =>
        -- the last token closes what the search finds, and what is left of that balances as well
        obtain ⟨ho, hcut⟩ := eq_of_closeGroup? hg
        obtain ⟨hinside, hsuffix⟩ := excess_of_closeGroup? hg
        obtain rfl : front = g.before.reverse ++ ([g.opening] ++ g.inside.reverse) := by
          rw [← List.reverse_reverse front, hcut]
          simp
        rw [excess_append, excess_append, excess_opening ho, hinside] at hzero
        simp only [List.length_append, List.length_singleton] at hlength
        have hbefore : Balanced g.before.reverse :=
          ih _ (by omega) (by omega) (fun a ha => hfront a (ha.trans (List.prefix_append _ _))) rfl
        have hgroup : Balanced (g.opening :: (g.inside.reverse ++ [t])) :=
          .group ho hk (ih _ (by omega) hinside hsuffix rfl)
        simpa using hbefore.append hgroup

theorem balanced_iff_excess : Balanced ts ↔ excess ts = 0 ∧ ∀ a, a <+: ts → 0 ≤ excess a :=
  ⟨fun h => ⟨h.excess_eq, fun _ => h.excess_nonneg⟩, fun h => balanced_of_excess h.1 h.2⟩

theorem balanced_of_closeGroup? (h : closeGroup? 0 ts = some g) : Balanced g.inside.reverse :=
  balanced_iff_excess.mpr (excess_of_closeGroup? h)

theorem Balanced.excess_of_append (h : Balanced (a ++ b)) : 0 ≤ excess a ∧ excess b ≤ 0 := by
  have hzero := h.excess_eq
  have hnonneg := h.excess_nonneg (List.prefix_append a b)
  rw [excess_append] at hzero
  omega

theorem Balanced.of_append_right (h : Balanced (a ++ b)) (hb : Balanced b) : Balanced a := by
  have hzero := h.excess_eq
  rw [excess_append, hb.excess_eq, Int.add_zero] at hzero
  exact balanced_of_excess hzero fun c hc =>
    h.excess_nonneg (hc.trans (List.prefix_append a b))

/-- Balanced tokens may be put in or taken out anywhere. -/
theorem balanced_around_iff (hm : Balanced middle) :
    Balanced (a ++ (middle ++ b)) ↔ Balanced (a ++ b) := by
  have hsum : excess (a ++ (middle ++ b)) = excess (a ++ b) := by
    rw [excess_append, excess_append, hm.excess_eq, Int.zero_add, excess_append]
  rw [balanced_iff_excess, balanced_iff_excess, hsum]
  refine and_congr_right fun _ => ⟨fun h c hc => ?_, fun h c hc => ?_⟩
  · obtain ⟨d, hd⟩ := hc
    rcases List.append_eq_append_iff.mp hd with ⟨e, rfl, rfl⟩ | ⟨e, rfl, rfl⟩
    · exact h c ⟨e ++ (middle ++ b), by simp⟩
    · have hnonneg := h (a ++ (middle ++ e)) ⟨d, by simp⟩
      rw [excess_append, excess_append, hm.excess_eq, Int.zero_add] at hnonneg
      rwa [excess_append]
  · obtain ⟨d, hd⟩ := hc
    rcases List.append_eq_append_iff.mp hd with ⟨e, rfl, _⟩ | ⟨e, rfl, he⟩
    · exact h c ⟨e ++ b, by simp⟩
    rcases List.append_eq_append_iff.mp he with ⟨f, rfl, rfl⟩ | ⟨f, rfl, _⟩
    · have hnonneg := h (a ++ f) ⟨d, by simp⟩
      rw [excess_append] at hnonneg
      rwa [excess_append, excess_append, hm.excess_eq, Int.zero_add]
    · have hnonneg := h a (List.prefix_append a b)
      have := hm.excess_nonneg (List.prefix_append e f)
      rw [excess_append]
      omega

end

/-- Two parentheses are partners if they open and close a group of balanced tokens. -/
structure Partners (tokens before : List Token) (opening : Token) (inside : List Token)
    (closing : Token) (after : List Token) : Prop where
  tokens_eq : tokens = before ++ opening :: (inside ++ closing :: after)
  opens : opening.kind = .leftParen
  closes : closing.kind = .rightParen
  balanced : Balanced inside

/-- The parenthesis between the given tokens opens or closes a group there. -/
inductive HasPartner (before : List Token) (t : Token) (after : List Token) : Prop where
  | opens {inside rest : List Token} {closing : Token}
      (h : Partners (before ++ t :: after) before t inside closing rest)
  | closes {inside rest : List Token} {opening : Token}
      (h : Partners (before ++ t :: after) rest opening inside t after)

section

variable {ts tokens before inside after : List Token} {t opening closing : Token}

theorem Partners.extend (h : Partners tokens before opening inside closing after)
    (a b : List Token) :
    Partners (a ++ tokens ++ b) (a ++ before) opening inside closing (after ++ b) :=
  ⟨by simp [h.tokens_eq], h.opens, h.closes, h.balanced⟩

theorem HasPartner.extend (h : HasPartner before t after) (a b : List Token) :
    HasPartner (a ++ before) t (after ++ b) := by
  have hcut : a ++ (before ++ t :: after) ++ b = a ++ before ++ t :: (after ++ b) := by simp
  cases h with
  | opens h => exact .opens (hcut ▸ h.extend a b)
  | closes h => exact .closes (hcut ▸ h.extend a b)

/-- A token of two lists after each other is one of the first or one of the second. -/
theorem split_append {a b : List Token} (h : a ++ b = before ++ t :: after) :
    (∃ e, a = before ++ t :: e ∧ after = e ++ b) ∨ ∃ e, before = a ++ e ∧ b = e ++ t :: after := by
  rcases List.append_eq_append_iff.mp h with ⟨e, rfl, hb⟩ | ⟨e, rfl, hb⟩
  · exact .inr ⟨e, rfl, hb⟩
  · rcases List.cons_eq_append_iff.mp hb with ⟨rfl, rfl⟩ | ⟨e, rfl, rfl⟩
    · exact .inr ⟨[], by simp, rfl⟩
    · exact .inl ⟨e, rfl, rfl⟩

theorem Balanced.hasPartner (h : Balanced ts) (hts : ts = before ++ t :: after)
    (ht : t.kind.isParen = true) : HasPartner before t after := by
  induction h generalizing before after with
  | empty => simp at hts
  | @plain u h =>
    have hmem : t ∈ [u] := by simp [hts]
    obtain rfl := List.mem_singleton.mp hmem
    rw [h] at ht
    cases ht
  | @group opening closing inside ho hc hi ih =>
    have hgroup : Partners (opening :: (inside ++ [closing])) [] opening inside closing [] :=
      ⟨rfl, ho, hc, hi⟩
    rcases List.cons_eq_append_iff.mp hts with ⟨rfl, hcut⟩ | ⟨front, rfl, hcut⟩
    · obtain ⟨rfl, rfl⟩ := List.cons.inj hcut
      exact .opens hgroup
    · rcases split_append hcut with ⟨e, hinside, rfl⟩ | ⟨e, rfl, hlast⟩
      · exact (ih hinside).extend [opening] [closing]
      · rcases List.cons_eq_append_iff.mp hlast with ⟨rfl, hend⟩ | ⟨e, rfl, hend⟩
        · obtain ⟨rfl, rfl⟩ := List.cons.inj hend
          rw [List.append_nil]
          exact .closes hgroup
        · simp at hend
  | @append a b _ _ iha ihb =>
    rcases split_append hts with ⟨e, ha, rfl⟩ | ⟨e, rfl, hb⟩
    · exact (iha ha).extend [] b
    · simpa using (ihb hb).extend a []

/-- The search finds the partner of a closing parenthesis if there is one. -/
theorem hasPartner_iff_closeGroup? (ht : t.kind = .rightParen) (ts after : List Token) :
    HasPartner ts.reverse t after ↔ ∃ g, closeGroup? 0 ts = some g := by
  constructor
  · rintro (⟨⟨_, ho, _, _⟩⟩ | @⟨inside, rest, opening, ⟨hcut, ho, _, hi⟩⟩)
    · rw [ht] at ho
      cases ho
    · have hfront : ts.reverse = rest ++ opening :: inside :=
        List.append_cancel_right (by simpa using hcut)
      have hts : ts = inside.reverse ++ opening :: rest.reverse := by
        rw [← List.reverse_reverse ts, hfront]
        simp
      exact ⟨_, hts ▸ closeGroup?_group ho hi rest.reverse⟩
  · rintro ⟨g, hg⟩
    obtain ⟨ho, rfl⟩ := eq_of_closeGroup? hg
    have hgroup : Partners ((g.inside ++ g.opening :: g.before).reverse ++ t :: after)
        g.before.reverse g.opening g.inside.reverse t after :=
      ⟨by simp, ho, ht, balanced_of_closeGroup? hg⟩
    exact .closes hgroup

/-- A place has at most one opening parenthesis that only balanced tokens separate from it. -/
theorem opening_unique {a b l r : List Token} {o o' : Token} (h : a ++ o :: l = b ++ o' :: r)
    (ho : o.kind = .leftParen) (ho' : o'.kind = .leftParen) (hl : Balanced l) (hr : Balanced r) :
    a = b ∧ o = o' ∧ l = r := by
  have hfound := closeGroup?_group ho hl a.reverse
  have hfound' := closeGroup?_group ho' hr b.reverse
  have hreverse : l.reverse ++ o :: a.reverse = r.reverse ++ o' :: b.reverse := by
    simpa using congrArg List.reverse h
  rw [hreverse, hfound'] at hfound
  obtain ⟨hr, ho, hb⟩ := Group.mk.inj (Option.some.inj hfound)
  exact ⟨List.reverse_injective hb.symm, ho.symm, List.reverse_injective hr.symm⟩

/-- Balanced tokens do not hold the partner of an opening parenthesis before them. -/
theorem not_hasPartner_of_balanced (ht : t.kind = .leftParen) (h : Balanced after) :
    ¬ HasPartner before t after := by
  rintro (@⟨inside, rest, closing, ⟨hcut, _, hc, hi⟩⟩ | ⟨⟨_, _, hc, _⟩⟩)
  · obtain ⟨_, rfl⟩ := List.cons.inj (List.append_cancel_left hcut)
    have hnonneg := h.excess_nonneg (a := inside ++ [closing]) ⟨rest, by simp⟩
    rw [excess_append, hi.excess_eq, excess_right hc] at hnonneg
    omega
  · rw [ht] at hc
    cases hc

end

end JCalc
