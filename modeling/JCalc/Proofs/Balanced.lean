import JCalc.Sentence

/-! Tokens whose parentheses balance, and the search for the partner of a closing one:
it passes over balanced tokens, and what it finds cuts the tokens at an opening one.
Balanced tokens close as much as they open, and never more from the left. -/

namespace JCalc

def TokenKind.isParen : TokenKind → Bool
  | .leftParen | .rightParen => true
  | _ => false

inductive Balanced : List Token → Prop where
  | empty : Balanced []
  | plain {t : Token} (h : t.kind.isParen = false) : Balanced [t]
  | group {opening closing : Token} {inside : List Token} (ho : opening.kind = .leftParen)
      (hc : closing.kind = .rightParen) (hi : Balanced inside) :
      Balanced (opening :: (inside ++ [closing]))
  | append {a b : List Token} (ha : Balanced a) (hb : Balanced b) : Balanced (a ++ b)

def Group.pushAll (ts : List Token) (g : Group) : Group := { g with inside := ts ++ g.inside }

theorem closeGroup?_plain {t : Token} (h : t.kind.isParen = false) (surplus : Nat)
    (before : List Token) :
    closeGroup? surplus (t :: before) = (closeGroup? surplus before).map (Group.push t) := by
  cases hk : t.kind <;> simp [hk, TokenKind.isParen] at h <;> simp [closeGroup?, hk]

theorem closeGroup?_right {t : Token} (h : t.kind = .rightParen) (surplus : Nat)
    (before : List Token) :
    closeGroup? surplus (t :: before) = (closeGroup? (surplus + 1) before).map (Group.push t) := by
  simp [closeGroup?, h]

theorem closeGroup?_left_zero {t : Token} (h : t.kind = .leftParen) (before : List Token) :
    closeGroup? 0 (t :: before) = some ⟨[], t, before⟩ := by
  simp [closeGroup?, h]

theorem closeGroup?_left_succ {t : Token} (h : t.kind = .leftParen) (surplus : Nat)
    (before : List Token) :
    closeGroup? (surplus + 1) (t :: before) = (closeGroup? surplus before).map (Group.push t) := by
  simp [closeGroup?, h]

/-- The search for a partner passes over balanced tokens. -/
theorem closeGroup?_balanced {ts : List Token} (h : Balanced ts) (surplus : Nat)
    (before : List Token) :
    closeGroup? surplus (ts.reverse ++ before) =
      (closeGroup? surplus before).map (Group.pushAll ts.reverse) := by
  induction h generalizing surplus before with
  | empty => cases h : closeGroup? surplus before <;> simp [h, Group.pushAll]
  | plain h => exact closeGroup?_plain h surplus before
  | @group opening closing inside ho hc _ ih =>
    have hr : (opening :: (inside ++ [closing])).reverse ++ before =
        closing :: (inside.reverse ++ opening :: before) := by simp
    rw [hr, closeGroup?_right hc, ih, closeGroup?_left_succ ho]
    cases closeGroup? surplus before <;> simp [Group.push, Group.pushAll]
  | @append a b _ _ iha ihb =>
    rw [List.reverse_append, List.append_assoc, ihb, iha]
    cases closeGroup? surplus before <;> simp [Group.pushAll]

theorem closeGroup?_group {opening : Token} (ho : opening.kind = .leftParen) {inside : List Token}
    (hi : Balanced inside) (before : List Token) :
    closeGroup? 0 (inside.reverse ++ opening :: before) = some ⟨inside.reverse, opening, before⟩ := by
  rw [closeGroup?_balanced hi, closeGroup?_left_zero ho]
  simp [Group.pushAll]

theorem eq_of_closeGroup? {surplus : Nat} {ts : List Token} {g : Group}
    (h : closeGroup? surplus ts = some g) :
    g.opening.kind = .leftParen ∧ ts = g.inside ++ g.opening :: g.before := by
  induction ts generalizing surplus g with
  | nil => simp [closeGroup?] at h
  | cons t before ih =>
    have push {n : Nat} (hp : (closeGroup? n before).map (Group.push t) = some g) :
        g.opening.kind = .leftParen ∧ t :: before = g.inside ++ g.opening :: g.before := by
      obtain ⟨g', hg, rfl⟩ := Option.map_eq_some_iff.mp hp
      obtain ⟨hk, hb⟩ := ih hg
      exact ⟨hk, congrArg (t :: ·) hb⟩
    unfold closeGroup? at h
    split at h
    · cases h
      exact ⟨by assumption, rfl⟩
    all_goals exact push h

section

/-- Opening parentheses less closing ones. -/
def excess (ts : List Token) : Int :=
  (ts.countP (·.kind = .leftParen) : Int) - ts.countP (·.kind = .rightParen)

theorem excess_append (a b : List Token) : excess (a ++ b) = excess a + excess b := by
  simp only [excess, List.countP_append]
  omega

theorem excess_left {t : Token} (h : t.kind = .leftParen) (ts : List Token) :
    excess (t :: ts) = 1 + excess ts := by
  simp [excess, h]
  omega

theorem excess_right {t : Token} (h : t.kind = .rightParen) : excess [t] = -1 := by
  simp [excess, h]

theorem excess_plain {t : Token} (h : t.kind.isParen = false) : excess [t] = 0 := by
  cases hk : t.kind <;> simp [hk, TokenKind.isParen] at h <;> simp [excess, hk]

variable {ts a b : List Token}

theorem Balanced.excess_eq (h : Balanced ts) : excess ts = 0 := by
  induction h with
  | empty => rfl
  | plain h => exact excess_plain h
  | group ho hc _ ih =>
    rw [excess_left ho, excess_append, ih, excess_right hc]
    rfl
  | append _ _ iha ihb => rw [excess_append, iha, ihb, Int.add_zero]

/-- Balanced tokens close no more than they have opened. -/
theorem Balanced.excess_nonneg (h : Balanced ts) (hp : a <+: ts) : 0 ≤ excess a := by
  induction h generalizing a with
  | empty =>
    obtain rfl := List.prefix_nil.mp hp
    exact Int.le_refl 0
  | @plain t h =>
    rcases List.prefix_cons_iff.mp hp with rfl | ⟨b, rfl, hb⟩
    · exact Int.le_refl 0
    · obtain rfl := List.prefix_nil.mp hb
      exact Int.le_of_eq (excess_plain h).symm
  | @group opening closing inside ho hc hi ih =>
    rcases List.prefix_cons_iff.mp hp with rfl | ⟨b, rfl, hb⟩
    · exact Int.le_refl 0
    · rw [excess_left ho]
      rcases List.prefix_concat_iff.mp hb with rfl | hb
      · rw [excess_append, hi.excess_eq, excess_right hc]
        decide
      · have := ih hb
        omega
  | @append c d hc _ ihc ihd =>
    obtain ⟨rest, hrest⟩ := hp
    rcases List.append_eq_append_iff.mp hrest with ⟨e, rfl, _⟩ | ⟨e, rfl, hd⟩
    · exact ihc (List.prefix_append a e)
    · have := ihd (⟨rest, hd.symm⟩ : e <+: d)
      rw [excess_append, hc.excess_eq]
      omega

end

end JCalc
