import JCalc.Proofs.Partners
import JCalc.Proofs.Shifting

/-! The search for the partner of a closing parenthesis, told by places. It looks from right to left
and counts; what it finds is the one place from which on, read from left to right, parentheses are
balanced up to the closing one, on the level where the search began. -/

namespace JCalc

/-- The tokens from one place up to another. -/
def span (tokens : List Token) (start stop : Nat) : List Token := (tokens.take stop).drop start

/-- Where the partner of the token `t` stands, which is at the place `close` of a level that begins
at `start`. -/
def partner (tokens : List Token) (start close : Nat) (t : Token) : Except Fault Nat :=
  match closeGroup? 0 (span tokens start close).reverse with
  | none => .error (.unmatchedClose t.place)
  | some g => .ok (start + g.before.length)

/-- From the left no more is closed than was opened, and in the end as much. -/
structure EvenlyClosed (ts : List Token) : Prop where
  total : ts.countP (·.kind = .leftParen) = ts.countP (·.kind = .rightParen)
  leading : ∀ a, a <+: ts → a.countP (·.kind = .rightParen) ≤ a.countP (·.kind = .leftParen)

structure IsPartner (tokens : List Token) (start close j : Nat) : Prop where
  start_le : start ≤ j
  lt_close : j < close
  opens : ∃ o ∈ tokens[j]?, o.kind = .leftParen
  between : EvenlyClosed (span tokens (j + 1) close)

/-- The group between two places, as it is read from the right. -/
def groupAt (tokens : List Token) (start j close : Nat) (opening : Token) : Group :=
  ⟨(span tokens (j + 1) close).reverse, opening, (span tokens start j).reverse⟩

section

variable {tokens ts : List Token} {start close j n : Nat} {t o : Token} {g : Group}

theorem balanced_iff_evenlyClosed : Balanced ts ↔ EvenlyClosed ts := by
  rw [balanced_iff_excess]
  constructor
  · rintro ⟨htotal, hleading⟩
    refine ⟨by unfold excess at htotal; omega, fun a ha => ?_⟩
    have := hleading a ha
    unfold excess at this
    omega
  · rintro ⟨htotal, hleading⟩
    refine ⟨by unfold excess; omega, fun a ha => ?_⟩
    have := hleading a ha
    unfold excess
    omega

theorem span_drop (tokens : List Token) (start close n : Nat) :
    (span tokens start close).drop n = span tokens (start + n) close := by
  rw [span, span, List.drop_drop]

theorem getElem?_span (hlt : start + n < close) (tokens : List Token) :
    (span tokens start close)[n]? = tokens[start + n]? := by
  rw [span, List.getElem?_drop, List.getElem?_take_of_lt hlt]

/-- A place cuts the tokens around it in two. -/
theorem span_split (hle : start ≤ j) (hlt : j < close) (ho : tokens[j]? = some o) :
    span tokens start close = span tokens start j ++ o :: span tokens (j + 1) close := by
  have hfront : (span tokens start close).take (j - start) = span tokens start j := by
    rw [span, span, List.take_drop, List.take_take, Nat.add_sub_cancel' hle,
      Nat.min_eq_left (Nat.le_of_lt hlt)]
  have hopening : (span tokens start close)[j - start]? = some o := by
    rw [getElem?_span (by omega), Nat.add_sub_cancel' hle, ho]
  have hsplit := List.take_append_drop (j - start) (span tokens start close)
  rw [List.drop_eq_getElem?_toList_append, hopening, hfront, span_drop] at hsplit
  rw [← hsplit, ← Nat.add_assoc, Nat.add_sub_cancel' hle]
  rfl

theorem closeGroup?_of_isPartner (h : IsPartner tokens start close j) (ho : tokens[j]? = some o) :
    closeGroup? 0 (span tokens start close).reverse = some (groupAt tokens start j close o) := by
  have hopens : o.kind = .leftParen := by
    obtain ⟨o', ho', hk⟩ := h.opens
    rw [ho] at ho'
    exact Option.some.inj ho' ▸ hk
  have hfound := closeGroup?_group hopens (balanced_iff_evenlyClosed.mpr h.between)
    (span tokens start j).reverse
  rw [span_split h.start_le h.lt_close ho]
  simpa [groupAt] using hfound

theorem isPartner_of_closeGroup? (h : closeGroup? 0 (span tokens start close).reverse = some g) :
    IsPartner tokens start close (start + g.before.length) := by
  obtain ⟨ho, hcut⟩ := eq_of_closeGroup? h
  have hspan : span tokens start close = g.before.reverse ++ g.opening :: g.inside.reverse := by
    rw [← List.reverse_reverse (span tokens start close), hcut]
    simp
  have hlt : start + g.before.length < close := by
    have hlength := congrArg List.length hspan
    rw [span, List.length_drop, List.length_take] at hlength
    simp only [List.length_append, List.length_reverse, List.length_cons] at hlength
    omega
  refine ⟨Nat.le_add_right start _, hlt, ⟨g.opening, ?_, ho⟩, ?_⟩
  · rw [← getElem?_span hlt, hspan, Option.mem_def, List.getElem?_append_right (by simp)]
    simp
  · rw [Nat.add_assoc, ← span_drop, hspan, ← balanced_iff_evenlyClosed]
    have hinside : (g.before.reverse ++ g.opening :: g.inside.reverse).drop (g.before.length + 1) =
        g.inside.reverse := by
      rw [List.drop_append, List.length_reverse, List.drop_of_length_le (by simp)]
      simp
    rw [hinside]
    exact balanced_of_closeGroup? h

theorem partner_eq_ok_iff : partner tokens start close t = .ok j ↔ IsPartner tokens start close j := by
  constructor
  · intro h
    unfold partner at h
    cases hg : closeGroup? 0 (span tokens start close).reverse with
    | none =>
      rw [hg] at h
      cases h
    | some g =>
      rw [hg] at h
      rw [← Except.ok.inj h]
      exact isPartner_of_closeGroup? hg
  · intro h
    obtain ⟨o, ho, _⟩ := h.opens
    have hlength : start + (groupAt tokens start j close o).before.length = j := by
      have hle := h.start_le
      have hshort := (List.getElem?_eq_some_iff.mp ho).1
      simp only [groupAt, span, List.length_reverse, List.length_drop, List.length_take]
      omega
    rw [partner, closeGroup?_of_isPartner h ho]
    exact congrArg Except.ok hlength

theorem isPartner_unique {i : Nat} (hi : IsPartner tokens start close i)
    (hj : IsPartner tokens start close j) : i = j := by
  have hfound := (@partner_eq_ok_iff tokens start close i ⟨.finish, [], 0, 0⟩).mpr hi
  rw [partner_eq_ok_iff.mpr hj] at hfound
  exact (Except.ok.inj hfound).symm

theorem partner_eq_error_iff {fault : Fault} : partner tokens start close t = .error fault ↔
    fault = .unmatchedClose t.place ∧ ∀ j, ¬ IsPartner tokens start close j := by
  cases hg : closeGroup? 0 (span tokens start close).reverse with
  | none =>
    have hnone : partner tokens start close t = .error (.unmatchedClose t.place) := by rw [partner, hg]
    have halone (j : Nat) : ¬ IsPartner tokens start close j := by
      rw [← @partner_eq_ok_iff _ _ _ _ t, hnone]
      exact nofun
    rw [hnone]
    exact ⟨fun h => ⟨(Except.error.inj h).symm, halone⟩, fun h => congrArg Except.error h.1.symm⟩
  | some g =>
    have hsome : partner tokens start close t = .ok (start + g.before.length) := by rw [partner, hg]
    rw [hsome]
    exact iff_of_false nofun fun h => h.2 _ (isPartner_of_closeGroup? hg)

theorem span_succ (hle : start ≤ close) (ht : tokens[close]? = some t) :
    (span tokens start (close + 1)).reverse = t :: (span tokens start close).reverse := by
  have hnone : span tokens (close + 1) (close + 1) = [] :=
    List.drop_of_length_le (List.length_take_le _ _)
  rw [span_split hle (Nat.lt_succ_self close) ht, hnone]
  simp

end

/-- The search finds a place just when an opening parenthesis stands there with evenly closed tokens
between it and the closing one; there is at most one such place, and if there is none the closing
parenthesis is reported. An evaluation that comes to a closing parenthesis goes by that place. -/
theorem partner_found {tokens : List Token} {start close : Nat} {t : Token} (hle : start ≤ close)
    (ht : tokens[close]? = some t) (hk : t.kind = .rightParen) :
    (∀ j, partner tokens start close t = .ok j ↔ IsPartner tokens start close j) ∧
    (∀ i j, IsPartner tokens start close i → IsPartner tokens start close j → i = j) ∧
    (∀ fault, partner tokens start close t = .error fault ↔
      fault = .unmatchedClose t.place ∧ ∀ j, ¬ IsPartner tokens start close j) ∧
    (Fault.unmatchedClose t.place).report = .grammatical "Unmatched )".toList (some t.place) ∧
    ∀ limits depth stack,
      ((∀ j, ¬ IsPartner tokens start close j) →
        shiftAll limits depth (span tokens start (close + 1)).reverse stack =
          .error (.unmatchedClose t.place)) ∧
      ∀ j o, IsPartner tokens start close j → tokens[j]? = some o →
        shiftAll limits depth (span tokens start (close + 1)).reverse stack =
          if limits.depth < depth + 1 then .error (.tooDeep (depth + 1) limits.depth)
          else (shiftGroup limits depth (groupAt tokens start j close o) stack).bind
            (shiftAll limits depth (span tokens start j).reverse) := by
  refine ⟨fun j => partner_eq_ok_iff, fun i j => isPartner_unique, fun fault => partner_eq_error_iff,
    rfl, fun limits depth stack => ?_⟩
  rw [span_succ hle ht, shiftAll_rightParen limits depth hk]
  refine ⟨fun h => ?_, fun j o hj ho => ?_⟩
  · cases hg : closeGroup? 0 (span tokens start close).reverse with
    | none => rfl
    | some g => exact absurd (isPartner_of_closeGroup? hg) (h _)
  · rw [closeGroup?_of_isPartner hj ho]
    rfl

theorem partner_found_in_surplus :
    let paren (kind : TokenKind) (place : Int) : Token := ⟨kind, [], place, place + 1⟩
    let tokens : List Token := [paren .rightParen 0, paren .leftParen 1, paren .leftParen 2,
      paren .finish 3, paren .rightParen 4, paren .leftParen 5, paren .rightParen 6, paren .rightParen 7]
    let t := paren .rightParen 7
    tokens[7]? = some t ∧ IsPartner tokens 0 7 1 ∧ (∀ j, IsPartner tokens 0 7 j → j = 1) ∧
      (∀ j, ¬ IsPartner tokens 2 7 j) ∧ ∀ limits depth stack,
        shiftAll limits depth (span tokens 2 8).reverse stack = .error (.unmatchedClose 7) := by
  intro paren tokens t
  have ht : tokens[7]? = some t := rfl
  obtain ⟨hfound, hunique, _⟩ := partner_found (Nat.zero_le 7) ht rfl
  obtain ⟨_, _, hvain, _, hstops⟩ := @partner_found tokens 2 7 t (by decide) ht rfl
  have hone : IsPartner tokens 0 7 1 := (hfound 1).mp (by decide)
  have hnone := ((hvain (.unmatchedClose 7)).mp (by decide)).2
  exact ⟨ht, hone, fun j hj => hunique j 1 hj hone, hnone,
    fun limits depth stack => (hstops limits depth stack).1 hnone⟩

end JCalc
