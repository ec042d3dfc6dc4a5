import JCalc.Proofs.NounText
import Mathlib.Order.Bounds.Basic

/-! Lists that are wider than they may be. What is shown grows with every value, so the search that
stops at the first value without room has shown as many as there is room for. -/

namespace JCalc

/-- The first values, and the ellipsis in place of the others if there are any. -/
def showing (parts : List Text) (n : Nat) : Text :=
  if n < parts.length then spaced (parts.take n) ++ ellipsis else spaced parts

/-- One value, or several that have room together with the ellipsis, but not all. -/
structure HasRoom (width : Int) (parts : List Text) (n : Nat) : Prop where
  some_shown : 1 ≤ n
  some_hidden : n < parts.length
  room : n = 1 ∨ ((showing parts n).length : Int) ≤ width

/-- How many values are shown: all if they have room or there is but one, and otherwise the most that
have room. -/
inductive MostShown (width : Int) (parts : List Text) : Nat → Prop where
  | whole (h : parts.length ≤ 1 ∨ ((spaced parts).length : Int) ≤ width) :
      MostShown width parts parts.length
  | cut {n : Nat} (hk : 1 < parts.length) (hw : width < (spaced parts).length)
      (hn : IsGreatest {m | HasRoom width parts m} n) : MostShown width parts n

section

variable {width width' : Int} {parts before after : List Text} {m n : Nat}

theorem spaced_append (hb : before ≠ []) (ha : after ≠ []) :
    spaced (before ++ after) = spaced before ++ ' ' :: spaced after := by
  obtain ⟨t, ts, rfl⟩ := List.exists_cons_of_ne_nil ha
  induction before with
  | nil => exact absurd rfl hb
  | cons u us ih =>
    cases us with
    | nil => rfl
    | cons v us =>
      have hrest := ih (List.cons_ne_nil v us)
      simp only [List.cons_append, spaced] at hrest ⊢
      rw [hrest, List.append_assoc, List.cons_append]

theorem length_spaced_take_lt (hm : 1 ≤ m) (hmn : m < n) (hn : n ≤ parts.length) :
    (spaced (parts.take m)).length < (spaced (parts.take n)).length := by
  have hsplit : parts.take n = parts.take m ++ (parts.take n).drop m := by
    have hfront : parts.take m = (parts.take n).take m := by
      rw [List.take_take, Nat.min_eq_left hmn.le]
    rw [hfront, List.take_append_drop]
  have hfront : parts.take m ≠ [] := by
    apply List.ne_nil_of_length_pos
    rw [List.length_take]
    omega
  have hrest : (parts.take n).drop m ≠ [] := by
    apply List.ne_nil_of_length_pos
    rw [List.length_drop, List.length_take]
    omega
  rw [hsplit, spaced_append hfront hrest, List.length_append, List.length_cons]
  omega

theorem showing_of_lt (h : n < parts.length) :
    showing parts n = spaced (parts.take n) ++ ellipsis := if_pos h

theorem showing_length (parts : List Text) : showing parts parts.length = spaced parts :=
  if_neg (Nat.lt_irrefl _)

/-- Without room for one value more there is none for any number above. -/
theorem HasRoom.le_of_full (h : HasRoom width parts n) (hm : 1 ≤ m)
    (hfull : width < (spaced (parts.take (m + 1))).length + ellipsis.length) : n ≤ m := by
  by_contra hlt
  have hroom := h.room.resolve_left (by omega)
  have hle : (spaced (parts.take (m + 1))).length ≤ (spaced (parts.take n)).length := by
    by_cases hn : m + 1 = n
    · rw [hn]
    · exact (length_spaced_take_lt (by omega) (by omega) h.some_hidden.le).le
  rw [showing_of_lt h.some_hidden, List.length_append] at hroom
  push_cast at hroom
  omega

/-- The search goes on from values that are shown already, one or several with room. -/
theorem exists_greatest_cutAt (hb : before ≠ []) (hk : 1 < (before ++ after).length)
    (hw : width < (spaced (before ++ after)).length)
    (hroom : before.length = 1 ∨ ((spaced before ++ ellipsis).length : Int) ≤ width) :
    ∃ n, IsGreatest {m | HasRoom width (before ++ after) m} n ∧
      cutAt width (spaced before) after = showing (before ++ after) n := by
  induction after generalizing before with
  | nil =>
    -- all are shown, though there is no room for all
    rw [List.append_nil] at hk hw
    rcases hroom with hone | hroom
    · omega
    · rw [List.length_append] at hroom
      push_cast at hroom
      omega
  | cons part after ih =>
    have hlonger : spaced before ++ ' ' :: part = spaced (before ++ [part]) :=
      (spaced_append hb (List.cons_ne_nil part [])).symm
    have hcut : before ++ part :: after = before ++ [part] ++ after := by simp
    rw [cutAt, hlonger]
    by_cases hfull : width < (spaced (before ++ [part])).length + ellipsis.length
    · have hlength : before.length < (before ++ part :: after).length := by simp
      have htake : (before ++ part :: after).take before.length = before := List.take_left
      have hnext : (before ++ part :: after).take (before.length + 1) = before ++ [part] := by
        rw [hcut, List.take_left' (by simp)]
      have hpos : 1 ≤ before.length := List.length_pos_iff.mpr hb
      have hshowing : showing (before ++ part :: after) before.length = spaced before ++ ellipsis := by
        rw [showing_of_lt hlength, htake]
      rw [if_pos hfull]
      refine ⟨before.length, ⟨⟨hpos, hlength, by rwa [hshowing]⟩, ?_⟩, hshowing.symm⟩
      rw [← hnext] at hfull
      exact fun n hn => hn.le_of_full hpos hfull
    · rw [if_neg hfull]
      rw [hcut] at hk hw ⊢
      apply ih (by simp) hk hw
      right
      rw [List.length_append]
      push_cast
      omega

theorem exists_mostShown (width : Int) (parts : List Text) :
    ∃ n, MostShown width parts n ∧ fit (some width) parts = showing parts n := by
  by_cases hk : 1 < parts.length
  · by_cases hw : ((spaced parts).length : Int) ≤ width
    · refine ⟨parts.length, .whole (.inr hw), ?_⟩
      rw [showing_length]
      unfold fit
      split
      · exact if_pos (by simp_all)
      · rfl
    · have hw : width < (spaced parts).length := by omega
      obtain ⟨t, u, us, rfl⟩ : ∃ t u us, parts = t :: u :: us := by
        rcases parts with _ | ⟨t, _ | ⟨u, us⟩⟩
        · cases hk
        · simp at hk
        · exact ⟨t, u, us, rfl⟩
      have hone : [t] ≠ [] := List.cons_ne_nil t []
      have hgreatest := @exists_greatest_cutAt width [t] (u :: us) hone hk hw (.inl rfl)
      obtain ⟨n, hn, hcut⟩ := hgreatest
      refine ⟨n, .cut hk hw hn, ?_⟩
      exact (if_neg (Int.not_le.mpr hw)).trans hcut
  · refine ⟨parts.length, .whole (.inl (by omega)), ?_⟩
    rw [showing_length]
    rcases parts with _ | ⟨t, _ | ⟨u, us⟩⟩
    · rfl
    · rfl
    · simp at hk

theorem MostShown.mono (h : MostShown width parts m) (h' : MostShown width' parts n)
    (hw : width ≤ width') : m ≤ n := by
  cases h with
  | whole hroom =>
    cases h' with
    | whole => exact le_rfl
    | cut hk hw' _ => omega
  | cut hk hwide hm =>
    cases h' with
    | whole => exact hm.1.some_hidden.le
    | cut _ _ hn =>
      apply hn.2
      refine ⟨hm.1.some_shown, hm.1.some_hidden, hm.1.room.imp_right fun hroom => ?_⟩
      exact hroom.trans hw

theorem MostShown.one_of_wide (h : MostShown width parts n)
    (hwide : width < (showing parts n).length) : parts.length ≤ 1 ∨ n = 1 := by
  cases h with
  | whole hroom =>
    rw [showing_length] at hwide
    exact .inl (hroom.resolve_right (by omega))
  | cut _ _ hn => exact .inr (hn.1.room.resolve_right (by omega))

theorem MostShown.ne_ellipsis (h : MostShown width parts n) :
    showing parts n ≠ spaced parts ++ ellipsis := by
  intro heq
  have hlength := congrArg List.length heq
  rw [List.length_append] at hlength
  cases h with
  | whole _ =>
    rw [showing_length] at hlength
    have : 0 < ellipsis.length := by decide
    omega
  | cut _ _ hn =>
    have hlt := length_spaced_take_lt hn.1.some_shown hn.1.some_hidden (Nat.le_refl parts.length)
    rw [List.take_length] at hlt
    rw [showing_of_lt hn.1.some_hidden, List.length_append] at hlength
    omega

end

/-- A noun of a limited width shows all its values if they have room or there is but one, and
otherwise the most values that have room with an ellipsis behind them. So it is too wide only if one
value is shown, the ellipsis never follows all values, and a larger width never shows fewer. -/
theorem text_shows_most {x : Noun} (hx : x.All fun s => s.isDefined = true) :
    ∃ ns : List Number, x.elements = ns.map Number.toScalar ∧
      let parts := ns.map Number.text
      x.text none = .ok (spaced parts) ∧
      ∃ shown : Int → Nat, (∀ width width', width ≤ width' → shown width ≤ shown width') ∧
        ∀ width, MostShown width parts (shown width) ∧
          x.text (some width) = .ok (showing parts (shown width)) ∧
          (width < (showing parts (shown width)).length → parts.length ≤ 1 ∨ shown width = 1) ∧
          showing parts (shown width) ≠ spaced parts ++ ellipsis := by
  obtain ⟨ns, hns⟩ := exists_numbers hx
  refine ⟨ns, hns, text_of_numbers hns none, ?_⟩
  choose shown hmost hfit using fun width => exists_mostShown width (ns.map Number.text)
  refine ⟨shown, fun w w' hw => (hmost w).mono (hmost w') hw, fun width => ?_⟩
  refine ⟨hmost width, ?_, (hmost width).one_of_wide, (hmost width).ne_ellipsis⟩
  rw [text_of_numbers hns, hfit]

theorem text_shows_most_at_boundary :
    let x : Noun := .list ([1, 22, 333].map fun k => .ofReal (.number (.ofNat k)))
    (x.All fun s => s.isDefined = true) ∧ x.text (some 7) = .ok "1 ...".toList ∧
      x.text (some 8) = .ok "1 22 333".toList ∧
      ∃ ns : List Number, x.elements = ns.map Number.toScalar ∧ ∃ shown : Int → Nat,
        (∀ width width', width ≤ width' → shown width ≤ shown width') ∧
          ∀ width, MostShown width (ns.map Number.text) (shown width) := by
  intro x
  have hx : x.All fun s => s.isDefined = true :=
    List.all_eq_true.mp (show x.elements.all Scalar.isDefined = true by decide +kernel)
  obtain ⟨ns, hns, _, shown, hmono, hshown⟩ := text_shows_most hx
  exact ⟨hx, by decide +kernel, by decide +kernel, ns, hns, shown, hmono, fun width => (hshown width).1⟩

end JCalc
