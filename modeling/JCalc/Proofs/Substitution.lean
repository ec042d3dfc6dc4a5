import JCalc.Proofs.Evaluation
import JCalc.Proofs.ZeroSigns

/-! A group inside a sentence may give way to another of the same value. Reading tokens
does not depend on their places, and no group of the sentence can begin or end inside
balanced tokens, so the group is read on its own; what is read from the rest changes in
signs of zeros at most. -/

namespace JCalc

variable {limit : Int}

def Fragment.unsign : Fragment → Fragment
  | .noun x => .noun x.unsign
  | .verb v => .verb v

theorem Fragment.unsign_unsign (e : Fragment) : e.unsign.unsign = e.unsign := by
  cases e with
  | noun x => exact congrArg noun x.unsign_unsign
  | verb v => rfl

theorem toOption_map {α β : Type} (f : α → β) (r : Except Fault α) :
    (r.map f).toOption = r.toOption.map f := by
  cases r <;> rfl

theorem strand?_unsign (limit : Int) (xs : List Noun) :
    strand? limit (xs.map .unsign) = (strand? limit xs).map .unsign := by
  rcases xs with _ | ⟨x, _ | ⟨y, xs⟩⟩
  · rfl
  · rfl
  · have helements : ((x :: y :: xs).map Noun.unsign).flatMap Noun.elements =
        ((x :: y :: xs).flatMap Noun.elements).map Scalar.unsign := by
      simp only [List.flatMap_map, List.map_flatMap, Noun.elements_unsign]
    simp only [List.map_cons] at helements
    simp only [List.map_cons, strand?, helements, List.length_map]
    split <;> rfl

theorem map_unsign_unsign (run : List Noun) :
    (run.map Noun.unsign).map Noun.unsign = run.map Noun.unsign := by
  rw [List.map_map]
  exact List.map_congr_left fun x _ => x.unsign_unsign

theorem applyTo?_unsign (v : Verb) (run : List Noun) (y : Noun) :
    (applyTo? limit v (run.map Noun.unsign) y.unsign).map Noun.unsign =
      (applyTo? limit v run y).map Noun.unsign := by
  cases run with
  | nil =>
    simp only [applyTo?, List.map_nil, List.isEmpty_nil, if_true, ← toOption_map,
      Verb.applyMonad_unsign]
  | cons x run =>
    have hstrand := strand?_unsign limit (x :: run)
    rw [List.map_cons] at hstrand
    simp only [applyTo?, List.map_cons, List.isEmpty_cons, Bool.false_eq_true, if_false, hstrand]
    cases strand? limit (x :: run) with
    | none => rfl
    | some z =>
      simp only [Option.map_some, Option.bind_some, ← toOption_map, Verb.applyDyad_unsign]

theorem valueAfter?_unsign (run : List Noun) (es : List Fragment) :
    (valueAfter? limit (run.map Noun.unsign) (es.map Fragment.unsign)).map Noun.unsign =
      (valueAfter? limit run es).map Noun.unsign := by
  induction es generalizing run with
  | nil =>
    simp only [List.map_nil, valueAfter?, strand?_unsign, Option.map_map]
    exact congrArg (Option.map · _) (funext Noun.unsign_unsign)
  | cons e es ih =>
    cases e with
    | noun x =>
      have hrun := ih (run ++ [x])
      rw [List.map_append] at hrun
      exact hrun
    | verb v =>
      have hrest := ih []
      simp only [List.map_cons, Fragment.unsign, valueAfter?]
      cases ho : valueAfter? limit [] es with
      | none =>
        rw [ho] at hrest
        rw [List.map_nil, Option.map_none, Option.map_eq_none_iff] at hrest
        rw [hrest]
        rfl
      | some y =>
        rw [ho] at hrest
        obtain ⟨y', hy', hy⟩ := Option.map_eq_some_iff.mp hrest
        rw [List.map_nil] at hy'
        rw [hy', Option.bind_some, Option.bind_some, ← applyTo?_unsign v (run.map _) y',
          map_unsign_unsign, hy, applyTo?_unsign]

/-- What a sentence amounts to shows the signs of zeros among its nouns as signs of zeros only. -/
theorem sentence?_unsign (es : List Fragment) :
    (sentence? limit (es.map Fragment.unsign)).map (Option.map Fragment.unsign) =
      (sentence? limit es).map (Option.map Fragment.unsign) := by
  rcases es with _ | ⟨e, _ | ⟨f, es⟩⟩
  · rfl
  · simp [sentence?, Fragment.unsign_unsign]
  · have hvalue := @valueAfter?_unsign limit [] (e :: f :: es)
    have hmap (o : Option Noun) : (o.map fun x => some (Fragment.noun x)).map (Option.map Fragment.unsign) =
        (o.map Noun.unsign).map fun x => some (Fragment.noun x) := by
      cases o <;> rfl
    simp only [List.map_cons, sentence?] at hvalue ⊢
    rw [hmap, hmap]
    exact congrArg _ hvalue

theorem sentence?_congr {es fs : List Fragment}
    (h : es.map Fragment.unsign = fs.map Fragment.unsign) :
    (sentence? limit es).map (Option.map Fragment.unsign) =
      (sentence? limit fs).map (Option.map Fragment.unsign) := by
  rw [← sentence?_unsign, h, sentence?_unsign]

theorem eq_some_of_unsign {o : Option (Option Fragment)} {e : Fragment}
    (h : o.map (Option.map Fragment.unsign) = (some (some e)).map (Option.map Fragment.unsign)) :
    ∃ e', o = some (some e') ∧ e'.unsign = e.unsign := by
  rcases o with _ | _ | e'
  · cases h
  · cases h
  · exact ⟨e', rfl, by simpa using h⟩

theorem exists_noun_of_unsign {e : Fragment} {x : Noun} (h : e.unsign = (Fragment.noun x).unsign) :
    ∃ y, e = .noun y ∧ y.unsign = x.unsign := by
  cases e with
  | noun y => exact ⟨y, rfl, Fragment.noun.inj h⟩
  | verb v => cases h

def Token.unplaced (t : Token) : Token := { t with place := 0, stop := 0 }

theorem Token.kind_of_unplaced {t u : Token} (h : u.unplaced = t.unplaced) : u.kind = t.kind :=
  show u.unplaced.kind = t.unplaced.kind by rw [h]

theorem Token.text_of_unplaced {t u : Token} (h : u.unplaced = t.unplaced) : u.text = t.text :=
  show u.unplaced.text = t.unplaced.text by rw [h]

section

variable {ts us : List Token} {nesting : Nat} {es : List Fragment}

/-- What tokens are read as does not depend on their places. -/
theorem Reads.of_unplaced (h : Reads limit ts nesting es)
    (hu : us.map Token.unplaced = ts.map Token.unplaced) : Reads limit us nesting es := by
  induction h generalizing us with
  | empty =>
    obtain rfl : us = [] := by simpa using hu
    exact .empty
  | finish h =>
    obtain ⟨u, rfl, ht⟩ := List.map_eq_singleton_iff.mp hu
    exact .finish (Token.kind_of_unplaced ht ▸ h)
  | number h =>
    obtain ⟨u, rfl, ht⟩ := List.map_eq_singleton_iff.mp hu
    exact .number (Token.kind_of_unplaced ht ▸ h)
  | verb h hv =>
    obtain ⟨u, rfl, ht⟩ := List.map_eq_singleton_iff.mp hu
    exact .verb (Token.kind_of_unplaced ht ▸ h) (Token.text_of_unplaced ht ▸ hv)
  | group ho hc _ he ih =>
    obtain ⟨opening, rest, rfl, hopening, hrest⟩ := List.map_eq_cons_iff.mp hu
    rw [List.map_append] at hrest
    obtain ⟨inside, last, rfl, hinside, hlast⟩ := List.map_eq_append_iff.mp hrest
    obtain ⟨closing, rfl, hclosing⟩ := List.map_eq_singleton_iff.mp hlast
    exact .group (Token.kind_of_unplaced hopening ▸ ho) (Token.kind_of_unplaced hclosing ▸ hc)
      (ih hinside) he
  | append _ _ iha ihb =>
    rw [List.map_append] at hu
    obtain ⟨vs, ws, rfl, hvs, hws⟩ := List.map_eq_append_iff.mp hu
    exact .append (iha hvs) (ihb hws)

theorem Reads.drop_finish (h : Reads limit ts nesting es) :
    Reads limit (ts.filter (·.kind != .finish)) nesting es := by
  induction h with
  | empty => exact .empty
  | finish h =>
    simp only [List.filter, h, bne_self_eq_false]
    exact .empty
  | number h =>
    rw [List.filter_singleton, h]
    exact .number h
  | verb h hv =>
    rw [List.filter_singleton, h]
    exact .verb h hv
  | group ho hc _ he ih =>
    rw [List.filter_cons_of_pos (by simp [ho]), List.filter_append, List.filter_singleton, hc]
    exact .group ho hc ih he
  | append _ _ iha ihb =>
    rw [List.filter_append]
    exact .append iha ihb

end

/-- Tokens amount to one thing only, in whatever way they are read. -/
theorem Reads.sentence?_unique {ts : List Token} {m n : Nat} {es fs : List Fragment}
    (h : Reads limit ts m es) (h' : Reads limit ts n fs) : sentence? limit es = sentence? limit fs := by
  let limits : Limits := ⟨limit, (max m n : Nat)⟩
  have hs := @shiftAll_of_reads limits 0 ts m es h (by simp [limits]) [] []
  have hs' := @shiftAll_of_reads limits 0 ts n fs h' (by simp [limits]) [] []
  rw [hs, bind_shiftAll_nil, bind_shiftAll_nil] at hs'
  rw [← toOption_conclude_shifted, ← toOption_conclude_shifted]
  exact congrArg (fun r => (r.bind (conclude limit)).toOption) hs'

section

variable {opening closing : Token} {inside other a b c d : List Token} {fs : List Fragment}

theorem length_lt_group (ts : List Token) (h : ts = a ++ (opening :: (inside ++ [closing]) ++ b)) :
    1 < ts.length := by
  rw [h]
  simp only [List.length_append, List.length_cons, List.length_nil]
  omega

theorem excess_inside (ho : opening.kind = .leftParen) (hi : Balanced inside) {e : List Token}
    (h : e <+: opening :: inside) (hn : e ≠ []) : 0 < excess e := by
  rcases List.prefix_cons_iff.mp h with rfl | ⟨e, rfl, he⟩
  · exact absurd rfl hn
  · have := hi.excess_nonneg he
    rw [excess_left ho]
    omega

/-- A group among the tokens of another is that one or lies inside it. -/
theorem eq_or_inside_group {first last : Token} {middle : List Token}
    (ho : opening.kind = .leftParen) (hc : closing.kind = .rightParen) (hi : Balanced inside)
    (hm : Balanced middle)
    (h : first :: (middle ++ [last]) = a ++ (opening :: (inside ++ [closing]) ++ b)) :
    (a = [] ∧ b = [] ∧ first = opening ∧ last = closing ∧ middle = inside) ∨
      ∃ a' b', a = first :: a' ∧ b = b' ++ [last] ∧
        middle = a' ++ (opening :: (inside ++ [closing]) ++ b') := by
  rcases List.eq_nil_or_concat' b with rfl | ⟨b, t, rfl⟩ <;> rcases a with _ | ⟨s, a⟩
  case inl.nil =>
    simp only [List.nil_append, List.append_nil, List.cons.injEq] at h
    obtain ⟨hmiddle, hlast⟩ := List.append_inj' h.2 rfl
    exact .inl ⟨rfl, rfl, h.1, by simpa using hlast, hmiddle⟩
  case inl.cons =>
    -- it would begin inside the other one and end with it
    have hcut : middle ++ [last] = a ++ opening :: inside ++ [closing] := by simpa using (List.cons.inj h).2
    obtain ⟨hmiddle, -⟩ := List.append_inj' hcut rfl
    have hzero := hm.excess_eq
    have hnonneg := hm.excess_nonneg (hmiddle ▸ List.prefix_append a (opening :: inside))
    rw [hmiddle, excess_append, excess_left ho, hi.excess_eq] at hzero
    omega
  case inr.nil =>
    -- it would begin with the other one and end inside it
    have hcut : middle ++ [last] = inside ++ [closing] ++ b ++ [t] := by simpa using (List.cons.inj h).2
    obtain ⟨hmiddle, -⟩ := List.append_inj' hcut rfl
    have hnonneg := hm.excess_nonneg (hmiddle ▸ List.prefix_append (inside ++ [closing]) b)
    rw [excess_append, hi.excess_eq, excess_right hc] at hnonneg
    omega
  case inr.cons =>
    have hcut : middle ++ [last] = a ++ (opening :: (inside ++ [closing]) ++ b) ++ [t] := by
      simpa using (List.cons.inj h).2
    obtain ⟨hmiddle, hlast⟩ := List.append_inj' hcut rfl
    exact .inr ⟨a, b, by rw [(List.cons.inj h).1], by simp [← hlast], hmiddle⟩

/-- A group among balanced tokens and others lies among the ones or among the others. -/
theorem group_in_append (ho : opening.kind = .leftParen) (hi : Balanced inside) (hb : Balanced c)
    (h : c ++ d = a ++ (opening :: (inside ++ [closing]) ++ b)) :
    (∃ e, c = a ++ (opening :: (inside ++ [closing]) ++ e) ∧ b = e ++ d) ∨
      ∃ e, a = c ++ e ∧ d = e ++ (opening :: (inside ++ [closing]) ++ b) := by
  rcases List.append_eq_append_iff.mp h with ⟨e, ha, hd⟩ | ⟨e, hce, hd⟩
  · exact .inr ⟨e, ha, hd⟩
  · rcases List.append_eq_append_iff.mp hd with ⟨g, he, hb⟩ | ⟨g, hg, hd⟩
    · exact .inl ⟨g, by rw [hce, he], hb⟩
    · rcases List.eq_nil_or_concat' g with rfl | ⟨g, t, rfl⟩
      · exact .inl ⟨[], by simp [hce, hg], by simpa using hd.symm⟩
      · by_cases hn : e = []
        · exact .inr ⟨[], by simp [hce, hn], by simp [hd, hg, hn]⟩
        · -- it would begin among the ones and end among the others
          have hcut : opening :: inside ++ [closing] = e ++ g ++ [t] := by simpa using hg
          obtain ⟨hfront, -⟩ := List.append_inj' hcut rfl
          have hpos := excess_inside ho hi (hfront ▸ List.prefix_append e g) hn
          have hzero := hb.excess_eq
          have hnonneg := hb.excess_nonneg (hce ▸ List.prefix_append a e)
          rw [hce, excess_append] at hzero
          omega

/-- A group between other tokens may give way to one of the same value, read without groups. The
rest is read as before, up to signs of zeros, with groups inside each other no deeper. -/
theorem Reads.replace {ts : List Token} {nesting : Nat} {es : List Fragment}
    (ho : opening.kind = .leftParen) (hc : closing.kind = .rightParen) (hi : Balanced inside)
    (hother : Reads limit other 0 fs)
    (hvalue : ∀ n gs, Reads limit inside n gs →
      (sentence? limit fs).map (Option.map Fragment.unsign) =
        (sentence? limit gs).map (Option.map Fragment.unsign))
    (h : Reads limit ts nesting es) (hts : ts = a ++ (opening :: (inside ++ [closing]) ++ b)) :
    ∃ n ≤ nesting, ∃ gs, Reads limit (a ++ (opening :: (other ++ [closing]) ++ b)) n gs ∧
      gs.map Fragment.unsign = es.map Fragment.unsign := by
  have hlength := length_lt_group ts hts
  induction h generalizing a b with
  | empty | finish | number | verb => simp at hlength
  | @group first last middle n gs e hfirst hlast hm he ih =>
    rcases eq_or_inside_group ho hc hi hm.balanced hts with
      ⟨rfl, rfl, rfl, rfl, rfl⟩ | ⟨a, b, rfl, rfl, hmiddle⟩
    · have hgroup := hvalue n gs hm
      rw [he] at hgroup
      obtain ⟨e', hfs, hunsign⟩ := eq_some_of_unsign hgroup
      refine ⟨1, by omega, [e'], ?_, by simp [hunsign]⟩
      rw [List.nil_append, List.append_nil]
      exact .group ho hc hother hfs
    · obtain ⟨k, hk, gs', hreads, hgs⟩ := ih hmiddle (length_lt_group _ hmiddle)
      have hgroup := @sentence?_congr limit _ _ hgs
      rw [he] at hgroup
      obtain ⟨e', hfs, hunsign⟩ := eq_some_of_unsign hgroup
      refine ⟨k + 1, by omega, [e'], ?_, by simp [hunsign]⟩
      have hreads := Reads.group hfirst hlast hreads hfs
      simpa only [List.cons_append, List.append_assoc] using hreads
  | @append c d m n gs hs hcr hdr ihc ihd =>
    rcases group_in_append ho hi hcr.balanced hts with ⟨e, hce, rfl⟩ | ⟨e, rfl, hde⟩
    · obtain ⟨k, hk, gs', hreads, hgs⟩ := ihc hce (length_lt_group _ hce)
      refine ⟨max k n, by omega, gs' ++ hs, ?_, by rw [List.map_append, hgs, List.map_append]⟩
      simpa only [List.append_assoc] using hreads.append hdr
    · obtain ⟨k, hk, hs', hreads, hhs⟩ := ihd hde (length_lt_group _ hde)
      refine ⟨max m k, by omega, gs ++ hs', ?_, by rw [List.map_append, hhs, List.map_append]⟩
      simpa only [List.append_assoc] using hcr.append hreads

end

end JCalc
