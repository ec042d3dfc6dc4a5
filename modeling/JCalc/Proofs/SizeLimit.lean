import JCalc.Proofs.Runs
import JCalc.Proofs.SizeBound
import JCalc.Proofs.ValueModel

/-! The limit on size. It is asked for where a noun is made of more elements than its parts have,
and a limit that is not passed leaves no trace. So evaluations under two limits go on alike until
a noun is to be made that the lower one refuses. -/

namespace JCalc

/-- The first of two results is the second, or the refusal of a noun that the second result is or
refuses as well. -/
def SameOrRefused (limit limit' : Int) (r r' : Except Fault Noun) : Prop :=
  r = r' ∨ ∃ subject count, r = .error (.tooLarge subject count limit) ∧
    ((∃ z, r' = .ok z ∧ ¬ z.Fits limit) ∨ r' = .error (.tooLarge subject count limit'))

section

variable {limit limit' : Int} {x y : Noun}

theorem sameOrRefused_bind {α : Type} (r : Except Fault α) {next next' : α → Except Fault Noun}
    (h : ∀ a, SameOrRefused limit limit' (next a) (next' a)) :
    SameOrRefused limit limit' (r >>= next) (r >>= next') := by
  cases r with
  | error fault => exact .inl rfl
  | ok a => exact h a

theorem sameOrRefused_checkSize (hl : limit ≤ limit') (subject : Text) (z : Noun) :
    SameOrRefused limit limit' (checkSize limit subject z.elements.length >>= fun _ => .ok z)
      (checkSize limit' subject z.elements.length >>= fun _ => .ok z) := by
  unfold checkSize
  by_cases h : limit < z.elements.length
  · rw [if_pos h]
    refine .inr ⟨subject, _, rfl, ?_⟩
    by_cases h' : limit' < z.elements.length
    · rw [if_pos h']
      exact .inr rfl
    · rw [if_neg h']
      exact .inl ⟨z, rfl, by simpa [Noun.Fits] using h⟩
  · rw [if_neg h, if_neg (by omega)]
    exact .inl rfl

theorem sameOrRefused_concatenate (hl : limit ≤ limit') (x y : Noun) :
    SameOrRefused limit limit' (x.concatenate limit y) (x.concatenate limit' y) := by
  have h := sameOrRefused_checkSize hl "strand".toList (.list (x.elements ++ y.elements))
  rwa [Noun.elements, List.length_append] at h

theorem sameOrRefused_countUp (hl : limit ≤ limit') (y : Noun) :
    SameOrRefused limit limit' (Verb.countUp limit y) (Verb.countUp limit' y) := by
  rcases y with s | ys
  · refine sameOrRefused_bind _ fun _ => ?_
    cases s.re with
    | nan => exact .inl rfl
    | number n =>
      dsimp only
      split_ifs
      · exact .inl rfl
      · exact .inl rfl
      · have h := sameOrRefused_checkSize hl Verb.integers.spelling
          (.list ((List.range (n.magnitude.units / unitsPerOne)).map fun k =>
            .ofReal (.number (.ofNat k))))
        rwa [Noun.elements, List.length_map, List.length_range] at h
  · exact .inl rfl

theorem sameOrRefused_applyMonad (hl : limit ≤ limit') (v : Verb) (y : Noun) :
    SameOrRefused limit limit' (v.applyMonad limit y) (v.applyMonad limit' y) := by
  cases v with
  | integers => exact sameOrRefused_countUp hl y
  | shape =>
    cases y with
    | atom s => exact .inl rfl
    | list ys => exact sameOrRefused_checkSize hl "list".toList (.list [_])
  | _ => exact .inl rfl

theorem sameOrRefused_redex (hl : limit ≤ limit') (stack : List Entry) :
    redex? limit stack = none ∧ redex? limit' stack = none ∨
    ∃ before after value value', redex? limit stack = some ⟨before, value, after⟩ ∧
      redex? limit' stack = some ⟨before, value', after⟩ ∧
      SameOrRefused limit limit' value value' := by
  fun_cases redex? limit stack with
  | case1 x y rest => exact .inr ⟨_, _, _, _, rfl, rfl, sameOrRefused_concatenate hl x y⟩
  | case2 v y rest => exact .inr ⟨_, _, _, _, rfl, rfl, sameOrRefused_applyMonad hl v y⟩
  | case3 e u v y rest =>
    exact .inr ⟨_, _, _, _, rfl, by simp [redex?], sameOrRefused_applyMonad hl v y⟩
  | case4 e x v y rest he =>
    exact .inr ⟨_, _, _, _, rfl, by simp [redex?], .inl rfl⟩
  | case5 =>
    exact .inl ⟨rfl, by simp [redex?, *]⟩

/-- Moments lead to the same under either limit, unless a noun is to be made that is too large for
the lower one. -/
theorem next_eq_or_refused (hl : limit ≤ limit') (depth : Int) (m : Moment) :
    m.next ⟨limit, depth⟩ = m.next ⟨limit', depth⟩ ∨
    ∃ subject count, m.next ⟨limit, depth⟩ = .answered (.error (.tooLarge subject count limit)) ∧
      ((∃ m', m.next ⟨limit', depth⟩ = .working m' ∧ ∃ z, m'.Holds z ∧ ¬ z.Fits limit) ∨
        m.next ⟨limit', depth⟩ = .answered (.error (.tooLarge subject count limit'))) := by
  unfold Moment.next
  rcases sameOrRefused_redex hl m.stack with ⟨hr, hr'⟩ | ⟨before, after, value, value', hr, hr', hv⟩
  · rw [hr, hr']
    exact .inl rfl
  · rw [hr, hr']
    rcases hv with rfl | ⟨subject, count, rfl, ⟨z, rfl, hz⟩ | rfl⟩
    · exact .inl rfl
    · exact .inr ⟨subject, count, rfl, .inl ⟨_, rfl, z, .inl (by simp), hz⟩⟩
    · exact .inr ⟨subject, count, rfl, .inr rfl⟩

end

section

variable {limit limit' : Int}

theorem evaluate_eq_or_tooLarge (hl : limit ≤ limit') (depth : Int) (tokens : List Token) :
    evaluate ⟨limit, depth⟩ tokens = evaluate ⟨limit', depth⟩ tokens ∨
      ∃ subject count, evaluate ⟨limit, depth⟩ tokens = .error (.tooLarge subject count limit) := by
  have hbegin : begin ⟨limit, depth⟩ tokens = begin ⟨limit', depth⟩ tokens := rfl
  have hs : ∀ m : Moment, m.Occurs ⟨limit, depth⟩ tokens → m.Occurs ⟨limit', depth⟩ tokens →
      m.next ⟨limit, depth⟩ = m.next ⟨limit', depth⟩ ∨
      ∃ fault, (∃ subject count, fault = .tooLarge subject count limit) ∧
        m.next ⟨limit, depth⟩ = .answered (.error fault) := by
    intro m _ _
    rcases next_eq_or_refused hl depth m with heq | ⟨subject, count, hnext, _⟩
    · exact .inl heq
    · exact .inr ⟨_, ⟨subject, count, rfl⟩, hnext⟩
  rcases evaluate_eq_or_cut hbegin hs with heq | ⟨_, ⟨subject, count, rfl⟩, hend⟩
  · exact .inl heq
  · exact .inr ⟨subject, count, hend⟩

theorem evaluate_eq_of_fits (hl : limit ≤ limit') {depth : Int} {tokens : List Token}
    (hlimit : ∀ subject count limit,
      evaluate ⟨limit', depth⟩ tokens ≠ .error (.tooLarge subject count limit))
    (hfits : ∀ x, Arises ⟨limit', depth⟩ tokens x → x.Fits limit) :
    evaluate ⟨limit, depth⟩ tokens = evaluate ⟨limit', depth⟩ tokens := by
  have hbegin : begin ⟨limit, depth⟩ tokens = begin ⟨limit', depth⟩ tokens := rfl
  have hs : ∀ m : Moment, m.Occurs ⟨limit, depth⟩ tokens → m.Occurs ⟨limit', depth⟩ tokens →
      m.next ⟨limit, depth⟩ = m.next ⟨limit', depth⟩ ∨
      ∃ fault, False ∧ m.next ⟨limit, depth⟩ = .answered (.error fault) := by
    intro m _ hm
    rcases next_eq_or_refused hl depth m with heq | ⟨subject, count, _, ⟨m', hnext, z, hz, hlarge⟩ | hnext⟩
    · exact .inl heq
    · exact absurd (hfits z (.held (hm.tail ⟨m, rfl, hnext⟩) hz)) hlarge
    · exact absurd (evaluate_of_next hm hnext) (hlimit subject count limit')
  rcases evaluate_eq_or_cut hbegin hs with heq | ⟨_, hfalse, _⟩
  · exact heq
  · exact hfalse.elim

end

/-- No noun of an evaluation has more elements than the size limit allows. A lower limit gives the
same outcome or a refusal for size, and the same one if under the higher limit nothing is refused
for size and no noun is larger than the lower one allows. -/
theorem size_limit_only_cuts_off (s : Session) (h1 : 1 ≤ s.maxSize) (line : Text) :
    (∀ tokens, tokenize line = .ok tokens → ∀ x, Arises s.limits tokens x → x.Fits s.maxSize) ∧
    (∀ x, s.evaluateLine line = .ok (some x) → x.Fits s.maxSize) ∧
    ∀ larger, s.maxSize ≤ larger →
      (s.evaluateLine line = { s with maxSize := larger }.evaluateLine line ∨
        ∃ subject count, s.evaluateLine line = .error (.tooLarge subject count s.maxSize)) ∧
      ((∀ subject count limit, { s with maxSize := larger }.evaluateLine line ≠
          .error (.tooLarge subject count limit)) →
        (∀ tokens, tokenize line = .ok tokens →
          ∀ x, Arises { s with maxSize := larger }.limits tokens x → x.Fits s.maxSize) →
        s.evaluateLine line = { s with maxSize := larger }.evaluateLine line) := by
  refine ⟨fun tokens _ x hx => ?_, fun x => fits_of_evaluateLine h1, ?_⟩
  · have hclosed : Closed s.limits.size (Noun.Fits s.maxSize) fun _ => True := closed_fits h1
    exact holds_of_arises hclosed (fun _ _ _ _ => h1) hx
  intro larger hl
  cases ht : tokenize line with
  | error fault =>
    have heq : s.evaluateLine line = { s with maxSize := larger }.evaluateLine line := by
      simp only [Session.evaluateLine, ht]
      rfl
    exact ⟨.inl heq, fun _ _ => heq⟩
  | ok tokens =>
    simp only [Session.evaluateLine, ht]
    exact ⟨evaluate_eq_or_tooLarge hl s.limits.depth tokens, fun hlimit hfits =>
      evaluate_eq_of_fits hl hlimit (hfits tokens rfl)⟩

theorem size_limit_only_cuts_off_count :
    let s : Session := { maxSize := 2 }
    let s' : Session := { maxSize := 3 }
    let x : Noun := .list ([0, 1, 2].map fun k => .ofReal (.number (.ofNat k)))
    s'.evaluateLine "i.3".toList = .ok (some x) ∧ ¬ x.Fits 2 ∧
      (∃ subject count, s.evaluateLine "i.3".toList = .error (.tooLarge subject count 2)) ∧
      s.evaluateLine " ".toList = s'.evaluateLine " ".toList := by
  intro s s' x
  have hvalue : s'.evaluateLine "i.3".toList = .ok (some x) :=
    toOption_eq_some_iff.mp (by decide +kernel)
  have hlarge : ¬ x.Fits 2 := by simp [x, Noun.Fits, Noun.elements]
  obtain ⟨_, hfits, hcut⟩ := size_limit_only_cuts_off s (by decide) "i.3".toList
  obtain ⟨_, _, hblank⟩ := size_limit_only_cuts_off s (by decide) " ".toList
  refine ⟨hvalue, hlarge, ?_, (hblank 3 (by decide)).2 ?_ ?_⟩
  · rcases (hcut 3 (by decide)).1 with heq | hrefused
    · exact absurd (hfits x (heq.trans hvalue)) hlarge
    · exact hrefused
  · intro subject count limit h
    have hnone : s'.evaluateLine " ".toList = .ok none := toOption_eq_some_iff.mp (by decide +kernel)
    rw [hnone] at h
    cases h
  · -- no number is put in, so there is no noun at all
    intro tokens ht x hx
    obtain rfl : tokens = [⟨.finish, [], 1, 1⟩] := Except.ok.inj (ht.symm.trans (by decide +kernel))
    have hnone : ∀ t ∈ [(⟨.finish, [], 1, 1⟩ : Token)], ∀ x, t.kind = .number x → False := by simp
    have hclosed : Closed s'.limits.size (fun _ => False) fun _ => True :=
      ⟨fun h _ => h.elim, fun _ _ h => h.elim, fun _ _ _ h _ => h.elim⟩
    exact (holds_of_arises hclosed hnone hx).elim

end JCalc
