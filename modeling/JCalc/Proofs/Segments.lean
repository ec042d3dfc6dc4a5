import JCalc.Proofs.Partners
import JCalc.Proofs.Substitution

/-! Balanced tokens inside others. They are read on their own, at one level of the groups around
them, and others may be read in their place: the sentence amounts to the same if on that level it
makes no difference which of the two stand there. -/

namespace JCalc

/-- What is read from tokens around a segment that is read as `fs`, with groups of the segment `k`
deep inside each other: the segment lies between others, or in a group that does. -/
inductive Around (limit : Int) (k : Nat) (fs : List Fragment) :
    List Token → List Token → Nat → List Fragment → Prop where
  | level {a b : List Token} {m n : Nat} {es gs : List Fragment} (ha : Reads limit a m es)
      (hb : Reads limit b n gs) : Around limit k fs a b (max m (max k n)) (es ++ (fs ++ gs))
  | group {before a b after : List Token} {opening closing : Token} {l m n : Nat}
      {es is gs : List Fragment} {e : Fragment} (ho : opening.kind = .leftParen)
      (hc : closing.kind = .rightParen) (hbefore : Reads limit before l es)
      (hi : Around limit k fs a b m is) (he : sentence? limit is = some (some e))
      (hafter : Reads limit after n gs) :
      Around limit k fs (before ++ opening :: a) (b ++ closing :: after) (max l (max (m + 1) n))
        (es ++ e :: gs)

section

variable {limit : Int} {ts a b c d segment inside before after : List Token} {opening closing t : Token}
  {k k' l m n : Nat} {es fs gs : List Fragment} {e : Fragment}

theorem Balanced.of_append_left (h : Balanced (a ++ b)) (ha : Balanced a) : Balanced b :=
  (balanced_around_iff (a := []) ha).mp h

/-- Where balanced tokens go over into others, both parts are balanced if what stands before is
balanced together with the first. -/
theorem Balanced.of_straddle (hs : Balanced (a ++ b)) (h : Balanced (before ++ a)) :
    Balanced a ∧ Balanced b := by
  have hzero : excess a = 0 := by
    have := hs.excess_of_append
    have := h.excess_of_append
    omega
  have ha : Balanced a :=
    balanced_of_excess hzero fun c hc => hs.excess_nonneg (hc.trans (List.prefix_append a b))
  exact ⟨ha, hs.of_append_left ha⟩

/-- No balanced tokens but the whole stand at the front of a group. -/
theorem excess_front (ho : opening.kind = .leftParen) (hi : Balanced inside)
    (h : opening :: (inside ++ [closing]) = c ++ d) (hc : c ≠ []) (hd : d ≠ []) : 0 < excess c := by
  obtain ⟨d, t, rfl⟩ := (List.eq_nil_or_concat' d).resolve_left hd
  rw [← List.cons_append, ← List.append_assoc] at h
  obtain ⟨hfront, -⟩ := List.append_inj' h rfl
  exact excess_inside ho hi (hfront ▸ List.prefix_append c d) hc

/-- Balanced tokens inside a group are the group or lie between its parentheses. -/
theorem balanced_in_group (ho : opening.kind = .leftParen) (hc : closing.kind = .rightParen)
    (hi : Balanced inside) (hs : Balanced segment) (hne : segment ≠ [])
    (h : opening :: (inside ++ [closing]) = a ++ (segment ++ b)) :
    a = [] ∧ b = [] ∨ ∃ a' b', a = opening :: a' ∧ b = b' ++ [closing] ∧ inside = a' ++ (segment ++ b') := by
  rcases a with _ | ⟨s, a⟩
  · by_cases hb : b = []
    · exact .inl ⟨rfl, hb⟩
    · have hpos : 0 < excess segment := excess_front ho hi h hne hb
      rw [hs.excess_eq] at hpos
      exact absurd hpos (Int.lt_irrefl 0)
  · obtain ⟨rfl, hrest⟩ := List.cons.inj h
    rcases List.eq_nil_or_concat' b with rfl | ⟨b, t, rfl⟩
    · rw [List.append_nil] at h
      have hpos := excess_front ho hi h (List.cons_ne_nil opening a) hne
      have hzero := (Balanced.group ho hc hi).excess_eq
      rw [h, excess_append, hs.excess_eq] at hzero
      omega
    · have hcut : inside ++ [closing] = a ++ (segment ++ b) ++ [t] := by simpa using hrest
      obtain ⟨rfl, ht⟩ := List.append_inj' hcut rfl
      exact .inr ⟨a, b, rfl, by rw [List.singleton_inj.mp ht], rfl⟩

theorem Reads.of_nil (h : Reads limit [] n es) : n = 0 ∧ es = [] := by
  generalize hts : ([] : List Token) = ts at h
  induction h with
  | empty => exact ⟨rfl, rfl⟩
  | finish | number | verb | group => cases hts
  | append _ _ iha ihb =>
    obtain ⟨ha, hb⟩ := List.append_eq_nil_iff.mp hts.symm
    obtain ⟨rfl, rfl⟩ := iha ha.symm
    obtain ⟨rfl, rfl⟩ := ihb hb.symm
    exact ⟨rfl, rfl⟩

theorem Around.behind (h : Around limit k fs a b m es) (hc : Reads limit c n gs) :
    Around limit k fs a (b ++ c) (max m n) (es ++ gs) := by
  cases h with
  | level ha hb =>
    have hlevel : Around limit k fs _ _ _ _ := .level ha (hb.append hc)
    simpa only [List.append_assoc, Nat.max_assoc] using hlevel
  | group ho hcl hbefore hi he hafter =>
    have hgroup := Around.group ho hcl hbefore hi he (hafter.append hc)
    simpa only [List.append_assoc, List.cons_append, Nat.max_assoc] using hgroup

theorem Around.ahead (hc : Reads limit c n gs) (h : Around limit k fs a b m es) :
    Around limit k fs (c ++ a) b (max n m) (gs ++ es) := by
  cases h with
  | level ha hb =>
    have hlevel : Around limit k fs _ _ _ _ := .level (hc.append ha) hb
    simpa only [List.append_assoc, Nat.max_assoc] using hlevel
  | group ho hcl hbefore hi he hafter =>
    have hgroup := Around.group ho hcl (hc.append hbefore) hi he hafter
    simpa only [List.append_assoc, List.cons_append, Nat.max_assoc] using hgroup

theorem Around.reads (h : Around limit k fs a b n es) (hs : Reads limit segment k fs) :
    Reads limit (a ++ (segment ++ b)) n es := by
  induction h with
  | level ha hb => exact ha.append (hs.append hb)
  | group ho hc hbefore _ he hafter ih =>
    have hgroup := hbefore.append ((Reads.group ho hc ih he).append hafter)
    simpa only [List.append_assoc, List.cons_append, List.nil_append] using hgroup

theorem Around.level_of_nil_left (h : Around limit k fs [] b n es) :
    ∃ m gs, Reads limit b m gs ∧ n = max k m ∧ es = fs ++ gs := by
  generalize ha : ([] : List Token) = a at h
  cases h with
  | level hra hb =>
    subst ha
    obtain ⟨rfl, rfl⟩ := hra.of_nil
    exact ⟨_, _, hb, Nat.zero_max _, rfl⟩
  | group => simp at ha

theorem Around.level_of_nil_right (h : Around limit k fs a [] n es) :
    ∃ m gs, Reads limit a m gs ∧ n = max m k ∧ es = gs ++ fs := by
  generalize hb : ([] : List Token) = b at h
  cases h with
  | level ha hrb =>
    subst hb
    obtain ⟨rfl, rfl⟩ := hrb.of_nil
    exact ⟨_, _, ha, by rw [Nat.max_zero], by rw [List.append_nil]⟩
  | group => simp at hb

/-- A segment that ends with the first tokens and begins with the second is on one level with them. -/
theorem exists_around_straddle
    (hc : ∃ i gs, Reads limit b i gs ∧ Around limit i gs a [] m es)
    (hd : ∃ j hs, Reads limit c j hs ∧ Around limit j hs [] d n fs) :
    ∃ k is, Reads limit (b ++ c) k is ∧ Around limit k is a d (max m n) (es ++ fs) := by
  obtain ⟨i, gs, hb, haround⟩ := hc
  obtain ⟨j, hs, hc, haround'⟩ := hd
  obtain ⟨m, as, ha, rfl, rfl⟩ := haround.level_of_nil_right
  obtain ⟨n, ds, hd, rfl, rfl⟩ := haround'.level_of_nil_left
  refine ⟨max i j, gs ++ hs, hb.append hc, ?_⟩
  have hlevel : Around limit (max i j) (gs ++ hs) _ _ _ _ := .level ha hd
  simpa only [List.append_assoc, Nat.max_assoc] using hlevel

theorem around_first (k : Nat) (fs : List Fragment) (hb : Reads limit b n gs) :
    Around limit k fs [] b (max k n) (fs ++ gs) := by
  have hlevel : Around limit k fs [] b _ _ := .level .empty hb
  simpa using hlevel

theorem around_last (k : Nat) (fs : List Fragment) (ha : Reads limit a n gs) :
    Around limit k fs a [] (max n k) (gs ++ fs) := by
  have hlevel : Around limit k fs a [] _ _ := .level ha .empty
  simpa using hlevel

theorem around_nil (limit : Int) (n : Nat) (es : List Fragment) : Around limit n es [] [] n es := by
  have hlevel : Around limit n es [] [] _ _ := .level .empty .empty
  simpa using hlevel

theorem exists_around_single (h : Reads limit [t] n es) (hne : segment ≠ [])
    (hts : [t] = a ++ (segment ++ b)) :
    ∃ k fs, Reads limit segment k fs ∧ Around limit k fs a b n es := by
  rcases List.append_eq_singleton_iff.mp hts.symm with ⟨rfl, hrest⟩ | ⟨rfl, hrest⟩
  · rcases List.append_eq_singleton_iff.mp hrest with ⟨hnil, _⟩ | ⟨rfl, rfl⟩
    · exact absurd hnil hne
    · exact ⟨n, es, h, around_nil limit n es⟩
  · exact absurd (List.append_eq_nil_iff.mp hrest).1 hne

/-- Balanced tokens among others are read on their own. -/
theorem Reads.exists_around (h : Reads limit ts n es) (hs : Balanced segment) (hne : segment ≠ [])
    (hts : ts = a ++ (segment ++ b)) :
    ∃ k fs, Reads limit segment k fs ∧ Around limit k fs a b n es := by
  induction h generalizing a b segment with
  | empty => simp [hne] at hts
  | finish h => exact exists_around_single (.finish h) hne hts
  | number h => exact exists_around_single (.number h) hne hts
  | verb h hv => exact exists_around_single (.verb h hv) hne hts
  | @group opening closing inside m es e ho hc hi he ih =>
    rcases balanced_in_group ho hc hi.balanced hs hne hts with ⟨rfl, rfl⟩ | ⟨a, b, rfl, rfl, hin⟩
    · rw [List.nil_append, List.append_nil] at hts
      have hgroup := Reads.group ho hc hi he
      exact ⟨m + 1, [e], hts ▸ hgroup, around_nil limit _ _⟩
    · obtain ⟨k, fs, hsegment, haround⟩ := ih hs hne hin
      have hgroup := Around.group ho hc .empty haround he .empty
      exact ⟨k, fs, hsegment, by simpa using hgroup⟩
  | @append c d m n es gs hc hd ihc ihd =>
    rcases List.append_eq_append_iff.mp hts with ⟨e, rfl, hrest⟩ | ⟨e, rfl, hrest⟩
    · obtain ⟨k, fs, hsegment, haround⟩ := ihd hs hne hrest
      exact ⟨k, fs, hsegment, haround.ahead hc⟩
    rcases List.append_eq_append_iff.mp hrest with ⟨f, rfl, rfl⟩ | ⟨f, rfl, rfl⟩
    · obtain ⟨k, fs, hsegment, haround⟩ := ihc hs hne rfl
      exact ⟨k, fs, hsegment, haround.behind hd⟩
    · obtain ⟨he, hf⟩ := hs.of_straddle hc.balanced
      apply exists_around_straddle
      · by_cases hnil : e = []
        · subst hnil
          rw [List.append_nil] at hc
          exact ⟨0, [], .empty, by simpa using around_last 0 [] hc⟩
        · exact ihc he hnil (by rw [List.append_nil])
      · by_cases hnil : f = []
        · subst hnil
          exact ⟨0, [], .empty, by simpa using around_first 0 [] hd⟩
        · exact ihd hf hnil rfl

theorem Reads.exists_append (h : Reads limit (a ++ b) n es) (ha : Balanced a) :
    ∃ l m fs gs, Reads limit a l fs ∧ Reads limit b m gs ∧ n = max l m ∧ es = fs ++ gs := by
  by_cases hne : a = []
  · subst hne
    exact ⟨0, n, [], es, .empty, h, (Nat.zero_max n).symm, rfl⟩
  · obtain ⟨k, fs, hsegment, haround⟩ := h.exists_around ha hne (List.nil_append _).symm
    obtain ⟨m, gs, hb, rfl, rfl⟩ := haround.level_of_nil_left
    exact ⟨k, m, fs, gs, hsegment, hb, rfl, rfl⟩

theorem Reads.of_group (ho : opening.kind = .leftParen) (hi : Balanced inside)
    (h : Reads limit (opening :: (inside ++ [closing])) n es) :
    ∃ m fs e, Reads limit inside m fs ∧ sentence? limit fs = some (some e) ∧ n = m + 1 ∧ es = [e] := by
  generalize hts : opening :: (inside ++ [closing]) = ts at h
  induction h with
  | empty => cases hts
  | finish | number | verb => simp at hts
  | @group _ _ middle m fs e _ _ hm he _ =>
    obtain ⟨rfl, hrest⟩ := List.cons.inj hts
    obtain ⟨rfl, _⟩ := List.append_inj' hrest rfl
    exact ⟨m, fs, e, hm, he, rfl, rfl⟩
  | @append c d m n fs gs hc hd ihc ihd =>
    by_cases hnil : c = []
    · subst hnil
      obtain ⟨rfl, rfl⟩ := hc.of_nil
      rw [Nat.zero_max]
      exact ihd hts
    by_cases hnil' : d = []
    · subst hnil'
      obtain ⟨rfl, rfl⟩ := hd.of_nil
      rw [Nat.max_zero, List.append_nil]
      exact ihc (hts.trans (List.append_nil c))
    · have hpos := excess_front ho hi hts hnil hnil'
      rw [hc.balanced.excess_eq] at hpos
      exact absurd hpos (Int.lt_irrefl 0)

theorem Reads.of_number {x : Number} (ht : t.kind = .number x) (h : Reads limit [t] n es) :
    n = 0 ∧ es = [.noun (.atom x.toScalar)] := by
  generalize hts : [t] = ts at h
  induction h with
  | empty => cases hts
  | finish h =>
    obtain rfl := List.singleton_inj.mp hts
    cases ht.symm.trans h
  | number h =>
    obtain rfl := List.singleton_inj.mp hts
    cases ht.symm.trans h
    exact ⟨rfl, rfl⟩
  | verb h _ =>
    obtain rfl := List.singleton_inj.mp hts
    cases ht.symm.trans h
  | group => simp at hts
  | append ha hb iha ihb =>
    rcases List.append_eq_singleton_iff.mp hts.symm with ⟨rfl, rfl⟩ | ⟨rfl, rfl⟩
    · obtain ⟨rfl, rfl⟩ := ha.of_nil
      obtain ⟨rfl, rfl⟩ := ihb rfl
      exact ⟨rfl, rfl⟩
    · obtain ⟨rfl, rfl⟩ := hb.of_nil
      obtain ⟨rfl, rfl⟩ := iha rfl
      exact ⟨rfl, rfl⟩

/-- Others may be read in the place of a segment if on its level they make no difference. -/
theorem Around.replace
    (hsame : ∀ as bs, sentence? limit (as ++ (gs ++ bs)) = sentence? limit (as ++ (fs ++ bs)))
    (k' : Nat) (h : Around limit k fs a b n es) :
    ∃ n' es', Around limit k' gs a b n' es' ∧ sentence? limit es' = sentence? limit es ∧
      (k' ≤ k → n' ≤ n) := by
  induction h with
  | level ha hb =>
    refine ⟨_, _, .level ha hb, hsame _ _, fun hk => ?_⟩
    omega
  | group ho hc hbefore _ he hafter ih =>
    obtain ⟨m, is, haround, hsentence, hle⟩ := ih
    refine ⟨_, _, .group ho hc hbefore haround (hsentence.trans he) hafter, rfl, fun hk => ?_⟩
    have := hle hk
    omega

end

end JCalc
