import JCalc.Proofs.Balanced
import JCalc.Proofs.StackReading

/-! Evaluation gives a sentence exactly the value that it is read to have. -/

namespace JCalc

variable {limits : Limits} {depth : Int}

theorem Reads.balanced {limit : Int} {ts : List Token} {nesting : Nat} {es : List Fragment}
    (h : Reads limit ts nesting es) : Balanced ts := by
  induction h with
  | empty => exact .empty
  | finish h => exact .plain (by simp [h, TokenKind.isParen])
  | number h => exact .plain (by simp [h, TokenKind.isParen])
  | verb h _ => exact .plain (by simp [h, TokenKind.isParen])
  | group ho hc _ _ ih => exact .group ho hc ih
  | append _ _ iha ihb => exact .append iha ihb

theorem shiftAll_of_reads {ts : List Token} {nesting : Nat} {es : List Fragment}
    (h : Reads limits.size ts nesting es) (hd : depth + nesting ≤ limits.depth)
    (before : List Token) (stack : List Entry) :
    shiftAll limits depth (ts.reverse ++ before) stack =
      (shifted limits.size stack es).bind (shiftAll limits depth before) := by
  induction h generalizing depth before stack with
  | empty => rfl
  | finish h => exact shiftAll_finish h before stack
  | number h => exact shiftAll_number h before stack
  | verb h hv => exact shiftAll_verb h hv before stack
  | @group opening closing inside nesting es e ho hc hi he ih =>
    have hr : (opening :: (inside ++ [closing])).reverse ++ before =
        closing :: (inside.reverse ++ opening :: before) := by simp
    have hin : shiftAll limits (depth + 1) inside.reverse [] = shifted limits.size [] es := by
      have hh := ih (by push_cast at hd; omega : depth + 1 + nesting ≤ limits.depth) [] []
      rwa [List.append_nil, bind_shiftAll_nil] at hh
    have hcon := toOption_eq_some_iff.mp ((toOption_conclude_shifted es).trans he)
    have hn : ¬ limits.depth < depth + 1 := by push_cast at hd; omega
    rw [hr, shiftAll_rightParen _ _ hc, closeGroup?_group ho hi.balanced]
    simp only [hn, if_false, shiftGroup, hin, hcon]
    rfl
  | @append a b m n es fs ha hb iha ihb =>
    rw [List.reverse_append, List.append_assoc, ihb (by push_cast at hd; omega), shifted_append]
    cases shifted limits.size stack fs with
    | error fault => rfl
    | ok s => exact iha (by push_cast at hd; omega) before s

/-- Tokens read as fragments that take one stack to another, within the depth that is left. -/
def ReadsTo (limits : Limits) (depth : Int) (ts : List Token) (stack stack' : List Entry) : Prop :=
  ∃ nesting es, Reads limits.size ts nesting es ∧ depth + nesting ≤ limits.depth ∧
    shifted limits.size stack es = .ok stack'

theorem ReadsTo.append {a b : List Token} {s t u : List Entry} (ha : ReadsTo limits depth a t u)
    (hb : ReadsTo limits depth b s t) : ReadsTo limits depth (a ++ b) s u := by
  obtain ⟨m, es, hr, hm, he⟩ := ha
  obtain ⟨n, fs, hr', hn, hf⟩ := hb
  refine ⟨max m n, es ++ fs, .append hr hr', by push_cast; omega, ?_⟩
  rw [shifted_append, hf]
  exact he

theorem readsTo_of_shiftAll {ts : List Token} {stack stack' : List Entry}
    (hd : depth ≤ limits.depth) (h : shiftAll limits depth ts stack = .ok stack') :
    ReadsTo limits depth ts.reverse stack stack' := by
  induction hn : ts.length using Nat.strongRecOn generalizing ts depth stack stack' with
  | ind n ih =>
    cases ts with
    | nil =>
      simp only [shiftAll, Except.ok.injEq] at h
      exact ⟨0, [], .empty, by simpa using hd, by rw [shifted, h]⟩
    | cons t before =>
      have hlt : before.length < n := by simp [← hn]
      have single {fs : List Fragment} {s : List Entry} (hr : Reads limits.size [t] 0 fs)
          (hf : shifted limits.size stack fs = .ok s) : ReadsTo limits depth [t] stack s :=
        ⟨0, fs, hr, by simpa using hd, hf⟩
      cases hk : t.kind with
      | number x =>
        rw [shiftAll_number hk] at h
        obtain ⟨s, hr, hs⟩ := bind_eq_ok h
        rw [List.reverse_cons]
        exact (ih _ hlt hd hs rfl).append (single (.number hk) hr)
      | verb =>
        cases hv : Verb.ofSpelling? t.text with
        | none =>
          rw [shiftAll_unknown hk hv] at h
          cases h
        | some v =>
          rw [shiftAll_verb hk hv] at h
          obtain ⟨s, hr, hs⟩ := bind_eq_ok h
          rw [List.reverse_cons]
          exact (ih _ hlt hd hs rfl).append (single (.verb hk hv) hr)
      | finish =>
        rw [shiftAll_finish hk] at h
        rw [List.reverse_cons]
        exact (ih _ hlt hd h rfl).append (single (.finish hk) rfl)
      | leftParen =>
        rw [shiftAll_leftParen hk] at h
        cases h
      | other label =>
        rw [shiftAll_other hk] at h
        cases h
      | rightParen =>
        rw [shiftAll_rightParen _ _ hk] at h
        cases hg : closeGroup? 0 before with
        | none => simp [hg] at h
        | some g =>
          obtain ⟨ho, hb⟩ := eq_of_closeGroup? hg
          have hl := length_of_closeGroup? hg
          by_cases hdd : limits.depth < depth + 1
          · simp [hg, hdd] at h
          · simp only [hg, hdd, if_false] at h
            obtain ⟨s, hgr, hs⟩ := bind_eq_ok h
            obtain ⟨e, hcon, hred⟩ := bind_eq_ok hgr
            obtain ⟨inner, hin, hfin⟩ := bind_eq_ok hcon
            obtain ⟨m, es, hr, hm, hes⟩ := ih _ (by omega : g.inside.length < n) (by omega) hin rfl
            have hsen : sentence? limits.size es = some e := by
              rw [← toOption_conclude_shifted, hes]
              exact toOption_eq_some_iff.mpr hfin
            cases e with
            | none => simp at hred
            | some e =>
              have hone := ih _ (by omega : g.before.length < n) hd hs rfl
              have hgroup : ReadsTo limits depth (g.opening :: (g.inside.reverse ++ [t])) stack s :=
                ⟨m + 1, [e], .group ho hk hr hsen, by push_cast; omega, hred⟩
              have hh := hone.append hgroup
              rw [hb]
              simpa using hh

theorem valueOf_eq_ok_iff {e : Option Fragment} {value : Option Noun} :
    valueOf e = .ok value ↔ e = value.map .noun := by
  rcases e with _ | x | v <;> cases value <;> simp [valueOf]

theorem reads_of_evaluate {tokens : List Token} {value : Option Noun}
    (h : evaluate limits tokens = .ok value) :
    ∃ nesting es, Reads limits.size tokens nesting es ∧ (nesting : Int) ≤ limits.depth ∧
      sentence? limits.size es = some (value.map .noun) := by
  by_cases hd : 0 ≤ limits.depth
  · rw [evaluate_eq hd] at h
    obtain ⟨e, hcon, hv⟩ := bind_eq_ok h
    obtain ⟨stack, hs, hfin⟩ := bind_eq_ok hcon
    obtain ⟨nesting, es, hr, hn, he⟩ := readsTo_of_shiftAll hd hs
    refine ⟨nesting, es, by simpa using hr, by omega, ?_⟩
    rw [← toOption_conclude_shifted, he, ← valueOf_eq_ok_iff.mp hv]
    exact toOption_eq_some_iff.mpr hfin
  · have hlt : limits.depth < 0 := by omega
    simp [evaluate, hlt] at h

theorem evaluate_of_reads {tokens : List Token} {nesting : Nat} {es : List Fragment}
    {value : Option Noun} (hr : Reads limits.size tokens nesting es)
    (hn : (nesting : Int) ≤ limits.depth) (hes : sentence? limits.size es = some (value.map .noun)) :
    evaluate limits tokens = .ok value := by
  have hs := shiftAll_of_reads hr (by omega : (0 : Int) + nesting ≤ limits.depth) [] []
  rw [← toOption_conclude_shifted] at hes
  rw [List.append_nil] at hs
  rw [evaluate_eq (by omega), hs]
  cases hsh : shifted limits.size [] es with
  | error fault => simp [hsh, Except.bind, Except.toOption] at hes
  | ok stack =>
    rw [hsh] at hes
    have hcon := toOption_eq_some_iff.mp hes
    simp only [Except.bind, shiftAll] at hcon ⊢
    simp only [hcon]
    exact valueOf_eq_ok_iff.mpr rfl

/-- An evaluation gives a value exactly when the sentence reads as one, groups inside each other
no deeper than the limit, and the value is the one that is read. -/
theorem evaluate_eq_ok_iff_reads (limits : Limits) (tokens : List Token) (value : Option Noun) :
    evaluate limits tokens = .ok value ↔
      ∃ nesting es, Reads limits.size tokens nesting es ∧ (nesting : Int) ≤ limits.depth ∧
        sentence? limits.size es = some (value.map .noun) := by
  constructor
  · exact reads_of_evaluate
  · rintro ⟨nesting, es, hr, hn, hes⟩
    exact evaluate_of_reads hr hn hes

end JCalc
