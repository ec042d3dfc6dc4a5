import JCalc.Proofs.Reduction
import JCalc.Proofs.Shifting
import Mathlib.Logic.Relation

/-! The moments of an evaluation, one for every reduction, every shift and every group
that is entered or left. The levels around the one at work wait for the value of a
group. The moments of a sentence end in the answer of its evaluation. -/

namespace JCalc

/-- A level that waits for the value of a group, with the tokens before the group. -/
structure Suspended where
  opening : Token
  stack : List Entry
  before : List Token

structure Moment where
  stack : List Entry
  before : List Token
  outer : List Suspended

inductive Progress where
  | working (m : Moment)
  | answered (r : Except Fault (Option Fragment))

/-- Goes back to the level around with what the sentence of a level amounts to. -/
def leave (outer : List Suspended) : Except Fault (Option Fragment) → Progress
  | .error fault => .answered (.error fault)
  | .ok e =>
    match outer, e with
    | [], e => .answered (.ok e)
    | level :: _, none => .answered (.error (.emptyGroup level.opening.place))
    | level :: outer, some e => .working ⟨e.entry :: level.stack, level.before, outer⟩

namespace Moment

def shift (limits : Limits) (m : Moment) (t : Token) (before : List Token) : Progress :=
  match t.kind with
  | .number x => .working { m with stack := .noun (.atom x.toScalar) :: m.stack, before }
  | .verb =>
    match Verb.ofSpelling? t.text with
    | none => .answered (.error (.unknownVerb t.text))
    | some v => .working { m with stack := .verb v :: m.stack, before }
  | .rightParen =>
    match closeGroup? 0 before with
    | none => .answered (.error (.unmatchedClose t.place))
    | some g =>
      if limits.depth < m.outer.length + 1 then
        .answered (.error (.tooDeep (m.outer.length + 1) limits.depth))
      else .working ⟨[], g.inside, ⟨g.opening, m.stack, g.before⟩ :: m.outer⟩
  | .leftParen => .answered (.error (.unmatchedOpen t.place))
  | .other label => .answered (.error (.strayToken label t.place))
  | .finish => .working { m with before }

/-- Reduces as long as the leftmost entries match, and only then goes on to the next token, or to
the mark after the last one. -/
def next (limits : Limits) (m : Moment) : Progress :=
  match redex? limits.size m.stack, m.before with
  | some ⟨_, .error fault, _⟩, _ => .answered (.error fault)
  | some ⟨before, .ok z, after⟩, _ => .working { m with stack := before ++ .noun z :: after }
  | none, t :: before => m.shift limits t before
  | none, [] =>
    if m.stack.head? = some .mark then leave m.outer (finish m.stack.tail)
    else .working { m with stack := .mark :: m.stack }

end Moment

def Steps (limits : Limits) (p q : Progress) : Prop :=
  ∃ m, p = .working m ∧ m.next limits = q

abbrev Leads (limits : Limits) : Progress → Progress → Prop := Relation.ReflTransGen (Steps limits)

/-- Where the evaluation of a sentence begins; without any depth allowed it does not. -/
def begin (limits : Limits) (tokens : List Token) : Progress :=
  if limits.depth < 0 then .answered (.error (.tooDeep 0 limits.depth))
  else .working ⟨[], tokens.reverse, []⟩

def Moment.Occurs (limits : Limits) (tokens : List Token) (m : Moment) : Prop :=
  Leads limits (begin limits tokens) (.working m)

variable {limits : Limits}

def proceed (before : List Token) (outer : List Suspended) : Except Fault (List Entry) → Progress
  | .error fault => .answered (.error fault)
  | .ok stack => .working ⟨stack, before, outer⟩

theorem steps_next (limits : Limits) (m : Moment) : Leads limits (.working m) (m.next limits) :=
  .single ⟨m, rfl, rfl⟩

theorem leads_reduce (limits : Limits) (stack : List Entry) (before : List Token) (outer : List Suspended) :
    Leads limits (.working ⟨stack, before, outer⟩)
      (proceed before outer (reduce limits.size stack)) := by
  induction hn : stack.length using Nat.strongRecOn generalizing stack with
  | ind n ih =>
    cases hr : redex? limits.size stack with
    | none =>
      rw [reduce_of_redex?_none hr]
      exact .refl
    | some r =>
      have hs := steps_next limits ⟨stack, before, outer⟩
      rw [reduce_of_redex? hr]
      obtain ⟨above, value, below⟩ := r
      cases value with
      | error fault =>
        simp only [Moment.next, hr] at hs
        exact hs
      | ok z =>
        simp only [Moment.next, hr] at hs
        exact hs.trans (ih _ (hn ▸ length_result_lt hr z) _ rfl)

def Settled (limit : Int) (stack : List Entry) : Prop :=
  redex? limit stack = none ∧ stack.head? ≠ some .mark

theorem redex?_of_reduce {limit : Int} {stack stack' : List Entry}
    (h : reduce limit stack = .ok stack') : redex? limit stack' = none := by
  induction hn : stack.length using Nat.strongRecOn generalizing stack with
  | ind n ih =>
    cases hr : redex? limit stack with
    | none =>
      rw [reduce_of_redex?_none hr] at h
      cases h
      exact hr
    | some r =>
      rw [reduce_of_redex? hr] at h
      obtain ⟨z, _, hz⟩ := bind_eq_ok h
      exact ih _ (hn ▸ length_result_lt hr z) hz rfl

theorem head?_result {limit : Int} {stack : List Entry} {r : Redex}
    (h : redex? limit stack = some r) (z : Noun) :
    (r.result z).head? = some .mark ↔ stack.head? = some .mark := by
  rcases redex?_cases h with ⟨x, y, hs, hb, _⟩ | ⟨v, y, hs, hb, _⟩ | ⟨e, x, v, y, hs, hb, _⟩
  · simp [hs, Redex.result, hb]
  · obtain ⟨e, before, he⟩ := List.exists_cons_of_ne_nil hb
    simp [hs, Redex.result, he]
  · simp [hs, Redex.result, hb]

theorem settled_of_reduce {limit : Int} {stack stack' : List Entry}
    (hm : stack.head? ≠ some .mark) (h : reduce limit stack = .ok stack') : Settled limit stack' :=
  ⟨redex?_of_reduce h,
    reduce_induction (p := fun s => s.head? ≠ some .mark)
      (fun hp hr _ => fun hh => hp ((head?_result hr _).mp hh)) hm h⟩

theorem settled_nil (limit : Int) : Settled limit [] := ⟨rfl, by simp⟩

theorem head?_entry_ne (e : Fragment) (stack : List Entry) :
    (e.entry :: stack).head? ≠ some .mark := by
  cases e <;> simp [Fragment.entry]

theorem leads_conclude {stack : List Entry} (h : Settled limits.size stack)
    (outer : List Suspended) :
    Leads limits (.working ⟨stack, [], outer⟩) (leave outer (conclude limits.size stack)) := by
  have hs := steps_next limits ⟨stack, [], outer⟩
  simp only [Moment.next, h.1, h.2, if_false] at hs
  have hr := leads_reduce limits (.mark :: stack) [] outer
  rw [conclude_eq]
  cases hm : reduce limits.size (.mark :: stack) with
  | error fault =>
    rw [hm] at hr
    exact hs.trans hr
  | ok s =>
    rw [hm] at hr
    refine (hs.trans hr).trans ?_
    have hl := steps_next limits ⟨s, [], outer⟩
    have hhead : s.head? = some .mark := by
      refine reduce_induction (p := fun s => s.head? = some .mark) ?_ rfl hm
      exact fun hp hr _ => (head?_result hr _).mpr hp
    simp only [Moment.next, redex?_of_reduce hm, hhead, if_true] at hl
    exact hl

/-- A level shifts the given tokens as the whole evaluation of them does, and ends settled. -/
def Completes (limits : Limits) (outer : List Suspended) (ts : List Token) (stack : List Entry) :
    Prop :=
  Leads limits (.working ⟨stack, ts, outer⟩)
      (proceed [] outer (shiftAll limits outer.length ts stack)) ∧
    ∀ s, shiftAll limits outer.length ts stack = .ok s → Settled limits.size s

theorem completes_of_error {outer : List Suspended} {ts : List Token} {stack : List Entry}
    {fault : Fault} (hl : Leads limits (.working ⟨stack, ts, outer⟩) (.answered (.error fault)))
    (he : shiftAll limits outer.length ts stack = .error fault) :
    Completes limits outer ts stack := by
  rw [Completes, he]
  exact ⟨hl, nofun⟩

theorem completes_of_entry {outer : List Suspended} {ts before : List Token} {stack : List Entry}
    {e : Fragment}
    (hl : Leads limits (.working ⟨stack, ts, outer⟩) (.working ⟨e.entry :: stack, before, outer⟩))
    (hs : shiftAll limits outer.length ts stack =
      (reduce limits.size (e.entry :: stack)).bind (shiftAll limits outer.length before))
    (hc : ∀ s, Settled limits.size s → Completes limits outer before s) :
    Completes limits outer ts stack := by
  have hr := hl.trans (leads_reduce limits (e.entry :: stack) before outer)
  cases hred : reduce limits.size (e.entry :: stack) with
  | error fault =>
    rw [hred] at hr hs
    exact completes_of_error hr hs
  | ok s =>
    rw [hred] at hr hs
    have hh := hc s (settled_of_reduce (head?_entry_ne e stack) hred)
    rw [Completes, hs]
    exact ⟨hr.trans hh.1, hh.2⟩

theorem completes_group {outer : List Suspended} {t : Token} {before : List Token} {g : Group}
    {stack : List Entry} (hk : t.kind = .rightParen) (hg : closeGroup? 0 before = some g)
    (h : Settled limits.size stack)
    (hin : Completes limits (⟨g.opening, stack, g.before⟩ :: outer) g.inside [])
    (hc : ∀ s, Settled limits.size s → Completes limits outer g.before s) :
    Completes limits outer (t :: before) stack := by
  have hs := steps_next limits ⟨stack, t :: before, outer⟩
  have hsh := shiftAll_rightParen limits outer.length hk before stack
  by_cases hd : limits.depth < outer.length + 1
  · simp only [Moment.next, h.1, Moment.shift, hk, hg, hd, if_true] at hs
    simp only [hg, hd, if_true] at hsh
    exact completes_of_error hs hsh
  · simp only [Moment.next, h.1, Moment.shift, hk, hg, hd, if_false] at hs
    simp only [hg, hd, if_false, shiftGroup] at hsh
    have hcast : ((⟨g.opening, stack, g.before⟩ :: outer : List Suspended).length : Int) =
        outer.length + 1 := by simp
    rw [Completes, hcast] at hin
    cases hi : shiftAll limits (outer.length + 1) g.inside [] with
    | error fault =>
      rw [hi] at hin hsh
      exact completes_of_error (hs.trans hin.1) hsh
    | ok inner =>
      have hl := leads_conclude (hin.2 inner hi) (⟨g.opening, stack, g.before⟩ :: outer)
      rw [hi] at hin hsh
      have hlead := (hs.trans hin.1).trans hl
      simp only [Except.bind] at hsh
      rcases hcon : conclude limits.size inner with fault | _ | e
      · rw [hcon] at hlead hsh
        exact completes_of_error hlead hsh
      · rw [hcon] at hlead hsh
        exact completes_of_error hlead hsh
      · rw [hcon] at hlead hsh
        exact completes_of_entry hlead hsh hc

theorem completes (limits : Limits) (ts : List Token) {stack : List Entry} (h : Settled limits.size stack)
    (outer : List Suspended) : Completes limits outer ts stack := by
  induction hn : ts.length using Nat.strongRecOn generalizing ts stack outer with
  | ind n ih =>
    cases ts with
    | nil =>
      rw [Completes, shiftAll]
      exact ⟨.refl, fun s hs => Except.ok.inj hs ▸ h⟩
    | cons t before =>
      have hs := steps_next limits ⟨stack, t :: before, outer⟩
      have hlt : before.length < n := by simp [← hn]
      have hc (s : List Entry) (hset : Settled limits.size s) : Completes limits outer before s :=
        ih _ hlt before hset outer rfl
      simp only [Moment.next, h.1, Moment.shift] at hs
      cases hk : t.kind with
      | number x =>
        simp only [hk] at hs
        exact completes_of_entry (e := .noun (.atom x.toScalar)) hs (shiftAll_number hk before stack) hc
      | verb =>
        cases hv : Verb.ofSpelling? t.text with
        | none =>
          simp only [hk, hv] at hs
          exact completes_of_error hs (shiftAll_unknown hk hv before stack)
        | some v =>
          simp only [hk, hv] at hs
          exact completes_of_entry (e := .verb v) hs (shiftAll_verb hk hv before stack) hc
      | finish =>
        simp only [hk] at hs
        rw [Completes, shiftAll_finish hk]
        exact ⟨hs.trans (hc stack h).1, (hc stack h).2⟩
      | leftParen =>
        simp only [hk] at hs
        exact completes_of_error hs (shiftAll_leftParen hk before stack)
      | other label =>
        simp only [hk] at hs
        exact completes_of_error hs (shiftAll_other hk before stack)
      | rightParen =>
        cases hg : closeGroup? 0 before with
        | none =>
          simp only [hk, hg] at hs
          have hsh := shiftAll_rightParen limits outer.length hk before stack
          rw [hg] at hsh
          exact completes_of_error hs hsh
        | some g =>
          have hl := length_of_closeGroup? hg
          exact completes_group hk hg h (ih _ (by omega) g.inside (settled_nil _) _ rfl)
            (fun s hset => ih _ (by omega) g.before hset outer rfl)

/-- The moments of a sentence end in the answer of its evaluation. -/
theorem leads_evaluate (limits : Limits) (tokens : List Token) :
    ∃ r, Leads limits (begin limits tokens) (.answered r) ∧
      evaluate limits tokens = r.bind valueOf := by
  by_cases hd : limits.depth < 0
  · refine ⟨.error (.tooDeep 0 limits.depth), ?_, by simp [evaluate, hd, Except.bind]⟩
    rw [begin, if_pos hd]
  · have hc := completes limits tokens.reverse (settled_nil _) []
    refine ⟨(shiftAll limits 0 tokens.reverse []).bind (conclude limits.size), ?_,
      evaluate_eq (by omega) tokens⟩
    rw [begin, if_neg hd]
    obtain ⟨hl, hset⟩ := hc
    simp only [List.length_nil, Int.ofNat_zero] at hl hset
    cases hs : shiftAll limits 0 tokens.reverse [] with
    | error fault =>
      rw [hs] at hl
      exact hl
    | ok stack =>
      rw [hs] at hl
      refine hl.trans ?_
      have hcon := leads_conclude (hset stack hs) []
      simp only [Except.bind]
      cases hcc : conclude limits.size stack with
      | error fault =>
        rw [hcc] at hcon
        exact hcon
      | ok e =>
        rw [hcc] at hcon
        exact hcon

end JCalc
