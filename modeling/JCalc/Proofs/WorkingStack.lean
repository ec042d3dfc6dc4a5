import JCalc.Proofs.Evaluation
import JCalc.Proofs.StackForms
import JCalc.Proofs.UnmatchedParens

/-! The working stack at every moment of an evaluation. The level at work holds what the fragments
read on it so far leave, on the way to being fully reduced; so its stack has one of few forms
whenever it is, and two entries or more that are left at the end always hold a verb. -/

namespace JCalc

def ReadAs (limit : Int) (ts : List Token) (es : List Fragment) : Prop :=
  ∃ nesting, Reads limit ts nesting es

/-- The tokens of the level at work. It is the whole sentence or a group, and the level around a
group holds what the tokens right of the group leave. -/
inductive Spans (limit : Int) (tokens : List Token) : List Suspended → List Token → Prop where
  | whole : Spans limit tokens [] tokens
  | group {level : Suspended} {outer : List Suspended} {closing : Token} {inside passed : List Token}
      {es : List Fragment}
      (h : Spans limit tokens outer
        (level.before.reverse ++ level.opening :: (inside ++ closing :: passed)))
      (ho : level.opening.kind = .leftParen) (hc : closing.kind = .rightParen) (hi : Balanced inside)
      (hp : ReadAs limit passed es) (hs : shifted limit [] es = .ok level.stack) :
      Spans limit tokens (level :: outer) inside

/-- The stack will be what the fragments leave when they are shifted, or what the mark leaves when
it is shifted after them, which happens only when no tokens are left. -/
structure Reducing (limit : Int) (es : List Fragment) (before : List Token) (stack : List Entry) :
    Prop where
  unmarked : stack.head? ≠ some .mark → reduce limit stack = shifted limit [] es
  marked : stack.head? = some .mark →
    before = [] ∧ ∃ s, shifted limit [] es = .ok s ∧ reduce limit stack = reduce limit (.mark :: s)
  length_le : stack.length ≤ 4 + (finalVerbs es).length

def Moment.InSpan (limit : Int) (tokens : List Token) (m : Moment) : Prop :=
  ∃ passed es, Spans limit tokens m.outer (m.before.reverse ++ passed) ∧ ReadAs limit passed es ∧
    Reducing limit es m.before m.stack

section

variable {limit : Int} {es fs : List Fragment} {before ts : List Token} {stack : List Entry}

theorem ReadAs.cons {t : Token} {n : Nat} (ht : Reads limit [t] n fs) (h : ReadAs limit ts es) :
    ReadAs limit (t :: ts) (fs ++ es) := by
  obtain ⟨nesting, h⟩ := h
  exact ⟨max n nesting, .append ht h⟩

theorem reducing_nil (limit : Int) (before : List Token) : Reducing limit [] before [] :=
  ⟨fun _ => reduce_of_redex?_none rfl, nofun, Nat.zero_le _⟩

theorem reducing_entry (hs : shifted limit [] es = .ok stack) (e : Fragment) (before : List Token) :
    Reducing limit (e :: es) before (e.entry :: stack) where
  unmarked _ := by
    rw [shifted, hs]
    rfl
  marked hm := absurd hm (head?_entry_ne e stack)
  length_le := by
    have hstack := length_shifted_le hs
    have hverbs := length_finalVerbs_cons e es
    rw [List.length_cons]
    omega

theorem reducing_mark (hs : shifted limit [] es = .ok stack) : Reducing limit es [] (.mark :: stack) where
  unmarked hm := absurd rfl hm
  marked _ := ⟨rfl, stack, hs, rfl⟩
  length_le := by
    have hstack := length_shifted_le hs
    rw [List.length_cons]
    omega

namespace Reducing

theorem result (h : Reducing limit es before stack) {r : Redex} (hr : redex? limit stack = some r)
    {z : Noun} (hv : r.value = .ok z) : Reducing limit es before (r.result z) := by
  have hreduce : reduce limit (r.result z) = reduce limit stack := by
    rw [reduce_of_redex? hr, hv]
    rfl
  refine ⟨fun hm => ?_, fun hm => ?_, ?_⟩
  · rw [hreduce]
    exact h.unmarked fun hm' => hm ((head?_result hr z).mpr hm')
  · rw [hreduce]
    exact h.marked ((head?_result hr z).mp hm)
  · exact (Nat.le_of_lt (length_result_lt hr z)).trans h.length_le

theorem head?_ne {t : Token} (h : Reducing limit es (t :: before) stack) : stack.head? ≠ some .mark :=
  fun hm => List.cons_ne_nil _ _ (h.marked hm).1

theorem shifted_eq (h : Reducing limit es before stack) (hr : redex? limit stack = none)
    (hm : stack.head? ≠ some .mark) : shifted limit [] es = .ok stack := by
  rw [← h.unmarked hm, reduce_of_redex?_none hr]

theorem pass (h : Reducing limit es before stack) (hm : stack.head? ≠ some .mark) (before' : List Token) :
    Reducing limit es before' stack :=
  ⟨h.unmarked, fun hm' => absurd hm' hm, h.length_le⟩

theorem exists_of_mark (h : Reducing limit es before stack) (hr : redex? limit stack = none)
    (hm : stack.head? = some .mark) :
    ∃ x : Option Noun, stack = .mark :: ((x.map Entry.noun).toList ++ finalVerbs es) := by
  obtain ⟨_, s, hs, hreduce⟩ := h.marked hm
  rw [reduce_of_redex?_none hr] at hreduce
  exact exists_marked hs hreduce.symm

theorem finish_eq (h : Reducing limit es before stack) (hr : redex? limit stack = none)
    (hm : stack.head? = some .mark) : (finish stack.tail).toOption = sentence? limit es := by
  obtain ⟨_, s, hs, hreduce⟩ := h.marked hm
  rw [← toOption_conclude_shifted, hs]
  simp only [Except.bind]
  rw [conclude_eq, ← hreduce, reduce_of_redex?_none hr]
  rfl

theorem fullyReduced (h : Reducing limit es before stack) (hr : redex? limit stack = none) :
    FullyReduced limit stack := by
  obtain ⟨vs, hvs⟩ := exists_finalVerbs es
  by_cases hm : stack.head? = some .mark
  · obtain ⟨x, rfl⟩ := h.exists_of_mark hr hm
    rw [hvs, ← List.cons_append]
    exact (fullyReduced_mark x).append_verbs vs
  · obtain ⟨front, hfront, rfl, _⟩ := exists_front (h.shifted_eq hr hm)
    rw [hvs]
    exact hfront.fullyReduced.append_verbs vs

end Reducing

end

section

variable {limits : Limits} {tokens before : List Token} {stack : List Entry} {outer : List Suspended}
  {m m' : Moment}

theorem Spans.pass {limit : Int} {passed : List Token} {t : Token}
    (h : Spans limit tokens outer ((t :: before).reverse ++ passed)) :
    Spans limit tokens outer (before.reverse ++ t :: passed) := by
  simpa using h

/-- A group that was read stands for one fragment on the level around it. -/
theorem inSpan_leave {limit : Int} {level : Suspended} {passed : List Token} {es : List Fragment}
    {e : Fragment} (hspan : Spans limit tokens (level :: outer) passed) (hread : ReadAs limit passed es)
    (he : sentence? limit es = some (some e)) :
    Moment.InSpan limit tokens ⟨e.entry :: level.stack, level.before, outer⟩ := by
  cases hspan with
  | @group _ _ closing _ passed' es' h ho hc _ hp hs =>
    obtain ⟨_, hread⟩ := hread
    obtain ⟨_, hp⟩ := hp
    have hcut : level.opening :: (passed ++ closing :: passed') =
        level.opening :: (passed ++ [closing]) ++ passed' := by simp
    refine ⟨level.opening :: (passed ++ closing :: passed'), e :: es', h, ?_, reducing_entry hs e _⟩
    rw [hcut]
    exact ⟨_, .append (.group ho hc hread he) hp⟩

theorem inSpan_next (h : m.InSpan limits.size tokens) (hn : m.next limits = .working m') :
    m'.InSpan limits.size tokens := by
  have hadvances := advances_next limits m
  rw [hn] at hadvances
  obtain ⟨stack, before, outer⟩ := m
  obtain ⟨passed, es, hspan, hread, hred⟩ := h
  dsimp only at hspan hred
  cases hadvances with
  | reduce hr hv => exact ⟨passed, es, hspan, hread, hred.result hr hv⟩
  | @number t before x hr hb ht =>
    cases hb
    have hs := hred.shifted_eq hr hred.head?_ne
    exact ⟨t :: passed, _, hspan.pass, hread.cons (.number ht), reducing_entry hs _ before⟩
  | @verb t before v hr hb ht hv =>
    cases hb
    have hs := hred.shifted_eq hr hred.head?_ne
    exact ⟨t :: passed, _, hspan.pass, hread.cons (.verb ht hv), reducing_entry hs _ before⟩
  | @finish t before hr hb ht =>
    cases hb
    exact ⟨t :: passed, es, hspan.pass, hread.cons (.finish ht), hred.pass hred.head?_ne before⟩
  | @enter t before g hr hb ht hg hd =>
    cases hb
    have hs := hred.shifted_eq hr hred.head?_ne
    obtain ⟨ho, rfl⟩ := eq_of_closeGroup? hg
    refine ⟨[], [], ?_, ⟨0, .empty⟩, reducing_nil _ _⟩
    rw [List.append_nil]
    refine .group ?_ ho ht (balanced_of_closeGroup? hg) hread hs
    simpa using hspan
  | mark hr hb hm =>
    cases hb
    exact ⟨passed, es, hspan, hread, reducing_mark (hred.shifted_eq hr hm)⟩
  | @leave level outer e hr hb hm hf ho =>
    cases hb
    cases ho
    have hvalue := hred.finish_eq hr hm
    rw [hf] at hvalue
    exact inSpan_leave hspan hread hvalue.symm

theorem inSpan_of_occurs (h : m.Occurs limits tokens) : m.InSpan limits.size tokens := by
  refine occurs_induction_next (fun _ => ?_) (fun _ _ => inSpan_next) h
  refine ⟨[], [], ?_, ⟨0, .empty⟩, reducing_nil _ _⟩
  rw [List.reverse_reverse, List.append_nil]
  exact .whole

/-- What is left of a sentence without a value always holds a verb, which is reported instead. -/
theorem next_ne_irreducible (hm : m.Occurs limits tokens) :
    m.next limits ≠ .answered (.error .irreducible) := by
  intro hn
  have hadvances := advances_next limits m
  rw [hn] at hadvances
  cases hadvances with
  | refuse hr hv => cases verbFault_of_redex hm hr hv
  | unfinished hr hmark hf =>
    obtain ⟨_, es, _, _, hred⟩ := inSpan_of_occurs hm
    obtain ⟨x, hstack⟩ := hred.exists_of_mark hr hmark
    rw [hstack] at hf
    exact finish_ne_irreducible x es hf

/-- No other fault of the grammar is reported without a place. -/
theorem irreducible_of_report {fault : Fault} {message : Text}
    (h : fault.report = .grammatical message none) : fault = .irreducible := by
  cases fault with
  | irreducible => rfl
  | _ => cases h

end

/-- Whenever a stack is fully reduced, it holds the verbs that end the sentence read so far, and left
of them at most a value and what waits for it, or the mark and at most a value; once there is a
value, the verbs are those that end the whole sentence. Then nothing can be reduced anywhere in it,
and no two nouns are adjacent; and at no moment does it hold more than four entries above those
verbs. So no sentence fails for want of a single value. -/
theorem working_stack_normal_form (limits : Limits) (tokens : List Token) :
    (∀ m : Moment, m.Occurs limits tokens →
      m.next limits ≠ .answered (.error .irreducible) ∧
      ∃ passed es, Spans limits.size tokens m.outer (m.before.reverse ++ passed) ∧
        ReadAs limits.size passed es ∧
        (redex? limits.size m.stack = none →
          (m.stack.head? ≠ some .mark → ∃ front, Front front ∧ m.stack = front ++ finalVerbs es ∧
            (front ≠ [] → ∀ fs, finalVerbs (fs ++ es) = finalVerbs es)) ∧
          (m.stack.head? = some .mark → m.before = [] ∧
            ∃ x : Option Noun, m.stack = .mark :: ((x.map Entry.noun).toList ++ finalVerbs es)) ∧
          FullyReduced limits.size m.stack ∧
          ∀ a x y b, m.stack ≠ a ++ .noun x :: .noun y :: b) ∧
        m.stack.length ≤ 4 + (finalVerbs es).length ∧
        ((∀ v, es.getLast? ≠ some (.verb v)) → m.stack.length ≤ 4)) ∧
    ∀ fault, evaluate limits tokens = .error fault →
      fault.report ≠ .grammatical "Sentence does not reduce to a single value".toList none := by
  refine ⟨fun m hm => ⟨next_ne_irreducible hm, ?_⟩, fun fault he hreport => ?_⟩
  · obtain ⟨passed, es, hspan, hread, hred⟩ := inSpan_of_occurs hm
    refine ⟨passed, es, hspan, hread, fun hr => ⟨fun hmark => ?_, fun hmark => ?_, ?_⟩,
      hred.length_le, fun hlast => ?_⟩
    · exact exists_front (hred.shifted_eq hr hmark)
    · exact ⟨(hred.marked hmark).1, hred.exists_of_mark hr hmark⟩
    · exact ⟨hred.fullyReduced hr, (hred.fullyReduced hr).no_adjacent_nouns⟩
    · simpa [finalVerbs_of_getLast? hlast] using hred.length_le
  · obtain rfl := irreducible_of_report hreport
    rcases exists_failing_moment he with ⟨_, hdeep⟩ | ⟨v, hverb⟩ | ⟨m, hm, hnext⟩
    · cases hdeep
    · cases hverb
    · exact next_ne_irreducible hm hnext

theorem working_stack_normal_form_stranded_verb :
    let infinity : Number := ⟨.infinity, .zero⟩
    let tokens : List Token := [⟨.verb, ['#'], 0, 1⟩, ⟨.number infinity, ['_'], 1, 2⟩, ⟨.verb, ['-'], 2, 3⟩]
    let m : Moment := ⟨[.verb .tally, .noun (.atom infinity.toScalar), .verb .minus], [], []⟩
    m.Occurs ⟨1, 1⟩ tokens ∧ redex? 1 m.stack = none ∧ m.stack.head? ≠ some .mark ∧
      (∃ es front, Front front ∧ m.stack = front ++ finalVerbs es) ∧ FullyReduced 1 m.stack ∧
      evaluate ⟨1, 1⟩ tokens = .error (.noRightArgument .minus) ∧
      (Fault.noRightArgument .minus).report ≠
        .grammatical "Sentence does not reduce to a single value".toList none := by
  intro infinity tokens m
  obtain ⟨hall, hreport⟩ := working_stack_normal_form ⟨1, 1⟩ tokens
  have hminus : Leads ⟨1, 1⟩ (begin ⟨1, 1⟩ tokens) (.working ⟨[.verb .minus], tokens.reverse.tail, []⟩) :=
    .single ⟨⟨[], tokens.reverse, []⟩, rfl, rfl⟩
  have hm : m.Occurs ⟨1, 1⟩ tokens := (hminus.tail ⟨_, rfl, rfl⟩).tail ⟨_, rfl, rfl⟩
  have hfails : evaluate ⟨1, 1⟩ tokens = .error (.noRightArgument .minus) := by decide +kernel
  have hmark : m.stack.head? ≠ some .mark := nofun
  obtain ⟨_, _, es, _, _, hforms, _⟩ := hall m hm
  obtain ⟨hfront, _, hreduced, _⟩ := hforms rfl
  obtain ⟨front, hfront, hstack, _⟩ := hfront hmark
  exact ⟨hm, rfl, hmark, ⟨es, front, hfront, hstack⟩, hreduced, hfails, hreport _ hfails⟩

end JCalc
