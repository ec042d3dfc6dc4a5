import JCalc.Proofs.Moments

/-! All that can happen at one moment of an evaluation, said once: a reduction, which may fail, and
where none matches, the next token, the mark, or the end of the level. -/

namespace JCalc

inductive Advances (limits : Limits) (m : Moment) : Progress → Prop where
  | reduce {r : Redex} {z : Noun} (hr : redex? limits.size m.stack = some r) (hv : r.value = .ok z) :
      Advances limits m (.working { m with stack := r.result z })
  | refuse {r : Redex} {fault : Fault} (hr : redex? limits.size m.stack = some r)
      (hv : r.value = .error fault) : Advances limits m (.answered (.error fault))
  | number {t : Token} {before : List Token} {x : Number} (hr : redex? limits.size m.stack = none)
      (hb : m.before = t :: before) (ht : t.kind = .number x) :
      Advances limits m (.working ⟨.noun (.atom x.toScalar) :: m.stack, before, m.outer⟩)
  | verb {t : Token} {before : List Token} {v : Verb} (hr : redex? limits.size m.stack = none)
      (hb : m.before = t :: before) (ht : t.kind = .verb) (hv : Verb.ofSpelling? t.text = some v) :
      Advances limits m (.working ⟨.verb v :: m.stack, before, m.outer⟩)
  | unknownVerb {t : Token} {before : List Token} (hb : m.before = t :: before) (ht : t.kind = .verb)
      (hv : Verb.ofSpelling? t.text = none) :
      Advances limits m (.answered (.error (.unknownVerb t.text)))
  | finish {t : Token} {before : List Token} (hr : redex? limits.size m.stack = none)
      (hb : m.before = t :: before) (ht : t.kind = .finish) :
      Advances limits m (.working { m with before })
  | enter {t : Token} {before : List Token} {g : Group} (hr : redex? limits.size m.stack = none)
      (hb : m.before = t :: before) (ht : t.kind = .rightParen) (hg : closeGroup? 0 before = some g)
      (hd : (m.outer.length : Int) + 1 ≤ limits.depth) :
      Advances limits m (.working ⟨[], g.inside, ⟨g.opening, m.stack, g.before⟩ :: m.outer⟩)
  | tooDeep {t : Token} {before : List Token} {g : Group} (hb : m.before = t :: before)
      (ht : t.kind = .rightParen) (hg : closeGroup? 0 before = some g)
      (hd : limits.depth < (m.outer.length : Int) + 1) :
      Advances limits m (.answered (.error (.tooDeep (m.outer.length + 1) limits.depth)))
  | unmatchedClose {t : Token} {before : List Token} (hb : m.before = t :: before)
      (ht : t.kind = .rightParen) (hg : closeGroup? 0 before = none) :
      Advances limits m (.answered (.error (.unmatchedClose t.place)))
  | unmatchedOpen {t : Token} {before : List Token} (hb : m.before = t :: before)
      (ht : t.kind = .leftParen) : Advances limits m (.answered (.error (.unmatchedOpen t.place)))
  | strayToken {t : Token} {before : List Token} {label : Text} (hb : m.before = t :: before)
      (ht : t.kind = .other label) :
      Advances limits m (.answered (.error (.strayToken label t.place)))
  | mark (hr : redex? limits.size m.stack = none) (hb : m.before = [])
      (hm : m.stack.head? ≠ some .mark) :
      Advances limits m (.working { m with stack := .mark :: m.stack })
  | unfinished {fault : Fault} (hr : redex? limits.size m.stack = none)
      (hm : m.stack.head? = some .mark) (hf : JCalc.finish m.stack.tail = .error fault) :
      Advances limits m (.answered (.error fault))
  | emptyGroup {level : Suspended} {outer : List Suspended} (ho : m.outer = level :: outer) :
      Advances limits m (.answered (.error (.emptyGroup level.opening.place)))
  | leave {level : Suspended} {outer : List Suspended} {e : Fragment}
      (hr : redex? limits.size m.stack = none) (hb : m.before = [])
      (hm : m.stack.head? = some .mark) (hf : JCalc.finish m.stack.tail = .ok (some e))
      (ho : m.outer = level :: outer) :
      Advances limits m (.working ⟨e.entry :: level.stack, level.before, outer⟩)
  | answer {e : Option Fragment} (hb : m.before = []) (hf : JCalc.finish m.stack.tail = .ok e)
      (ho : m.outer = []) : Advances limits m (.answered (.ok e))

variable {limits : Limits} {stack : List Entry} {before : List Token} {outer : List Suspended}

theorem advances_shift (hr : redex? limits.size stack = none) (t : Token) :
    Advances limits ⟨stack, t :: before, outer⟩
      (Moment.shift limits ⟨stack, t :: before, outer⟩ t before) := by
  unfold Moment.shift
  cases hk : t.kind with
  | number x => exact .number hr rfl hk
  | verb =>
    cases hv : Verb.ofSpelling? t.text with
    | none => exact .unknownVerb rfl hk hv
    | some v => exact .verb hr rfl hk hv
  | finish => exact .finish hr rfl hk
  | leftParen => exact .unmatchedOpen rfl hk
  | other label => exact .strayToken rfl hk
  | rightParen =>
    cases hg : closeGroup? 0 before with
    | none => exact .unmatchedClose rfl hk hg
    | some g =>
      by_cases hd : limits.depth < (outer.length : Int) + 1
      · simp only [hd, if_true]
        exact .tooDeep rfl hk hg hd
      · simp only [hd, if_false]
        exact .enter hr rfl hk hg (Int.not_lt.mp hd)

theorem advances_leave (hr : redex? limits.size stack = none) (hm : stack.head? = some .mark) :
    Advances limits ⟨stack, [], outer⟩ (leave outer (finish stack.tail)) := by
  rcases hf : finish stack.tail with fault | e
  · exact .unfinished hr hm hf
  · rcases outer with _ | ⟨level, outer⟩
    · exact .answer rfl hf rfl
    · rcases e with _ | e
      · exact .emptyGroup rfl
      · exact .leave hr rfl hm hf rfl

theorem advances_next (limits : Limits) (m : Moment) : Advances limits m (m.next limits) := by
  obtain ⟨stack, before, outer⟩ := m
  unfold Moment.next
  cases hr : redex? limits.size stack with
  | some r =>
    obtain ⟨above, value, below⟩ := r
    cases value with
    | error fault => exact .refuse hr rfl
    | ok z => exact @Advances.reduce limits ⟨stack, before, outer⟩ _ z hr rfl
  | none =>
    rcases before with _ | ⟨t, before⟩
    · by_cases hm : stack.head? = some .mark
      · simp only [hm, if_true]
        exact advances_leave hr hm
      · simp only [hm, if_false]
        exact .mark hr rfl hm
    · exact advances_shift hr t

end JCalc
