import JCalc.Proofs.Balanced
import JCalc.Proofs.Transitions

/-! A property of nouns that joining keeps and that verbs keep holds of every noun at
every moment of an evaluation, and of its result. The same goes for the faults: each
comes from a join or a verb, or from the way the sentence is put together. -/

namespace JCalc

def Yields (p : Noun → Prop) (q : Fault → Prop) : Except Fault Noun → Prop
  | .ok x => p x
  | .error fault => q fault

/-- Joins and verbs keep the property, and fail in no other ways than the given ones. -/
structure Closed (limit : Int) (p : Noun → Prop) (q : Fault → Prop) : Prop where
  join : ∀ {x y : Noun}, p x → p y → Yields p q (x.concatenate limit y)
  monad : ∀ (v : Verb) {y : Noun}, p y → Yields p q (v.applyMonad limit y)
  dyad : ∀ (v : Verb) {x y : Noun}, p x → p y → Yields p q (v.applyDyad x y)

/-- The faults that are found in a sentence before any verb is applied or noun joined. -/
inductive SentenceFault (tokens : List Token) : Fault → Prop where
  | unmatchedOpen (place : Int) : SentenceFault tokens (.unmatchedOpen place)
  | unmatchedClose (place : Int) : SentenceFault tokens (.unmatchedClose place)
  | emptyGroup (place : Int) : SentenceFault tokens (.emptyGroup place)
  | strayToken {t : Token} {label : Text} (ht : t ∈ tokens) (hk : t.kind = .other label) :
      SentenceFault tokens (.strayToken label t.place)
  | unknownVerb {t : Token} (ht : t ∈ tokens) (hk : t.kind = .verb)
      (hv : Verb.ofSpelling? t.text = none) : SentenceFault tokens (.unknownVerb t.text)
  | irreducible : SentenceFault tokens .irreducible
  | noRightArgument (v : Verb) : SentenceFault tokens (.noRightArgument v)
  | noArgument (v : Verb) : SentenceFault tokens (.noArgument v)
  | tooDeep (depth limit : Int) : SentenceFault tokens (.tooDeep depth limit)

def Moment.Holds (m : Moment) (x : Noun) : Prop :=
  .noun x ∈ m.stack ∨ ∃ level ∈ m.outer, .noun x ∈ level.stack

section

variable {limits : Limits} {p : Noun → Prop} {q : Fault → Prop} {tokens : List Token}
  {stack : List Entry} {before : List Token} {outer : List Suspended}

/-- A level all of whose nouns have the property, and whose tokens are among the given ones. -/
structure LevelKeeps (p : Noun → Prop) (tokens : List Token) (stack : List Entry)
    (before : List Token) : Prop where
  noun : ∀ x, .noun x ∈ stack → p x
  token : ∀ t ∈ before, t ∈ tokens

def Progress.Keeps (p : Noun → Prop) (q : Fault → Prop) (tokens : List Token) : Progress → Prop
  | .working m => LevelKeeps p tokens m.stack m.before ∧
      ∀ level ∈ m.outer, LevelKeeps p tokens level.stack level.before
  | .answered (.ok e) => ∀ x, e = some (.noun x) → p x
  | .answered (.error fault) => q fault ∨ SentenceFault tokens fault

theorem LevelKeeps.push {e : Entry} (h : LevelKeeps p tokens stack before)
    (he : ∀ x, e = .noun x → p x) : LevelKeeps p tokens (e :: stack) before := by
  refine ⟨?_, h.token⟩
  intro x hx
  rcases List.mem_cons.mp hx with hx | hx
  · exact he x hx.symm
  · exact h.noun x hx

theorem LevelKeeps.sublist {before' : List Token} (h : LevelKeeps p tokens stack before)
    (hb : ∀ t ∈ before', t ∈ before) : LevelKeeps p tokens stack before' :=
  ⟨h.noun, fun t ht => h.token t (hb t ht)⟩

theorem yields_redex (hc : Closed limits.size p q) {r : Redex}
    (hr : redex? limits.size stack = some r) (hp : ∀ x, .noun x ∈ stack → p x) :
    Yields p q r.value := by
  rcases redex?_cases hr with ⟨x, y, hs, _, hv⟩ | ⟨v, y, hs, _, hv⟩ | ⟨e, x, v, y, hs, _, hv⟩
  · rw [hv]
    exact hc.join (hp x (by simp [hs])) (hp y (by simp [hs]))
  · rw [hv]
    exact hc.monad v (hp y (by simp [hs]))
  · rw [hv]
    exact hc.dyad v (hp x (by simp [hs])) (hp y (by simp [hs]))

theorem mem_of_mem_redex {limit : Int} {r : Redex}
    (hr : redex? limit stack = some r) {e : Entry} (he : e ∈ r.before ∨ e ∈ r.after) :
    e ∈ stack := by
  rcases redex?_cases hr with ⟨x, y, hs, hb, _⟩ | ⟨v, y, hs, _, _⟩ | ⟨f, x, v, y, hs, hb, _⟩
  · rw [hb] at he
    simp only [List.not_mem_nil, false_or] at he
    simp [hs, he]
  · rcases he with he | he <;> simp [hs, he]
  · rw [hb] at he
    simp only [List.mem_singleton] at he
    rcases he with he | he <;> simp [hs, he]

theorem sentenceFault_of_finish {fault : Fault}
    (h : finish stack = .error fault) : SentenceFault tokens fault := by
  rcases fault_of_finish h with rfl | ⟨v, rfl⟩
  · exact .irreducible
  · exact .noRightArgument v

theorem eq_of_finish {e : Fragment} (h : finish stack = .ok (some e)) :
    stack = [e.entry] := by
  rcases stack with _ | ⟨f, _ | ⟨g, rest⟩⟩
  · cases h
  · cases f <;> cases h <;> rfl
  · rw [finish_cons_cons] at h
    cases hv : firstVerb? (f :: g :: rest) <;> rw [hv] at h <;> cases h

theorem LevelKeeps.noun_of_finish (h : LevelKeeps p tokens stack before) {x : Noun}
    (hf : finish stack.tail = .ok (some (.noun x))) : p x :=
  h.noun x (List.mem_of_mem_tail (by simp [eq_of_finish hf, Fragment.entry]))

theorem LevelKeeps.tail {t : Token} (h : LevelKeeps p tokens stack (t :: before)) :
    LevelKeeps p tokens stack before :=
  h.sublist fun _ => List.mem_cons_of_mem t

theorem keeps_result {r : Redex} {z : Noun} (hr : redex? limits.size stack = some r) (hz : p z)
    (h : LevelKeeps p tokens stack before) : LevelKeeps p tokens (r.result z) before := by
  refine ⟨?_, h.token⟩
  intro x hx
  rcases List.mem_append.mp hx with hx | hx
  · exact h.noun x (mem_of_mem_redex hr (.inl hx))
  · rcases List.mem_cons.mp hx with hx | hx
    · cases hx
      exact hz
    · exact h.noun x (mem_of_mem_redex hr (.inr hx))

theorem keeps_next (hc : Closed limits.size p q)
    (hn : ∀ t ∈ tokens, ∀ x, t.kind = .number x → p (.atom x.toScalar)) {m : Moment}
    (h : (Progress.working m).Keeps p q tokens) : (m.next limits).Keeps p q tokens := by
  obtain ⟨stack, before, outer⟩ := m
  obtain ⟨hl, ho⟩ := h
  have hadvances := advances_next limits ⟨stack, before, outer⟩
  generalize Moment.next limits ⟨stack, before, outer⟩ = next at hadvances ⊢
  dsimp only at hl ho
  cases hadvances with
  | reduce hr hv =>
    have hyields := yields_redex hc hr hl.noun
    rw [hv] at hyields
    exact ⟨keeps_result hr hyields hl, ho⟩
  | refuse hr hv =>
    have hyields := yields_redex hc hr hl.noun
    rw [hv] at hyields
    exact .inl hyields
  | @number t _ x _ hb ht =>
    cases hb
    refine ⟨hl.tail.push ?_, ho⟩
    rintro y ⟨⟩
    exact hn t (hl.token t List.mem_cons_self) x ht
  | verb _ hb =>
    cases hb
    exact ⟨hl.tail.push nofun, ho⟩
  | @unknownVerb t _ hb ht hv =>
    cases hb
    exact .inr (.unknownVerb (hl.token t List.mem_cons_self) ht hv)
  | finish _ hb =>
    cases hb
    exact ⟨hl.tail, ho⟩
  | enter _ hb _ hg =>
    cases hb
    obtain ⟨_, rfl⟩ := eq_of_closeGroup? hg
    refine ⟨⟨by simp, fun u hu => hl.tail.token u (by simp [hu])⟩, ?_⟩
    intro level hlevel
    rcases List.mem_cons.mp hlevel with rfl | hlevel
    · exact hl.tail.sublist fun u hu => by simp [hu]
    · exact ho level hlevel
  | tooDeep => exact .inr (.tooDeep _ _)
  | unmatchedClose => exact .inr (.unmatchedClose _)
  | unmatchedOpen => exact .inr (.unmatchedOpen _)
  | @strayToken t _ label hb ht =>
    cases hb
    exact .inr (.strayToken (hl.token t List.mem_cons_self) ht)
  | mark => exact ⟨hl.push nofun, ho⟩
  | unfinished _ _ hf => exact .inr (sentenceFault_of_finish hf)
  | emptyGroup => exact .inr (.emptyGroup _)
  | @leave level outer e _ _ _ hf houter =>
    cases houter
    refine ⟨(ho level List.mem_cons_self).push ?_, fun l hmem => ho l (List.mem_cons_of_mem _ hmem)⟩
    intro x hx
    cases e with
    | noun y =>
      cases hx
      exact hl.noun_of_finish hf
    | verb v => cases hx
  | answer _ hf =>
    rintro x rfl
    exact hl.noun_of_finish hf

theorem keeps_begin : (begin limits tokens).Keeps p q tokens := by
  rw [begin]
  split
  · exact .inr (.tooDeep 0 limits.depth)
  · exact ⟨⟨by simp, fun t ht => List.mem_reverse.mp ht⟩, by simp⟩

theorem keeps_of_leads (hc : Closed limits.size p q)
    (hn : ∀ t ∈ tokens, ∀ x, t.kind = .number x → p (.atom x.toScalar)) {a b : Progress}
    (h : Leads limits a b) (ha : a.Keeps p q tokens) : b.Keeps p q tokens := by
  induction h with
  | refl => exact ha
  | tail _ hs ih =>
    obtain ⟨m, rfl, rfl⟩ := hs
    exact keeps_next hc hn ih

theorem holds_of_occurs (hc : Closed limits.size p q)
    (hn : ∀ t ∈ tokens, ∀ x, t.kind = .number x → p (.atom x.toScalar)) {m : Moment}
    (h : m.Occurs limits tokens) {x : Noun} (hx : m.Holds x) : p x := by
  obtain ⟨hl, ho⟩ : (Progress.working m).Keeps p q tokens := keeps_of_leads hc hn h keeps_begin
  rcases hx with hx | ⟨level, hlevel, hx⟩
  · exact hl.noun x hx
  · exact (ho level hlevel).noun x hx

theorem keeps_evaluate (hc : Closed limits.size p q)
    (hn : ∀ t ∈ tokens, ∀ x, t.kind = .number x → p (.atom x.toScalar)) :
    match evaluate limits tokens with
    | .ok value => ∀ x, value = some x → p x
    | .error fault => q fault ∨ SentenceFault tokens fault := by
  obtain ⟨r, hl, he⟩ := leads_evaluate limits tokens
  have hk : (Progress.answered r).Keeps p q tokens := keeps_of_leads hc hn hl keeps_begin
  rw [he]
  rcases r with fault | _ | x | v
  · exact hk
  · exact nofun
  · intro y hy
    cases hy
    exact hk x rfl
  · exact .inr (.noArgument v)

end

end JCalc
