import JCalc.Token
import JCalc.Verb.Apply

/-!
Evaluation of sentences. Verbs have no precedence: each takes everything to its
right as its right argument. The tokens are shifted from right to left onto a
stack whose leftmost entries are reduced after every shift, as soon as they show
whether a verb has a left argument. A group in parentheses is evaluated on a
stack of its own and shifted as one fragment.
-/

namespace JCalc

/-- How much a sentence may ask for: elements in an array, and groups inside each other. -/
structure Limits where
  size : Int
  depth : Int

inductive Fragment where
  | noun (x : Noun)
  | verb (v : Verb)
deriving DecidableEq

/-- An entry of the working stack; the mark stands for the left end of the sentence. -/
inductive Entry where
  | mark
  | noun (x : Noun)
  | verb (v : Verb)
deriving DecidableEq

def Fragment.entry : Fragment → Entry
  | noun x => .noun x
  | verb v => .verb v

/-- Reduces the leftmost entries while they match: two nouns are joined, a verb at the left end or
right of another verb takes its noun alone, a verb between nouns takes both. The first entry of
the stack is the leftmost. -/
def reduce (limit : Int) : List Entry → Except Fault (List Entry)
  | .noun x :: .noun y :: rest =>
    match x.concatenate limit y with
    | .error fault => .error fault
    | .ok z => reduce limit (.noun z :: rest)
  | .mark :: .verb v :: .noun y :: rest =>
    match v.applyMonad limit y with
    | .error fault => .error fault
    | .ok z => reduce limit (.mark :: .noun z :: rest)
  | e :: .verb u :: .verb v :: .noun y :: rest =>
    match v.applyMonad limit y with
    | .error fault => .error fault
    | .ok z => reduce limit (e :: .verb u :: .noun z :: rest)
  | e :: .noun x :: .verb v :: .noun y :: rest =>
    match v.applyDyad x y with
    | .error fault => .error fault
    | .ok z => reduce limit (e :: .noun z :: rest)
  | stack => .ok stack
termination_by stack => stack.length

/-- What the closing parenthesis of a group has on its left, nearest token first: the inside, the
opening parenthesis, and what comes before it. -/
structure Group where
  inside : List Token
  opening : Token
  before : List Token

def Group.push (t : Token) (g : Group) : Group := { g with inside := t :: g.inside }

def closeGroup? (surplus : Nat) : List Token → Option Group
  | [] => none
  | t :: before =>
    match t.kind, surplus with
    | .leftParen, 0 => some ⟨[], t, before⟩
    | .leftParen, n + 1 => (closeGroup? n before).map (Group.push t)
    | .rightParen, n => (closeGroup? (n + 1) before).map (Group.push t)
    | _, n => (closeGroup? n before).map (Group.push t)

theorem length_of_closeGroup? {ts : List Token} {surplus : Nat} {g : Group}
    (h : closeGroup? surplus ts = some g) :
    g.inside.length + g.before.length + 1 = ts.length := by
  induction ts generalizing surplus g with
  | nil => simp [closeGroup?] at h
  | cons t before ih =>
    have push {n : Nat} (hp : (closeGroup? n before).map (Group.push t) = some g) :
        g.inside.length + g.before.length + 1 = (t :: before).length := by
      obtain ⟨g', hg, rfl⟩ := Option.map_eq_some_iff.mp hp
      have := ih hg
      simp [Group.push]
      omega
    unfold closeGroup? at h
    split at h
    · cases h
      simp
    all_goals exact push h

def firstVerb? : List Entry → Option Verb
  | [] => none
  | .verb v :: _ => some v
  | _ :: rest => firstVerb? rest

/-- What a fully reduced stack amounts to, the mark taken off. Two entries or more are no value,
and the leftmost verb among them lacks a right argument. -/
def finish : List Entry → Except Fault (Option Fragment)
  | [] => .ok none
  | [.noun x] => .ok (some (.noun x))
  | [.verb v] => .ok (some (.verb v))
  | rest =>
    match firstVerb? rest with
    | some v => .error (.noRightArgument v)
    | none => .error .irreducible

def conclude (limit : Int) (stack : List Entry) : Except Fault (Option Fragment) :=
  match reduce limit (.mark :: stack) with
  | .error fault => .error fault
  | .ok stack => finish stack.tail

/-- Shifts the given tokens, nearest first, onto the stack. -/
def shiftAll (limits : Limits) (depth : Int) :
    List Token → List Entry → Except Fault (List Entry)
  | [], stack => .ok stack
  | t :: before, stack =>
    match t.kind with
    | .number x =>
      match reduce limits.size (.noun (.atom x.toScalar) :: stack) with
      | .error fault => .error fault
      | .ok stack => shiftAll limits depth before stack
    | .verb =>
      match Verb.ofSpelling? t.text with
      | none => .error (.unknownVerb t.text)
      | some v =>
        match reduce limits.size (.verb v :: stack) with
        | .error fault => .error fault
        | .ok stack => shiftAll limits depth before stack
    | .rightParen =>
      match _ : closeGroup? 0 before with
      | none => .error (.unmatchedClose t.place)
      | some g =>
        if limits.depth < depth + 1 then .error (.tooDeep (depth + 1) limits.depth)
        else
          match shiftAll limits (depth + 1) g.inside [] with
          | .error fault => .error fault
          | .ok inner =>
            match conclude limits.size inner with
            | .error fault => .error fault
            | .ok none => .error (.emptyGroup g.opening.place)
            | .ok (some fragment) =>
              match reduce limits.size (fragment.entry :: stack) with
              | .error fault => .error fault
              | .ok stack => shiftAll limits depth g.before stack
    | .leftParen => .error (.unmatchedOpen t.place)
    | .other label => .error (.strayToken label t.place)
    | .finish => shiftAll limits depth before stack
termination_by ts => ts.length
decreasing_by
  · simp
  · simp
  · have := length_of_closeGroup? ‹closeGroup? 0 before = some g›
    simp
    omega
  · have := length_of_closeGroup? ‹closeGroup? 0 before = some g›
    simp
    omega
  · simp

def evaluate (limits : Limits) (tokens : List Token) : Except Fault (Option Noun) :=
  if limits.depth < 0 then .error (.tooDeep 0 limits.depth)
  else
    match shiftAll limits 0 tokens.reverse [] with
    | .error fault => .error fault
    | .ok stack =>
      match conclude limits.size stack with
      | .error fault => .error fault
      | .ok none => .ok none
      | .ok (some (.noun x)) => .ok (some x)
      | .ok (some (.verb v)) => .error (.noArgument v)

end JCalc
