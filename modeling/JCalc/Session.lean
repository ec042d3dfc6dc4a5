import JCalc.Sentence
import JCalc.Noun.Text

/-!
A session answers one line after another, each with one line of text and none
with a failure: the value of the sentence, or a report of what is wrong with it.
No line depends on the ones before it.
-/

namespace JCalc

def defaultMaxSize : Int := 100000000

def defaultMaxDepth : Int := 64

def depthCeiling : Int := 256

/-- Without a depth of its own a session has the default one, and without a width it cuts nothing. -/
structure Session where
  maxDepth : Option Int := none
  maxWidth : Option Int := none
  maxSize : Int := defaultMaxSize

def Session.limits (s : Session) : Limits where
  size := s.maxSize
  depth := match s.maxDepth with
    | none => defaultMaxDepth
    | some d => min d depthCeiling

def Session.evaluateLine (s : Session) (line : Text) : Except Fault (Option Noun) := do
  let tokens ← tokenize line
  evaluate s.limits tokens

def Session.display (s : Session) : Option Noun → Except Fault Text
  | none => .ok []
  | some x => x.text s.maxWidth

def Session.answer (s : Session) (line : Text) : Text :=
  match s.evaluateLine line >>= s.display with
  | .ok text => text
  | .error fault => fault.report.line

end JCalc
