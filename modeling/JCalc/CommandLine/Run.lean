import JCalc.CommandLine.Options
import JCalc.Transcript.Check
import JCalc.Transcript.Update

/-!
Running a command line over an input and a store of files: what it writes, the
status it ends with, and the store it leaves behind. An option without a value
does no harm until the value is needed, and then the command fails.
-/

namespace JCalc

inductive Failure where
  | file (fault : FileFault)
  | noFile
  | noLimit
deriving DecidableEq

/-- A failure in place of a status cuts the output short. -/
structure Outcome where
  status : Except Failure Nat
  output : Text
  store : Store

namespace Command

/-- The command line does not set the size of arrays. -/
def session (c : Command) (maxSize : Int) : Session := ⟨c.maxDepth.number?, c.maxWidth.number?, maxSize⟩

/-- A line that needs a limit which its option leaves void: every line of words needs the depth,
every line with a value the width. -/
def lacksLimit (c : Command) (maxSize : Int) (line : Text) : Bool :=
  match tokenize line with
  | .error _ => false
  | .ok _ =>
    c.maxDepth == .void ||
      (c.maxWidth == .void && (c.session maxSize).evaluateLine line matches .ok (some _))

def lacksLimitIn (c : Command) (maxSize : Int) (transcript : Text) : Bool :=
  (lines transcript).any fun l => (promptedInput? l.body).any (c.lacksLimit maxSize)

def transcript (c : Command) (maxSize : Int) (store : Store) (file : Option Pathname) :
    Except Failure (Pathname × Text) :=
  match file with
  | none => .error .noFile
  | some p =>
    match store.readText p with
    | .error fault => .error (.file fault)
    | .ok text => if c.lacksLimitIn maxSize text then .error .noLimit else .ok (p, text)

/-- A check ends with status 1 if there is a difference to report. -/
def run (c : Command) (maxSize : Int) (store : Store) (input : Text) : Outcome :=
  let session := c.session maxSize
  match c.task with
  | .converse =>
    let inputs := inputLines input
    let answered := inputs.takeWhile fun l => !c.lacksLimit maxSize l
    if answered.length = inputs.length then ⟨.ok 0, session.converse input, store⟩
    else ⟨.error .noLimit, session.dialogue answered ++ prompt, store⟩
  | .check file =>
    match c.transcript maxSize store file with
    | .error failure => ⟨.error failure, [], store⟩
    | .ok (p, text) =>
      let diff := session.diff p.text text
      ⟨.ok (if diff.isEmpty then 0 else 1), diff, store⟩
  | .rerun file =>
    match c.transcript maxSize store file with
    | .error failure => ⟨.error failure, [], store⟩
    | .ok (_, text) => ⟨.ok 0, session.rerun text, store⟩
  | .update file =>
    match c.transcript maxSize store file with
    | .error failure => ⟨.error failure, [], store⟩
    | .ok (p, _) =>
      let (store, changed) := session.update store p
      ⟨(changed.mapError Failure.file).map fun _ => 0, [], store⟩

end Command

def Refusal.status : Refusal → Nat
  | help => 0
  | usage => 2

def runArguments (arguments : List Text) (maxSize : Int) (store : Store) (input : Text) :
    Outcome :=
  match Command.ofArguments arguments with
  | .error refusal => ⟨.ok refusal.status, [], store⟩
  | .ok command => command.run maxSize store input

end JCalc
