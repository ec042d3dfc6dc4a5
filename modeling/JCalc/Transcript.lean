import JCalc.Session
import JCalc.Text.Lines

/-!
Transcripts of sessions. A line that starts with the prompt is an input line;
what follows up to the next one is its output. Re-running a transcript keeps the
input lines and the blank ones, and puts fresh output after every input line.
-/

namespace JCalc

def prompt : Text := [' ', ' ', ' ']

def asLine (t : Text) : Text := t ++ ['\n']

/-- The output of an input line: one line, or nothing for an empty answer. -/
def Session.reply (s : Session) (input : Text) : List Text :=
  let answer := s.answer input
  if answer.isEmpty then [] else [answer]

def promptedInput? (line : Text) : Option Text :=
  if prompt.isPrefixOf line then some (line.drop prompt.length) else none

/-- The lines that stand for one line of a transcript when it is run again. -/
def Session.refresh (s : Session) (line : Text) : List Text :=
  match promptedInput? line with
  | some input => line :: s.reply input
  | none => if line.all isBlank then [[]] else []

def Session.rerun (s : Session) (transcript : Text) : Text :=
  (lines transcript).flatMap fun l => (s.refresh l.body).flatMap asLine

def Session.dialogue (s : Session) (inputs : List Text) : Text :=
  inputs.flatMap fun l => prompt ++ (s.reply l).flatMap asLine

/-- What is written in answer to a whole input, with one more prompt at its end. -/
def Session.converse (s : Session) (input : Text) : Text :=
  s.dialogue (inputLines input) ++ asLine prompt

end JCalc
