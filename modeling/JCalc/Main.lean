import JCalc.CommandLine.Run

/-!
The program: reads its arguments, answers lines from standard input or works on
the transcript file that they name.
-/

namespace JCalc

def usageText : String :=
  "usage: jcalc [-h] [-D FILE | --rerun FILE | -M FILE] [--max-width N] [--max-depth N]\n"

def Pathname.location (p : Pathname) : String := String.ofList p.text

def noLimit : IO.Error := IO.userError "a limit was given without a number"

def Command.readTranscript (c : Command) (file : Option Pathname) : IO (Pathname × Text) := do
  let some p := file | throw (IO.userError "no file was given")
  let some t := String.fromUTF8? (← IO.FS.readBinFile p.location)
    | throw (IO.userError "the file is not UTF-8 text")
  let text := unifyLineEnds t.toList
  if c.lacksLimitIn defaultMaxSize text then throw noLimit
  return (p, text)

def write (t : Text) : IO Unit := do
  let out ← IO.getStdout
  out.putStr (String.ofList t)
  out.flush

partial def Command.answerInput (c : Command) : IO Unit := do
  write prompt
  let line ← (← IO.getStdin).getLine
  if line.isEmpty then write ['\n']
  else
    for input in inputLines line.toList do
      if c.lacksLimit defaultMaxSize input then throw noLimit
      write (((c.session defaultMaxSize).reply input).flatMap asLine)
    c.answerInput

def Command.perform (c : Command) : IO UInt32 := do
  let s := c.session defaultMaxSize
  match c.task with
  | .converse =>
    c.answerInput
    return 0
  | .check file =>
    let (p, text) ← c.readTranscript file
    let diff := s.diff p.text text
    write diff
    return if diff.isEmpty then 0 else 1
  | .rerun file =>
    write (s.rerun (← c.readTranscript file).2)
    return 0
  | .update file =>
    let (p, old) ← c.readTranscript file
    let fresh := s.rerun old
    if fresh != old then
      IO.FS.rename p.location (p.extend backupEnding).location
      IO.FS.writeFile p.location (String.ofList fresh)
    return 0

end JCalc

def main (args : List String) : IO UInt32 := do
  match JCalc.Command.ofArguments (args.map String.toList) with
  | .error .help =>
    IO.print JCalc.usageText
    return 0
  | .error .usage =>
    IO.eprint JCalc.usageText
    return 2
  | .ok command => command.perform
