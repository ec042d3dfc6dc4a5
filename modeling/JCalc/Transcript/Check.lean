import JCalc.Transcript
import JCalc.Diff.Unified

/-!
Checking a transcript: the diff from it to its re-run, empty when every output
in it is the fresh one.
-/

namespace JCalc

/-- The records are joined as they are, so the last line of a text without a line end shares a
line with the record after it. -/
def Session.diff (s : Session) (name : Text) (transcript : Text) : Text :=
  let items (t : Text) := (lines t).map fun l => String.ofList l.text
  (diffRecords name (name ++ ".new".toList) (items transcript) (items (s.rerun transcript))).flatten

end JCalc
