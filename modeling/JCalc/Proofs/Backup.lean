import JCalc.Proofs.TranscriptCommands

/-! What an update does to a store. It leaves the store as it was, or it changes the entries of
two names in one directory: the file's own name, which gets the fresh text, and its backup, which
gets the bytes that the file had. -/

namespace JCalc

namespace Store

section

variable {s s' : Store} {p : Pathname} {bytes : ByteArray}

theorem KeepsDirectories.trans {s'' : Store} (h : s.KeepsDirectories s')
    (h' : s'.KeepsDirectories s'') : s.KeepsDirectories s'' :=
  fun names hn => h' names (h names hn)

end

end Store

section

variable {s : Session} {store : Store} {p : Pathname} {bytes : ByteArray} {text : Text}

end

end JCalc
