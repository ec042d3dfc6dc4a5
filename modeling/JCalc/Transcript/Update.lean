import JCalc.Transcript
import JCalc.Files.Store

/-!
Updating a transcript file in place. The file is changed only if its re-run
differs from it, and its old content then stays under a name of its own.
-/

namespace JCalc

/-- The name that the old content gets: the file's own name and this ending. -/
def backupEnding : Text := ".old".toList

def Session.update (s : Session) (store : Store) (file : Pathname) : Store × Except FileFault Bool :=
  match store.readText file with
  | .error fault => (store, .error fault)
  | .ok old =>
    let fresh := s.rerun old
    if fresh = old then (store, .ok false)
    else
      match store.rename file (file.extend backupEnding) with
      | .error fault => (store, .error fault)
      | .ok renamed =>
        match renamed.writeText file fresh with
        | .error fault => (renamed, .error fault)
        | .ok written => (written, .ok true)

end JCalc
