import JCalc.Files.Pathname
import JCalc.Text.Lines

/-!
A store of files and directories below a working directory. A failed operation
gives a fault and no store, so it cannot have changed anything. Nothing but
directories is known above the working directory.
-/

namespace JCalc

inductive FileEntry where
  | file (content : ByteArray)
  | directory

inductive FileFault where
  | missing
  | isDirectory
  | notDirectory
  | notText
  | nameTooLong
  | nullInName
deriving DecidableEq

/-- The entries of the working directory and of those in it, each under the names that lead there. -/
structure Store where
  entries : List (List Text × FileEntry)

/-- A directory above the working directory, or an entry at or below it. -/
inductive Place where
  | above (levels : Nat)
  | within (names : List Text)
deriving DecidableEq

namespace Store

def find? (s : Store) (names : List Text) : Option FileEntry :=
  if names.isEmpty then some .directory else s.entries.lookup names

def put (s : Store) (names : List Text) (e : FileEntry) : Store :=
  ⟨(names, e) :: s.entries.filter (·.1 != names)⟩

def remove (s : Store) (names : List Text) : Store := ⟨s.entries.filter (·.1 != names)⟩

def parents : List Text → List (List Text)
  | [] => []
  | [_] => []
  | name :: rest => [name] :: (parents rest).map (name :: ·)

def ofFiles (files : List (List Text × ByteArray)) : Store :=
  files.foldl (fun s (names, content) =>
    ((parents names).foldl (fun s dir => s.put dir .directory) s).put names (.file content)) ⟨[]⟩

def byteCount (t : Text) : Nat := t.foldl (fun n c => n + c.utf8Size) 0

def maxNameBytes : Nat := 255

def maxPathBytes : Nat := 4095

/-- One name further; the place must be a directory. -/
def step (s : Store) (p : Place) (name : Text) : Except FileFault Place :=
  match p with
  | .above n => if name = ['.', '.'] then .ok (.above (n + 1)) else .error .missing
  | .within names =>
    match s.find? names with
    | none => .error .missing
    | some (.file _) => .error .notDirectory
    | some .directory =>
      if name = ['.', '.'] then
        .ok (if names.isEmpty then .above 0 else .within names.dropLast)
      else if maxNameBytes < byteCount name then .error .nameTooLong
      else .ok (.within (names ++ [name]))

def locate (s : Store) (p : Pathname) : Except FileFault Place :=
  if p.text.contains '\x00' then .error .nullInName
  else if maxPathBytes < byteCount p.text then .error .nameTooLong
  else if p.root.isEmpty then p.names.foldlM s.step (.within [])
  else if p.names.all (· == ['.', '.']) then .ok (.above 0)
  else .error .missing

def readBytes (s : Store) (p : Pathname) : Except FileFault ByteArray := do
  match ← s.locate p with
  | .above _ => .error .isDirectory
  | .within names =>
    match s.find? names with
    | none => .error .missing
    | some .directory => .error .isDirectory
    | some (.file content) => .ok content

def readText (s : Store) (p : Pathname) : Except FileFault Text := do
  match String.fromUTF8? (← s.readBytes p) with
  | none => .error .notText
  | some t => .ok (unifyLineEnds t.toList)

def writeText (s : Store) (p : Pathname) (t : Text) : Except FileFault Store := do
  match ← s.locate p with
  | .above _ => .error .isDirectory
  | .within names =>
    match s.find? names with
    | some .directory => .error .isDirectory
    | _ => .ok (s.put names (.file (String.ofList t).toUTF8))

/-- Gives a file another name; a file of that name is lost, a directory refuses. -/
def rename (s : Store) (p q : Pathname) : Except FileFault Store := do
  let content ← s.readBytes p
  match ← s.locate p, ← s.locate q with
  | .within source, .within target =>
    match s.find? target with
    | some .directory => .error .isDirectory
    | _ => .ok ((s.remove source).put target (.file content))
  | _, _ => .error .isDirectory

end Store

end JCalc
