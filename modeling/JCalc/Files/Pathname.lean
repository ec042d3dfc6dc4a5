import JCalc.Text.Basic

/-!
Pathnames in their plain form: the slashes that make them absolute, and the
names between the other slashes, empty ones and single dots left out. Two dots
are a name like any other, since what they lead to is for the store to say.
-/

namespace JCalc

structure Pathname where
  root : Text
  names : List Text
deriving DecidableEq

namespace Pathname

def stretches : Text → List Text
  | [] => [[]]
  | c :: rest =>
    if c = '/' then [] :: stretches rest
    else match stretches rest with
      | [] => [[c]]
      | s :: ss => (c :: s) :: ss

/-- Exactly two leading slashes are a root of their own; more count as one. -/
def rootOf (t : Text) : Text :=
  match (t.takeWhile (· == '/')).length with
  | 0 => []
  | 2 => ['/', '/']
  | _ => ['/']

def ofText (t : Text) : Pathname :=
  ⟨rootOf t, (stretches t).filter fun s => !(s.isEmpty || s == ['.'])⟩

/-- A path without names is the working directory itself. -/
def text (p : Pathname) : Text :=
  if p.root.isEmpty && p.names.isEmpty then ['.']
  else p.root ++ List.intercalate ['/'] p.names

def extend (p : Pathname) (ending : Text) : Pathname :=
  match p.names.getLast? with
  | none => p
  | some name => { p with names := p.names.dropLast ++ [name ++ ending] }

end Pathname

end JCalc
