import JCalc.Diff.Alignment
import JCalc.Decimal

/-!
Unified diffs. Changes with little between them share a hunk, which shows up to
three kept lines around them and begins with the lines it covers on both sides.
Kept lines are marked by a blank, removed ones by a minus, added ones by a plus,
and equal lists have an empty diff.
-/

namespace JCalc

/-- Where a hunk begins in either list, counted from zero, and its stretches. -/
structure Hunk where
  left : Nat
  right : Nat
  edits : List (Edit String)
deriving DecidableEq

def contextSize : Nat := 3

namespace Hunk

def oldLines (h : Hunk) : List String := h.edits.flatMap Edit.old

def newLines (h : Hunk) : List String := h.edits.flatMap Edit.new

def add (h : Hunk) (e : Edit String) : Hunk := { h with edits := h.edits ++ [e] }

/-- Where the next hunk begins if nothing is shown in between. -/
def next (h : Hunk) (gap : Nat) : Hunk :=
  ⟨h.left + h.oldLines.length + gap, h.right + h.newLines.length + gap, []⟩

def isShown (h : Hunk) : Bool :=
  h.edits.any fun
    | .keep _ => false
    | .change _ _ => true

end Hunk

/-- Leaves only the context of the first change. -/
def trimFirst (edits : List (Edit String)) : Hunk × List (Edit String) :=
  match edits with
  | .keep ls :: rest =>
    let skipped := ls.length - contextSize
    (⟨skipped, skipped, []⟩, .keep (ls.drop skipped) :: rest)
  | _ => (⟨0, 0, []⟩, edits)

def trimLast : List (Edit String) → List (Edit String)
  | [] => []
  | [.keep ls] => [.keep (ls.take contextSize)]
  | e :: rest => e :: trimLast rest

/-- Cuts a long kept stretch into the end of the open hunk and the beginning of the next. -/
def splitHunks (current : Hunk) : List (Edit String) → List Hunk
  | [] => [current]
  | .keep ls :: rest =>
    if 2 * contextSize < ls.length then
      let closed := current.add (.keep (ls.take contextSize))
      let tail := ls.drop (ls.length - contextSize)
      closed :: splitHunks ((closed.next (ls.length - 2 * contextSize)).add (.keep tail)) rest
    else splitHunks (current.add (.keep ls)) rest
  | e :: rest => splitHunks (current.add e) rest

def hunks (edits : List (Edit String)) : List Hunk :=
  let (start, edits) := trimFirst edits
  (splitHunks start (trimLast edits)).filter Hunk.isShown

/-- The lines that a hunk covers on one side, counted from one: the first alone, or the first and
their number. A range without lines is named by the line before it. -/
def rangeText (start length : Nat) : Text :=
  if length = 1 then Decimal.digits (start + 1)
  else Decimal.digits (if length = 0 then start else start + 1) ++ ',' :: Decimal.digits length

def Edit.records : Edit String → List Text
  | keep ls => ls.map (' ' :: ·.toList)
  | change removed added => removed.map ('-' :: ·.toList) ++ added.map ('+' :: ·.toList)

def Hunk.records (h : Hunk) : List Text :=
  ("@@ -".toList ++ rangeText h.left h.oldLines.length ++ " +".toList ++
    rangeText h.right h.newLines.length ++ " @@\n".toList) :: h.edits.flatMap Edit.records

def diffRecords (oldName newName : Text) (xs ys : List String) : List Text :=
  match hunks (align xs ys) with
  | [] => []
  | hs =>
    ("--- ".toList ++ oldName ++ ['\n']) :: ("+++ ".toList ++ newName ++ ['\n']) ::
      hs.flatMap Hunk.records

end JCalc
