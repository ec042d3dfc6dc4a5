import JCalc.Text.Basic

/-!
The primitive verbs and their spellings. A verb has a monadic form, with one
argument on its right, a dyadic form, with one on either side, or both; two
dyadic forms are reserved and have no meaning yet.
-/

namespace JCalc

inductive Verb where
  | minus
  | not
  | plus
  | tally
  | divide
  | times
  | shape
  | integers
deriving DecidableEq

inductive Valence where
  | monadic
  | dyadic
deriving DecidableEq

namespace Verb

def spelling : Verb → Text
  | minus => ['-']
  | not => ['-', '.']
  | plus => ['+']
  | tally => ['#']
  | shape => ['$']
  | divide => ['%']
  | times => ['*']
  | integers => ['i', '.']

def all : List Verb := [tally, shape, divide, times, plus, minus, not, integers]

def ofSpelling? (spelling : Text) : Option Verb := all.find? (·.spelling == spelling)

theorem ofSpelling?_spelling (v : Verb) : ofSpelling? v.spelling = some v := by
  cases v <;> decide

theorem spelling_of_ofSpelling? {t : Text} {v : Verb} (h : ofSpelling? t = some v) :
    v.spelling = t := by
  simpa using List.find?_some h

/-- A reserved form counts as one that the verb has. -/
def hasForm : Verb → Valence → Bool
  | plus, .monadic => false
  | not, .dyadic => false
  | integers, .dyadic => false
  | _, _ => true

end Verb

end JCalc
