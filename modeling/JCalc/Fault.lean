import JCalc.Verb
import JCalc.Text.Quoted
import JCalc.Decimal

/-!
Everything that can be wrong with a line, by cause, and the reports that a
reader sees. A report belongs to one of nine kinds and is shown as one line that
starts with a bar.
-/

namespace JCalc

inductive WordFault where
  | illFormedNumber
  | unsupportedPrimitive
  | unsupportedName
  | unexpectedCharacter
deriving DecidableEq

/-- Places count characters from the start of the line. Only a token made by hand can bring
`unknownVerb`, and only a value made by hand `notANumber`. -/
inductive Fault where
  | word (cause : WordFault) (word : Text) (place : Int)
  | unmatchedOpen (place : Int)
  | unmatchedClose (place : Int)
  | emptyGroup (place : Int)
  | strayToken (label : Text) (place : Int)
  | irreducible
  | missingForm (verb : Verb) (valence : Valence)
  | noRightArgument (verb : Verb)
  | noArgument (verb : Verb)
  | lengths (left right : List Nat)
  | undefinedResult (verb : Verb)
  | notReal (subject : Text)
  | outsideUnitInterval
  | notInteger
  | negativeCount
  | tooDeep (depth limit : Int)
  | reservedDyad (verb : Verb)
  | listOfIntegers
  | tooLarge (subject : Text) (count : Nat) (limit : Int)
  | unknownVerb (spelling : Text)
  | notANumber
deriving DecidableEq

inductive Report where
  | general (message : Text)
  | lexical (message : Text) (place : Int)
  | grammatical (message : Text) (place : Option Int)
  | arity (message : Text) (spelling : Text)
  | length (left right : List Int)
  | domain (message : Text)
  | depth (depth limit : Int)
  | unimplemented (message : Text)
  | limit (message : Text)
deriving DecidableEq

def intText (n : Int) : Text := integerText '-' n

def atPlace (message : Text) (place : Int) : Text := message ++ " at index ".toList ++ intText place

namespace Report

def kind : Report → Text
  | general _ => "error".toList
  | lexical _ _ => "lex error".toList
  | grammatical _ _ => "parse error".toList
  | arity _ _ => "arity error".toList
  | length _ _ => "length error".toList
  | domain _ => "domain error".toList
  | depth _ _ => "recursion limit error".toList
  | unimplemented _ => "unimplemented".toList
  | limit _ => "limit error".toList

def shapeText (shape : List Int) : Text :=
  if shape.isEmpty then "(atom)".toList else spaced (shape.map intText)

def message : Report → Text
  | general m => m
  | lexical m place => atPlace m place
  | grammatical m none => m
  | grammatical m (some place) => atPlace m place
  | arity m _ => m
  | length left right =>
    "shapes ".toList ++ shapeText left ++ " and ".toList ++ shapeText right ++
      " do not conform".toList
  | domain m => m
  | depth d bound =>
    "parenthesis depth ".toList ++ intText d ++ " exceeds limit ".toList ++ intText bound
  | unimplemented m => m
  | limit m => m

def line (r : Report) : Text := '|' :: (r.kind ++ ':' :: ' ' :: r.message)

end Report

def WordFault.message (word : Text) : WordFault → Text
  | illFormedNumber => "Ill-formed number ".toList ++ quoted word
  | unsupportedPrimitive => "Unsupported primitive ".toList ++ quoted word
  | unsupportedName => "Names are not supported: ".toList ++ quoted word
  | unexpectedCharacter => "Unexpected character ".toList ++ quoted word

def Valence.name : Valence → Text
  | monadic => "monadic".toList
  | dyadic => "dyadic".toList

def Fault.report : Fault → Report
  | word cause w place => .lexical (cause.message w) place
  | unmatchedOpen place => .grammatical "Unmatched (".toList (some place)
  | unmatchedClose place => .grammatical "Unmatched )".toList (some place)
  | emptyGroup place => .grammatical "Empty parentheses".toList (some place)
  | strayToken label place => .grammatical ("Unexpected token ".toList ++ label) (some place)
  | irreducible => .grammatical "Sentence does not reduce to a single value".toList none
  | missingForm v valence =>
    .arity (v.spelling ++ " has no ".toList ++ valence.name ++ " form".toList) v.spelling
  | noRightArgument v => .arity (v.spelling ++ " has no right argument".toList) v.spelling
  | noArgument v => .arity (v.spelling ++ " has no argument".toList) v.spelling
  | lengths left right => .length (left.map Int.ofNat) (right.map Int.ofNat)
  | undefinedResult v => .domain (v.spelling ++ " has no defined result here".toList)
  | notReal subject => .domain (subject ++ " requires real arguments".toList)
  | outsideUnitInterval => .domain "-. is only defined for arguments from 0 to 1".toList
  | notInteger => .domain "i. requires an integer argument".toList
  | negativeCount => .domain "i. of a negative number is not supported".toList
  | tooDeep depth limit => .depth depth limit
  | reservedDyad v => .unimplemented ("dyadic ".toList ++ v.spelling ++ " is not implemented".toList)
  | listOfIntegers => .unimplemented "i. of a list would build an array of rank 2".toList
  | tooLarge subject count limit =>
    .limit (subject ++ " would build ".toList ++ Decimal.digits count ++
      " elements; the limit is ".toList ++ intText limit)
  | unknownVerb spelling => .general ("Unknown verb ".toList ++ quoted spelling)
  | notANumber => .general "NaN is not a representable J number".toList

end JCalc
