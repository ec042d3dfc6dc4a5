import JCalc.Fault
import JCalc.Literal

/-!
Tokens of a line. The line is cut into words from left to right; blanks and
comments between words are skipped. A word is as long as its first character
lets it be, and whether it is a lexeme depends on the word alone. The first word
that is none is reported.
-/

namespace JCalc

/-- A kind that a reader of lines never makes has a label of its own. -/
inductive TokenKind where
  | number (value : Number)
  | verb
  | leftParen
  | rightParen
  | finish
  | other (label : Text)
deriving DecidableEq

structure Token where
  kind : TokenKind
  text : Text
  place : Int
  stop : Int
deriving DecidableEq

/-- Starts a primitive; the underscore belongs to numbers. -/
def isGraphic (c : Char) : Bool := "=<>+*-%^$~|.:,;#!/\\[]\x7b\x7d\"`&@?".toList.contains c

def isInflection (c : Char) : Bool := c == '.' || c == ':'

def isNumberStart (c : Char) : Bool := c == '_' || isDigit c

/-- Letters go on a number, so that digits run into a name are one ill-formed number. -/
def isNumberPart (c : Char) : Bool := c == '_' || c == '.' || isDigit c || isLetter c

def isNamePart (c : Char) : Bool := c == '_' || isDigit c || isLetter c

def isLineEnd (c : Char) : Bool := c == '\n' || c == '\r'

def startsComment : Text → Bool
  | 'N' :: 'B' :: '.' :: _ => true
  | _ => false

/-- Which of the following characters belong to a word that starts with `c`. -/
def wordPart (c : Char) (rest : Text) : Char → Bool :=
  if isNumberStart c then isNumberPart
  else if isGraphic c then isInflection
  else if isLetter c then
    match rest with
    | d :: _ => if isInflection d then isInflection else isNamePart
    | [] => isNamePart
  else fun _ => false

def TokenKind.ofWord : Text → Except WordFault TokenKind
  | [] => .error .unexpectedCharacter
  | c :: rest =>
    if c = '(' then .ok .leftParen
    else if c = ')' then .ok .rightParen
    else if isNumberStart c then
      match Literal.ofText? (c :: rest) with
      | some l => .ok (.number l.value)
      | none => .error .illFormedNumber
    else if isGraphic c || (isLetter c && (rest.head?.map isInflection).getD false) then
      if (Verb.ofSpelling? (c :: rest)).isSome then .ok .verb else .error .unsupportedPrimitive
    else if isLetter c then .error .unsupportedName
    else .error .unexpectedCharacter

def tokensFrom (place : Nat) : Text → Except Fault (List Token)
  | [] => .ok [⟨.finish, [], place, place⟩]
  | c :: rest =>
    if isBlank c then tokensFrom (place + 1) rest
    else if startsComment (c :: rest) then
      let comment := rest.takeWhile fun d => !isLineEnd d
      tokensFrom (place + 1 + comment.length) (rest.dropWhile fun d => !isLineEnd d)
    else
      let part := wordPart c rest
      let word := c :: rest.takeWhile part
      match TokenKind.ofWord word with
      | .error cause => .error (.word cause word place)
      | .ok kind =>
        let stop := place + word.length
        match tokensFrom stop (rest.dropWhile part) with
        | .error fault => .error fault
        | .ok tokens => .ok (⟨kind, word, place, stop⟩ :: tokens)
termination_by text => text.length
decreasing_by
  · simp
  · exact Nat.lt_succ_of_le (length_dropWhile_le _ rest)
  · exact Nat.lt_succ_of_le (length_dropWhile_le _ rest)

def tokenize (line : Text) : Except Fault (List Token) := tokensFrom 0 line

def parseNumber (text : Text) (place : Int) : Except Fault Number :=
  match Literal.ofText? text with
  | some l => .ok l.value
  | none => .error (.word .illFormedNumber text place)

end JCalc
