import JCalc.Text.Integer
import JCalc.Files.Pathname

/-!
Command lines. An option is given by its letter or its long name, and long names
may be cut to any beginning that no other name shares. Its value stands in the
next argument, behind an equals sign, or right behind the letter; two minus signs
there give the option without a value, which fails only once the value is needed.
Of the three options that name a task at most one may be given; of an option
given again the last value counts.
-/

namespace JCalc

/-- What to do: answer lines from the input, or work on one transcript file, if its option names
one. -/
inductive Task where
  | converse
  | check (file : Option Pathname)
  | rerun (file : Option Pathname)
  | update (file : Option Pathname)
deriving DecidableEq

/-- A limit as its option sets it; a void one was given without a number. -/
inductive Setting where
  | absent
  | void
  | number (n : Int)
deriving DecidableEq

def Setting.number? : Setting → Option Int
  | number n => some n
  | absent | void => none

structure Command where
  task : Task := .converse
  maxWidth : Setting := .absent
  maxDepth : Setting := .absent
deriving DecidableEq

inductive Refusal where
  | usage
  | help
deriving DecidableEq

inductive OptionName where
  | help
  | check
  | rerun
  | update
  | maxWidth
  | maxDepth
deriving DecidableEq

namespace OptionName

def all : List OptionName := [help, check, rerun, update, maxWidth, maxDepth]

def letter? : OptionName → Option Char
  | help => some 'h'
  | check => some 'D'
  | update => some 'M'
  | _ => none

def longName : OptionName → Text
  | help => "--help".toList
  | check => "--check".toList
  | rerun => "--rerun".toList
  | update => "--update".toList
  | maxWidth => "--max-width".toList
  | maxDepth => "--max-depth".toList

def ofLetter? (c : Char) : Option OptionName := all.find? (·.letter? == some c)

def ofText? : Text → Option OptionName
  | ['-', c] => ofLetter? c
  | text => all.find? (·.longName == text)

end OptionName

inductive Attached where
  | nothing
  | afterEquals (value : Text)
  | afterLetter (value : Text)
deriving DecidableEq

inductive Argument where
  | value (text : Text)
  | separator
  | option (name : OptionName) (long : Bool) (attached : Attached)
  | unknown
deriving DecidableEq

/-- A minus and a number without exponent; a line feed may follow. -/
def isNegativeNumber : Text → Bool
  | '-' :: rest =>
    let body := if rest.getLast? = some '\n' then rest.dropLast else rest
    let fraction := body.dropWhile isDecimal
    match fraction with
    | [] => !body.isEmpty
    | '.' :: digits => !digits.isEmpty && digits.all isDecimal
    | _ => false
  | _ => false

namespace Argument

def isLong (text : Text) : Bool := ['-', '-'].isPrefixOf text

/-- An argument that starts with a minus and names no option. -/
def stray (text : Text) : Argument :=
  if isNegativeNumber text || text.contains ' ' then value text else unknown

def ofAbbreviation (text : Text) : Except Refusal Argument :=
  let name := text.takeWhile (· != '=')
  let attached : Attached := match text.dropWhile (· != '=') with
    | [] => .nothing
    | _ :: v => .afterEquals v
  match OptionName.all.filter fun o => name.isPrefixOf o.longName with
  | [] => .ok (stray text)
  | [o] => .ok (option o true attached)
  | _ => .error .usage

def ofLetters (text : Text) : Argument :=
  match text with
  | _ :: c :: v =>
    match OptionName.ofLetter? c with
    | some o => option o false (.afterLetter v)
    | none => stray text
  | _ => stray text

/-- What an argument is by itself. Only an ambiguous beginning is refused at once. -/
def read (text : Text) : Except Refusal Argument :=
  if text.head? != some '-' || text == ['-'] then .ok (value text)
  else
    match OptionName.ofText? text with
    | some o => .ok (option o (isLong text) .nothing)
    | none =>
      let name := text.takeWhile (· != '=')
      match OptionName.ofText? name, text.dropWhile (· != '=') with
      | some o, _ :: v => .ok (option o (isLong name) (.afterEquals v))
      | _, _ => if isLong text then ofAbbreviation text else .ok (ofLetters text)

/-- After two minus signs alone, everything is a value. -/
def readAll : List Text → Except Refusal (List Argument)
  | [] => .ok []
  | text :: rest =>
    if text == ['-', '-'] then .ok (separator :: rest.map value)
    else do return (← read text) :: (← readAll rest)

end Argument

/-- What follows the letter for help in one argument: more letters, the last of which may need the
next argument as its value. -/
def helpWith (valueFollows : Bool) : Text → Refusal
  | [] => .help
  | c :: rest =>
    match OptionName.ofLetter? c with
    | none => .usage
    | some .help => helpWith valueFollows rest
    | some _ => if rest.isEmpty && !valueFollows then .usage else .help

def attachedValue (text : Text) : Option Text := if text == ['-', '-'] then none else some text

def Setting.ofValue : Option Text → Except Refusal Setting
  | none => .ok .void
  | some text =>
    match integer? text with
    | some n => .ok (.number n)
    | none => .error .usage

namespace Command

/-- A task may replace one of its own kind only. -/
def setTask (c : Command) (task : Task) : Except Refusal Command :=
  match c.task, task with
  | .converse, _ | .check _, .check _ | .rerun _, .rerun _ | .update _, .update _ =>
    .ok { c with task := task }
  | _, _ => .error .usage

def setOption (c : Command) (o : OptionName) (value : Option Text) : Except Refusal Command :=
  match o with
  | .help => .error .usage
  | .check => c.setTask (.check (value.map .ofText))
  | .rerun => c.setTask (.rerun (value.map .ofText))
  | .update => c.setTask (.update (value.map .ofText))
  | .maxWidth => do return { c with maxWidth := ← Setting.ofValue value }
  | .maxDepth => do return { c with maxDepth := ← Setting.ofValue value }

/-- Takes the arguments from left to right. A value that belongs to no option, and an option that
there is none of, are refused after everything else. -/
def take (c : Command) (surplus : Bool) : List Argument → Except Refusal Command
  | [] => if surplus then .error .usage else .ok c
  | .value _ :: rest => c.take true rest
  | .separator :: rest => c.take true rest
  | .unknown :: rest => c.take true rest
  | .option .help long attached :: rest =>
    match attached with
    | .nothing => .error .help
    | .afterEquals letters | .afterLetter letters =>
      if long || letters.isEmpty then .error .usage
      else .error (helpWith (rest.head? matches some (.value _)) letters)
  | .option o _ .nothing :: rest =>
    match rest with
    | .value v :: rest => do (← c.setOption o (some v)).take surplus rest
    | _ => .error .usage
  | .option o _ (.afterEquals v) :: rest | .option o _ (.afterLetter v) :: rest => do
    (← c.setOption o (attachedValue v)).take surplus rest

def ofArguments (arguments : List Text) : Except Refusal Command := do
  let arguments ← Argument.readAll arguments
  take {} false arguments

end Command

end JCalc
