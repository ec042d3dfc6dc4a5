import JCalc.Text.Basic

/-!
Texts as lines. Every boundary character ends a line, a carriage return together
with a line feed after it, and the last line may have no ending. Written one
after the other, the lines give the text back.
-/

namespace JCalc

structure Line where
  body : Text
  ending : Text
deriving DecidableEq

namespace Line

def text (l : Line) : Text := l.body ++ l.ending

/-- Puts a character in front of the first line. -/
def consTo (c : Char) : List Line → List Line
  | [] => [⟨[c], []⟩]
  | l :: ls => ⟨c :: l.body, l.ending⟩ :: ls

end Line

def lines : Text → List Line
  | [] => []
  | '\r' :: '\n' :: rest => ⟨[], ['\r', '\n']⟩ :: lines rest
  | c :: rest => if isLineBoundary c then ⟨[], [c]⟩ :: lines rest else Line.consTo c (lines rest)

/-- Ends every line with a line feed, whatever of carriage return and line feed ended it. -/
def unifyLineEnds : Text → Text
  | [] => []
  | '\r' :: '\n' :: rest => '\n' :: unifyLineEnds rest
  | c :: rest => (if c = '\r' then '\n' else c) :: unifyLineEnds rest

def inputLines : Text → List Text
  | [] => []
  | c :: rest =>
    if c = '\n' then [] :: inputLines rest
    else match inputLines rest with
      | [] => [[c]]
      | l :: ls => (c :: l) :: ls

theorem flatMap_text_consTo (c : Char) (ls : List Line) :
    (Line.consTo c ls).flatMap Line.text = c :: ls.flatMap Line.text := by
  cases ls <;> simp [Line.consTo, Line.text]

theorem flatMap_text_lines (t : Text) : (lines t).flatMap Line.text = t := by
  fun_induction lines t with
  | case1 => rfl
  | case2 rest ih => simp [Line.text, ih]
  | case3 c rest _ _ ih => simp [Line.text, ih]
  | case4 c rest _ _ ih => rw [flatMap_text_consTo, ih]

end JCalc
