/-!
Texts are lists of characters, so that a position in a text counts code points.
This module holds the characters that count as blank and the ones that can end
a line; every line boundary is a blank.
-/

namespace JCalc

abbrev Text := List Char

/-- A line can end at this character; a carriage return and the line feed after it end one line. -/
def isLineBoundary (c : Char) : Bool :=
  ('\n' ≤ c && c ≤ '\r') || ('\x1c' ≤ c && c ≤ '\x1e') || c == '\u0085' || c == '\u2028' ||
    c == '\u2029'

/-- Separates words and carries no meaning of its own. -/
def isBlank (c : Char) : Bool :=
  ('\t' ≤ c && c ≤ '\r') || ('\x1c' ≤ c && c ≤ ' ') || c == '\u0085' || c == '\u00a0' ||
    c == '\u1680' || ('\u2000' ≤ c && c ≤ '\u200a') || c == '\u2028' || c == '\u2029' ||
    c == '\u202f' || c == '\u205f' || c == '\u3000'

def isDigit (c : Char) : Bool := '0' ≤ c && c ≤ '9'

def isLetter (c : Char) : Bool := ('a' ≤ c && c ≤ 'z') || ('A' ≤ c && c ≤ 'Z')

def spaced : List Text → Text
  | [] => []
  | [t] => t
  | t :: ts => t ++ ' ' :: spaced ts

theorem isBlank_of_isLineBoundary {c : Char} (h : isLineBoundary c = true) : isBlank c = true := by
  simp only [isLineBoundary, Bool.or_eq_true, Bool.and_eq_true, decide_eq_true_eq] at h
  simp only [isBlank, Bool.or_eq_true, Bool.and_eq_true, decide_eq_true_eq]
  rcases h with (((h | h) | h) | h) | h
  · have : '\t' ≤ c := Char.le_trans (by decide) h.1
    simp [this, h.2]
  · have : c ≤ ' ' := Char.le_trans h.2 (by decide)
    simp [this, h.1]
  all_goals simp [h]

theorem length_dropWhile_le {α : Type} (p : α → Bool) (l : List α) :
    (l.dropWhile p).length ≤ l.length :=
  (List.dropWhile_suffix p).length_le

end JCalc
