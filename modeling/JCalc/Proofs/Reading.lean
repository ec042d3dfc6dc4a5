import JCalc.Sentence

/-! Sentences read without a stack. Runs of adjacent nouns are joined, and every
verb takes the run before it, if there is one, and the value of all that follows
it. A group stands for what the sentence inside it amounts to. -/

namespace JCalc

/-- The one noun of a run: a noun alone is itself, several are one list of all their elements. -/
def strand? (limit : Int) : List Noun → Option Noun
  | [] => none
  | [x] => some x
  | xs =>
    let elements := xs.flatMap Noun.elements
    if (elements.length : Int) ≤ limit then some (.list elements) else none

/-- A verb applied to the value on its right, and to the run on its left unless that is empty. -/
def applyTo? (limit : Int) (v : Verb) (run : List Noun) (y : Noun) : Option Noun :=
  if run.isEmpty then (v.applyMonad limit y).toOption
  else (strand? limit run).bind fun x => (v.applyDyad x y).toOption

/-- The value of a sentence after a run of nouns that it goes on from. A sentence that ends in a
verb has none. -/
def valueAfter? (limit : Int) : List Noun → List Fragment → Option Noun
  | run, [] => strand? limit run
  | run, .noun x :: es => valueAfter? limit (run ++ [x]) es
  | run, .verb v :: es => (valueAfter? limit [] es).bind (applyTo? limit v run)

/-- What a sentence amounts to: nothing, a fragment that stands alone, or the value of several. -/
def sentence? (limit : Int) : List Fragment → Option (Option Fragment)
  | [] => some none
  | [e] => some (some e)
  | es => (valueAfter? limit [] es).map fun x => some (.noun x)

/-- The fragments that tokens stand for, and how many groups lie inside each other among them. -/
inductive Reads (limit : Int) : List Token → Nat → List Fragment → Prop where
  | empty : Reads limit [] 0 []
  | finish {t : Token} (h : t.kind = .finish) : Reads limit [t] 0 []
  | number {t : Token} {x : Number} (h : t.kind = .number x) :
      Reads limit [t] 0 [.noun (.atom x.toScalar)]
  | verb {t : Token} {v : Verb} (h : t.kind = .verb) (hv : Verb.ofSpelling? t.text = some v) :
      Reads limit [t] 0 [.verb v]
  | group {opening closing : Token} {inside : List Token} {nesting : Nat} {es : List Fragment}
      {e : Fragment} (ho : opening.kind = .leftParen) (hc : closing.kind = .rightParen)
      (hi : Reads limit inside nesting es) (he : sentence? limit es = some (some e)) :
      Reads limit (opening :: (inside ++ [closing])) (nesting + 1) [e]
  | append {a b : List Token} {m n : Nat} {es fs : List Fragment}
      (ha : Reads limit a m es) (hb : Reads limit b n fs) :
      Reads limit (a ++ b) (max m n) (es ++ fs)

end JCalc
