import JCalc.Main
import JCalc.Proofs.Reading
import JCalc.Proofs.Reduction
import JCalc.Proofs.Waiting
import JCalc.Proofs.StackReading
import JCalc.Proofs.StackForms
import JCalc.Proofs.Balanced
import JCalc.Proofs.Evaluation
import JCalc.Proofs.Moments
import JCalc.Proofs.Transitions
import JCalc.Proofs.Invariant
import JCalc.Proofs.LexedTokens
import JCalc.Proofs.LiteralText
import JCalc.Proofs.Rounding
import JCalc.Proofs.VerbResults
import JCalc.Proofs.ShortestDecimal
import JCalc.Proofs.Numeral
import JCalc.Proofs.ReadBack
import JCalc.Proofs.ValueModel
import JCalc.Proofs.FaultText
import JCalc.Proofs.Answers
import JCalc.Proofs.TextLines
import JCalc.Proofs.Rerun
import JCalc.Proofs.Alignment
import JCalc.Proofs.EmptyDiff
import JCalc.Proofs.TranscriptCommands
import JCalc.Proofs.FewDigits
import JCalc.Proofs.GridSearch
import JCalc.Proofs.FewestDigits
import JCalc.Proofs.CanonicalForm
import JCalc.Proofs.RealText
import JCalc.Proofs.NormalForm
import JCalc.Proofs.CanonicalNumeral
import JCalc.Proofs.ZeroSigns
import JCalc.Proofs.Substitution
import JCalc.Proofs.CutAtParens
import JCalc.Proofs.SizeBound
import JCalc.Proofs.PrintedValue
import JCalc.Proofs.Backup
import JCalc.Proofs.WrittenWords
import JCalc.Proofs.WordsOfLine
import JCalc.Proofs.Tiling
import JCalc.Proofs.HunkLines
import JCalc.Proofs.Patching
import JCalc.Proofs.DiffLines
import JCalc.Proofs.LiteralGrammar
import JCalc.Proofs.NearestValue
import JCalc.Proofs.Dialogue
import JCalc.Proofs.Pieces
import JCalc.Proofs.Pointwise
import JCalc.Proofs.Levels
import JCalc.Proofs.Runs
import JCalc.Proofs.UnmatchedParens
import JCalc.Proofs.PartnerSearch
import JCalc.Proofs.WorkingStack
import JCalc.Proofs.Nesting
import JCalc.Proofs.DepthBound
import JCalc.Proofs.ArithmeticFaults
import JCalc.Proofs.SizeLimit
import JCalc.Proofs.Congruence
import JCalc.Proofs.Symmetries
import JCalc.Proofs.NeutralElements
import JCalc.Proofs.UnitInterval
import JCalc.Proofs.WidthLimit
import JCalc.Proofs.FirstBadWord
import JCalc.Proofs.LineEnds
import JCalc.Proofs.Strands
import JCalc.Proofs.Counting
