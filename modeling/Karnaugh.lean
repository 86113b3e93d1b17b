import Karnaugh.Text.Blank
import Karnaugh.Bits
import Karnaugh.Ascending
import Karnaugh.Token
import Karnaugh.Context
import Karnaugh.Error
import Karnaugh.Context.Choice
import Karnaugh.Token.Lexer
import Karnaugh.Rpn
import Karnaugh.Expr
import Karnaugh.TruthTable
import Karnaugh.Cube
import Karnaugh.Implicant
import Karnaugh.Implicant.Prime
import Karnaugh.Implicant.Formula
import Karnaugh.Cover
import Karnaugh.Minimized
import Karnaugh.Map
import Karnaugh.Map.Layout
import Karnaugh.IndexList
import Karnaugh.Session
import Karnaugh.Session.Op
import Karnaugh.Report.Box
import Karnaugh.Report.Elapsed
import Karnaugh.Report
import Karnaugh.Command.Arguments
import Karnaugh.Command
import Karnaugh.Main
import Karnaugh.Proofs.Reordering
import Karnaugh.Proofs.Grammar
import Karnaugh.Proofs.Derivation
import Karnaugh.Proofs.Writing
import Karnaugh.Proofs.Meaning
import Karnaugh.Proofs.Covering
import Karnaugh.Proofs.Halves
import Karnaugh.Proofs.DiscoveryOrder
import Karnaugh.Proofs.Levels
import Karnaugh.Proofs.PrimeCubes
import Karnaugh.Proofs.PrimeOrder
import Karnaugh.Proofs.CoverSelection
import Karnaugh.Proofs.GreedyChoice
import Karnaugh.Proofs.PrimeCover
import Karnaugh.Proofs.Soundness
import Karnaugh.Proofs.Spread
import Karnaugh.Proofs.SpareVariable
import Karnaugh.Proofs.Tables
import Karnaugh.Proofs.IndexLists
import Karnaugh.Proofs.Cells
import Karnaugh.Proofs.MapFormulas
import Karnaugh.Proofs.Evaluations
import Karnaugh.Proofs.Transactions
import Karnaugh.Proofs.Coherence
import Karnaugh.Proofs.Marking
import Karnaugh.Proofs.Loading
import Karnaugh.Proofs.Routes
import Karnaugh.Proofs.IndexText
import Karnaugh.Proofs.CaredRows
import Karnaugh.Proofs.Letters
import Karnaugh.Proofs.CanonicalForm
import Karnaugh.Proofs.TermCount
import Karnaugh.Proofs.Redundancy
import Karnaugh.Proofs.LexicalGrammar
import Karnaugh.Proofs.Parentheses
import Karnaugh.Proofs.Shape
import Karnaugh.Proofs.Juxtaposition
import Karnaugh.Proofs.Lines
import Karnaugh.Proofs.CoverRule
import Karnaugh.Proofs.Rounds
import Karnaugh.Proofs.FailedRuns
