import OperatorTerms.Kind
import OperatorTerms.KindSet
import OperatorTerms.Grammar
import OperatorTerms.Token
import OperatorTerms.Diagnostic
import OperatorTerms.Nesting
import OperatorTerms.Nesting.WellNested
import OperatorTerms.Derivation
import OperatorTerms.Validation
import OperatorTerms.Log
import OperatorTerms.Term
import OperatorTerms.Forest
import OperatorTerms.Forest.Traversal
import OperatorTerms.Tree
import OperatorTerms.Automaton.State
import OperatorTerms.Automaton.Rule
import OperatorTerms.Automaton.Step
import OperatorTerms.Parse
import OperatorTerms.Term.Yield
import OperatorTerms.Reading
import OperatorTerms.Text.Blank
import OperatorTerms.Text.Decimal
import OperatorTerms.Layout
import OperatorTerms.Session.Options
import OperatorTerms.Session.Line
import OperatorTerms.Session.Run
import OperatorTerms.Main
import OperatorTerms.Proofs.ForestGrowth
import OperatorTerms.Proofs.Adjacency
import OperatorTerms.Proofs.BracketScan
import OperatorTerms.Proofs.ValidationGrammar
import OperatorTerms.Proofs.Reader
import OperatorTerms.Proofs.Arrangement
import OperatorTerms.Proofs.ReaderPhases
import OperatorTerms.Proofs.ReductionFold
import OperatorTerms.Proofs.StackLayers
import OperatorTerms.Proofs.AcceptSimulation
import OperatorTerms.Proofs.ParserRun
import OperatorTerms.Proofs.ParseOutcome
import OperatorTerms.Proofs.YieldOfParse
import OperatorTerms.Proofs.ParseFailure
import OperatorTerms.Proofs.Completion
import OperatorTerms.Proofs.ValidationFailure
import OperatorTerms.Proofs.DiagnosticAgreement
import OperatorTerms.Proofs.Separation
import OperatorTerms.Proofs.StackShape
import OperatorTerms.Proofs.Relabelling
import OperatorTerms.Proofs.RelabelledOutcome
import OperatorTerms.Proofs.SessionText
import OperatorTerms.Proofs.ForestOwnership
import OperatorTerms.Proofs.ReachableStates
import OperatorTerms.Proofs.TraversalOrder
import OperatorTerms.Proofs.RowText
import OperatorTerms.Proofs.DrawingOrder
import OperatorTerms.Proofs.DrawingReadback
import OperatorTerms.Proofs.DrawingColumns
import OperatorTerms.Proofs.BracketBlame
import OperatorTerms.Proofs.DiagnosticTruth
import OperatorTerms.Proofs.UnreachedBranches
import OperatorTerms.Proofs.RedundantTokens
import OperatorTerms.Proofs.WalkIteration
import OperatorTerms.Proofs.TreeAccess
import OperatorTerms.Proofs.ParserAccess
import OperatorTerms.Proofs.CodeReading
import OperatorTerms.Proofs.LineAccess
import OperatorTerms.Proofs.NodeDepth
import OperatorTerms.Proofs.DisplayReadback
import OperatorTerms.Proofs.Underline
import OperatorTerms.Proofs.SessionOutput
import OperatorTerms.Proofs.RecordedSteps
import OperatorTerms.Proofs.LogOfParse
import OperatorTerms.Proofs.RuleOrder
import OperatorTerms.Proofs.LevelFold
