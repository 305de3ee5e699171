import TreeRules.Tree.Preorder
import TreeRules.Tree.Position
import TreeRules.Tree.Children
import TreeRules.Tree.Update
import TreeRules.Text.Quoted
import TreeRules.Text.Blank
import TreeRules.Tree.Printer
import TreeRules.Tree.Reading
import TreeRules.Pattern.Reading
import TreeRules.Matching
import TreeRules.Instantiation
import TreeRules.Rule.Reading
import TreeRules.Rule.Application
import TreeRules.Literal
import TreeRules.Main
import TreeRules.Workspace
import TreeRules.Proofs.MatchingOrder
import TreeRules.Proofs.Occurrences
import TreeRules.Proofs.MatchingMeaning
import TreeRules.Proofs.Agreement
import TreeRules.Proofs.Shape
import TreeRules.Proofs.AgreementMeaning
import TreeRules.Proofs.Calls
import TreeRules.Proofs.MappingOrder
import TreeRules.Proofs.ChildrenQueue
import TreeRules.Proofs.Instantiating
import TreeRules.Proofs.MatchingInverse
import TreeRules.Proofs.Updating
import TreeRules.Proofs.UpdateVisits
import TreeRules.Proofs.Observation
import TreeRules.Proofs.FirstMatch
import TreeRules.Proofs.ReadingSteps
import TreeRules.Proofs.Grammar
import TreeRules.Proofs.GrammarReading
import TreeRules.Proofs.Acceptance
import TreeRules.Proofs.Nesting
import TreeRules.Proofs.Viability
import TreeRules.Proofs.RefusalPosition
import TreeRules.Proofs.TreeNotation
import TreeRules.Proofs.PatternNotation
import TreeRules.Proofs.MisplacedVariables
import TreeRules.Proofs.ArrowSplits
import TreeRules.Proofs.Validation
import TreeRules.Proofs.Renaming
import TreeRules.Proofs.RuleReading
import TreeRules.Proofs.RuleNotation
import TreeRules.Proofs.RuleReversal
import TreeRules.Proofs.TreeRoundTrip
import TreeRules.Proofs.CutTrees
import TreeRules.Proofs.SizeAccounting
import TreeRules.Proofs.InstantiationMeaning
import TreeRules.Proofs.TestCalls
import TreeRules.Proofs.TokenTrees
import TreeRules.Proofs.PatternRoundTrip
import TreeRules.Proofs.RewritingLines
import TreeRules.Proofs.MatchingLines
import TreeRules.Proofs.TokenRuns
import TreeRules.Proofs.TokenCalls
import TreeRules.Proofs.Targets
import TreeRules.Proofs.LiteralCalls
import TreeRules.Proofs.Sessions
