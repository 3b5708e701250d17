import PlanCache.Main
import PlanCache.Parse.Access
import PlanCache.Parse.Walk
import PlanCache.Plan.Report
import PlanCache.Query.Outline
import PlanCache.Proofs.Gathering
import PlanCache.Proofs.Accounting
import PlanCache.Proofs.NormalForm
import PlanCache.Proofs.StoredPlans
import PlanCache.Proofs.Transparency
import PlanCache.Proofs.Foresight
import PlanCache.Proofs.Reading
import PlanCache.Proofs.LetterCase
import PlanCache.Proofs.Lexing
import PlanCache.Proofs.Placement
import PlanCache.Proofs.SimilarTexts
import PlanCache.Proofs.TokenPairs
import PlanCache.Proofs.LiteralPass
import PlanCache.Proofs.SharedKeys
import PlanCache.Proofs.Savings
import PlanCache.Proofs.Workloads
import PlanCache.Proofs.LongestMatch
import PlanCache.Proofs.Spacing
import PlanCache.Proofs.Fences
import PlanCache.Proofs.TokenEnds
import PlanCache.Proofs.Rescanning
import PlanCache.Proofs.InnerLiterals
import PlanCache.Proofs.Spans
import PlanCache.Proofs.Stretches
import PlanCache.Proofs.OuterQuery
import PlanCache.Proofs.Frontier
import PlanCache.Proofs.CleanRuns
import PlanCache.Proofs.Derivations
import PlanCache.Proofs.EndMarks
import PlanCache.Proofs.Lookahead
import PlanCache.Proofs.OutlineAgreement
import PlanCache.Proofs.Positions
import PlanCache.Proofs.Traversals
import PlanCache.Proofs.HitCounts
import PlanCache.Proofs.Respacing
import PlanCache.Proofs.OneLine
import PlanCache.Proofs.RespacedPass
import PlanCache.Proofs.FirstNodes
import PlanCache.Proofs.LoneSelect
import PlanCache.Proofs.InLists
import PlanCache.Proofs.Nesting
import PlanCache.Proofs.Sweeps
import PlanCache.Proofs.LiteralLists
import PlanCache.Proofs.ClearLiterals
import PlanCache.Proofs.LeafSelects
import PlanCache.Proofs.CleanTexts
import PlanCache.Proofs.EmptySelects
import PlanCache.Proofs.TerminatedSelects
import PlanCache.Proofs.Displays
import PlanCache.Proofs.SpacedTokens
import PlanCache.Proofs.Classification
import PlanCache.Proofs.PlanTexts
import PlanCache.Proofs.LongerQueries
import PlanCache.Proofs.Precedence
