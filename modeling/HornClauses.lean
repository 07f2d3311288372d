import HornClauses.Command
import HornClauses.Main
import HornClauses.Proofs.RoundTrip
import HornClauses.Proofs.Decoding
import HornClauses.Proofs.Unambiguity
import HornClauses.Proofs.InsertionHistory
import HornClauses.Proofs.Acceptance
import HornClauses.Proofs.ReadableRange
import HornClauses.Proofs.ProgramComposition
import HornClauses.Proofs.IdleLines
import HornClauses.Proofs.Respacing
import HornClauses.Proofs.LineBreaks
import HornClauses.Proofs.TopLevelCommas
import HornClauses.Proofs.ListStyles
import HornClauses.Proofs.OperatorAgreement
import HornClauses.Proofs.ProgramSymbols
import HornClauses.Proofs.CommandRun
import HornClauses.Proofs.TopLevelPieces
import HornClauses.Proofs.ClauseJoining
import HornClauses.Proofs.ChainSplitting
import HornClauses.Proofs.FirstFault
import HornClauses.Proofs.BlamedBracket
import HornClauses.Proofs.BracketCheck
import HornClauses.Proofs.ClausePeriods
import HornClauses.Proofs.ViablePrefix
import HornClauses.Proofs.ClauseRuns
import HornClauses.Proofs.NormalProgram
import HornClauses.Proofs.ListLiterals
import HornClauses.Proofs.NameTemplate
import HornClauses.Proofs.WrittenLeaves
import HornClauses.Proofs.FirstUnknown
import HornClauses.Proofs.UnlistedOperators
import HornClauses.Proofs.RawForm
import HornClauses.Proofs.WalkStates
