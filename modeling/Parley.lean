import Parley.Session.Stored
import Parley.Settings.Config
import Parley.Turn.Activity
import Parley.Proofs.RoundTrip
import Parley.Proofs.Answers
import Parley.Proofs.ScopeDiscipline
import Parley.Proofs.TransactionLifecycle
import Parley.Proofs.Budget
import Parley.Proofs.Agreement
import Parley.Proofs.Beginnings
import Parley.Proofs.Isolation
import Parley.Proofs.Agendas
import Parley.Proofs.ReferenceSoundness
import Parley.Proofs.Histories
import Parley.Proofs.Resumptions
import Parley.Proofs.Confirmations
import Parley.Proofs.Reparsing
import Parley.Proofs.Operands
import Parley.Proofs.Attempts
import Parley.Proofs.Payments
import Parley.Proofs.MirroredTurns
import Parley.Proofs.Resemblance
import Parley.Proofs.Reboots
import Parley.Proofs.Rewriting
import Parley.Proofs.Asides
import Parley.Proofs.Records
import Parley.Proofs.Utterances
import Parley.Proofs.SubFlows
import Parley.Proofs.Inlining
import Parley.Proofs.Unrolling
import Parley.Proofs.Refusals
import Parley.Proofs.NamesRead
import Parley.Proofs.Locality
import Parley.Proofs.Protection
import Parley.Proofs.Conditions
import Parley.Proofs.Allocations
import Parley.Proofs.LevelShapes
import Parley.Proofs.OpenQuestions
import Parley.Proofs.RedactedRecords
import Parley.Proofs.SinglePlaceholders
import Parley.Proofs.Backoff
import Parley.Proofs.Nesting
import Parley.Proofs.CapturedNames
import Parley.Proofs.HostileTexts
import Parley.Proofs.Loading
import Parley.Proofs.CanonicalTexts
import Parley.Proofs.ToolKeys
import Parley.Proofs.VerbatimArguments
import Parley.Proofs.Replies
import Parley.Proofs.ResumptionMarks
import Parley.Proofs.Hints
import Parley.Proofs.ExecutionTraces
import Parley.Proofs.Piles
import Parley.Proofs.PlaceholderPositions
