import Conform.Failure.Views
import Conform.Json.Reader
import Conform.Schema.Compile
import Conform.Validator.Check
import Conform.Validator.Outline
import Conform.Validator.Rules
import Conform.Proofs.Keys
import Conform.Proofs.Plan
import Conform.Proofs.Run
import Conform.Proofs.Shape
import Conform.Proofs.Denotation
import Conform.Proofs.Interpret
import Conform.Proofs.Meaning
import Conform.Proofs.Afresh
import Conform.Proofs.Revisit
import Conform.Proofs.Blame
import Conform.Proofs.Sound
import Conform.Proofs.Descent
import Conform.Proofs.Members
import Conform.Proofs.Accept
import Conform.Proofs.Related
import Conform.Proofs.Stable
import Conform.Proofs.Builtin
import Conform.Proofs.NormalForm
import Conform.Proofs.Reordered
import Conform.Proofs.FieldOrder
import Conform.Proofs.FirstFailure
import Conform.Proofs.FailFast
import Conform.Proofs.Resume
import Conform.Proofs.Combined
import Conform.Proofs.Context
import Conform.Proofs.Extension
import Conform.Proofs.WriteOnce
import Conform.Proofs.Registration
import Conform.Proofs.Gathering
import Conform.Proofs.Misfits
import Conform.Proofs.Places
import Conform.Proofs.Reported
import Conform.Proofs.Account
import Conform.Proofs.Positions
import Conform.Proofs.Declared
import Conform.Proofs.Defaults
import Conform.Proofs.Chained
import Conform.Proofs.Cutoff
import Conform.Proofs.KeysFirst
import Conform.Proofs.Built
import Conform.Proofs.Occurrence
import Conform.Proofs.Openings
import Conform.Proofs.Ledger
import Conform.Proofs.Sharing
import Conform.Proofs.TrailText
import Conform.Proofs.Rerooting
import Conform.Proofs.RawKeys
import Conform.Proofs.Documents
import Conform.Proofs.IntegerText
import Conform.Proofs.Dyadic
import Conform.Proofs.Nearest
import Conform.Proofs.Literals
import Conform.Proofs.Spellings
import Conform.Proofs.Parameters
import Conform.Proofs.Traversal
import Conform.Proofs.Nesting
import Conform.Proofs.Variables
