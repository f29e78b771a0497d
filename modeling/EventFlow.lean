import EventFlow.Action
import EventFlow.Check
import EventFlow.CommandLine
import EventFlow.Condition
import EventFlow.Deployment
import EventFlow.Draft
import EventFlow.Failure
import EventFlow.Fields
import EventFlow.Flow
import EventFlow.Flow.Operator
import EventFlow.Main
import EventFlow.Number
import EventFlow.Number.Binary64
import EventFlow.Plan
import EventFlow.Rule
import EventFlow.Run
import EventFlow.Service
import EventFlow.Template
import EventFlow.Text
import EventFlow.Text.Encoding
import EventFlow.Text.Printable
import EventFlow.Value
import EventFlow.Value.Reader
import EventFlow.Value.Token
import EventFlow.Value.Written
import EventFlow.Walk
import EventFlow.Walk.Harvest
import EventFlow.Proofs.Live
import EventFlow.Proofs.Unfolding
import EventFlow.Proofs.Routes
import EventFlow.Proofs.Cycles
import EventFlow.Proofs.Legible
import EventFlow.Proofs.Inlining
import EventFlow.Proofs.Labels
import EventFlow.Proofs.Stretches
import EventFlow.Proofs.Sharing
import EventFlow.Proofs.Harvests
import EventFlow.Proofs.Extraction
import EventFlow.Proofs.Course
import EventFlow.Proofs.Arrival
import EventFlow.Proofs.Gathering
import EventFlow.Proofs.Pairing
import EventFlow.Proofs.Watching
import EventFlow.Proofs.Returning
import EventFlow.Proofs.Planning
import EventFlow.Proofs.Listing
import EventFlow.Proofs.Addressing
import EventFlow.Proofs.Numbering
import EventFlow.Proofs.Removal
import EventFlow.Proofs.Rehearsal
import EventFlow.Proofs.Otherwise
import EventFlow.Proofs.InPlace
import EventFlow.Proofs.Rewriting
import EventFlow.Proofs.Locality
import EventFlow.Proofs.References
import EventFlow.Proofs.Reopening
import EventFlow.Proofs.Wiring
import EventFlow.Proofs.Asking
import EventFlow.Proofs.Reading
import EventFlow.Proofs.Writing
import EventFlow.Proofs.Paths
import EventFlow.Proofs.Naming
import EventFlow.Proofs.Verdicts
import EventFlow.Proofs.Shapes
import EventFlow.Proofs.Declarations
import EventFlow.Proofs.Outlines
