import Metalogos.Refine.Plain
import Metalogos.Refine.Tails
import Metalogos.Refine.Values
import Metalogos.Refine.Operators
import Metalogos.Parser.Transparent
import Metalogos.Rules.Flows
import Metalogos.Program.Resolve
import Metalogos.Cron.Ticks
import Metalogos.Cron.Store
import Metalogos.Duplex.Audit
import Metalogos.Template.Orders
import Metalogos.Memory.Consented
import Metalogos.Flow.Resume
import Metalogos.Pool.Serve
import Metalogos.Memory.KeyValue
import Metalogos.Embodied.Proofs
import Metalogos.Package.Resolve
import Metalogos.Decision.Replay
import Metalogos.Mcp.Session
import Metalogos.Contacts.Roundtrip
import Metalogos.Mcp.Coverage
import Metalogos.Server.Guard
import Metalogos.Distill.Cadence
import Metalogos.Machine.Checked
import Metalogos.Check.Reads
import Metalogos.Check.Refusals
import Metalogos.Html.Label
import Metalogos.Grants.Destructive
import Metalogos.Deny.Handlers
import Metalogos.Learn.Mutate
import Metalogos.Memory.Refused
import Metalogos.Effects.Trails
import Metalogos.Check.Breaks
import Metalogos.Labels.Parse
import Metalogos.Ledger.Anchor
import Metalogos.Vector.Store
import Metalogos.Vector.Forget
import Metalogos.Vector.Fusion
import Metalogos.Knowledge.Walk
import Metalogos.Chunk.Cover
import Metalogos.Chunk.Sections
import Metalogos.Contacts.Fold
import Metalogos.Jurisdiction.Digest
import Metalogos.Schema.Conforms
import Metalogos.Recall.Forget
import Metalogos.Graph.Revise
import Metalogos.Graph.Store
import Metalogos.Graph.Summaries
import Metalogos.Calendar.Runs
import Metalogos.Session.Interrupts
import Metalogos.Server.Conflicts
import Metalogos.Http.Robots
import Metalogos.Package.Digest
import Metalogos.Template.Printed
import Metalogos.Canary.Mark
import Metalogos.Bpe.Stored
import Metalogos.Gate.Authorize
import Metalogos.Dag.Phases
import Metalogos.Graph.Paths
import Metalogos.Check.Types
