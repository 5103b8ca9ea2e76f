import Aok.Kernel.AprocReaders
import Aok.Kernel.AprocReports
import Aok.Kernel.EventLabels
import Aok.Kernel.InferLedgers
import Aok.Runtime.AuditChain
import Aok.Runtime.CommitLog
import Aok.Runtime.ContextStats
import Aok.Runtime.EngineIds
import Aok.Runtime.EngineLedger
import Aok.Runtime.Flights
import Aok.Runtime.Handouts
import Aok.Runtime.Inbound
import Aok.Runtime.Payloads
import Aok.Runtime.Restarts
import Aok.Runtime.Resume
import Aok.Runtime.Revocation
import Aok.Runtime.RouterTurns
import Aok.Runtime.Tombstone
import Aok.Runtime.WebFetch
import Aok.Sandbox.Filter
import Aok.Sandbox.Manifest
