import Pgw.Lib.Completion
import Pgw.Lib.TransitionSystem
import Pgw.Lib.Ledger
import Pgw.Lib.PackedDigits
import Pgw.Imsi.Model
import Pgw.Imsi.Codec
import Pgw.Session.Store
import Pgw.Session.Manager
import Pgw.Session.Changes
import Pgw.Session.Positions
import Pgw.Session.CdrLedger
import Pgw.Lib.Sweep
import Pgw.Session.Cleanup
import Pgw.Session.Blacklist
import Pgw.Session.WellFormed
import Pgw.Session.GracefulShutdown
import Pgw.Session.Drain
import Pgw.Session.Emissions
import Pgw.Session.Endings
import Pgw.Session.CreateSession
import Pgw.Session.Creations
import Pgw.Session.DrainLoop
import Pgw.Lib.Pacing
import Pgw.Session.RateLimit
import Pgw.Dispatcher.UdpEvent
import Pgw.Dispatcher.FailedCreation
import Pgw.Dispatcher.Wakeup
import Pgw.Dispatcher.Stopping
import Pgw.Lib.Custody
import Pgw.Dispatcher.Server
import Pgw.Dispatcher.Requests
import Pgw.Dispatcher.Answers
import Pgw.Dispatcher.Receive
import Pgw.Lib.Datagrams
import Pgw.Client.Model
import Pgw.Client.Matching
import Pgw.Config.Model
import Pgw.Config.Loading
import Pgw.UniqueFd.Model
import Pgw.UniqueFd.Ownership
import Pgw.Lib.FixedWidth
import Pgw.Lib.Calendar
import Pgw.Cdr.Model
import Pgw.Cdr.Lines
import Pgw.Cdr.Writers
import Pgw.Lib.Turns
import Pgw.Http.Model
import Pgw.Http.Lifecycle
import Pgw.Lib.Linearizability
import Pgw.Session.Linearizable
import Pgw.Dispatcher.Survival
import Pgw.System.Deployment
import Pgw.System.EndToEnd
import Pgw.Lib.EdgeTriggered
import Pgw.Dispatcher.EdgeTriggered
import Pgw.Session.Destructor
import Pgw.Lib.Journal
import Pgw.Cdr.Rows
import Pgw.System.Billing
import Pgw.Session.Lifetime
import Pgw.Http.Handlers
import Pgw.System.Gateway
import Pgw.System.Served
import Pgw.System.Enforcement
import Pgw.Lib.FrontEnd
import Pgw.System.Service
import Pgw.Lib.Accounts
import Pgw.Session.Records
import Pgw.System.Accounts
