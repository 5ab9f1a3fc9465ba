import GhaConsumer.WarmLock.Exclusion
import GhaConsumer.WarmLock.Cleanup
import GhaConsumer.GitHub.Tokens
import GhaConsumer.Intake.Verdict
import GhaConsumer.Spool.Replay
import GhaConsumer.Spool.Expiry
import GhaConsumer.Spool.Archive
import GhaConsumer.Spool.Synthetic
import GhaConsumer.Runner.Watchdog
import GhaConsumer.Gc.Sweep
import GhaConsumer.Gc.Startup
import GhaConsumer.Gc.Retention
import GhaConsumer.Gc.Reconcile
import GhaConsumer.Gc.Coverage
import GhaConsumer.Control.Listing
import GhaConsumer.Daemon.Shape
import GhaConsumer.Daemon.Shutdown
import GhaConsumer.Budget.Slowest
import GhaConsumer.Daemon.Deletion
import GhaConsumer.Supervisor.Groups
import GhaConsumer.Gc.Spelling
import GhaConsumer.Gc.Block
import GhaConsumer.GitHub.Listing
import GhaConsumer.Warmer.Coalescing
import GhaConsumer.Control.Window
import GhaConsumer.Control.Orphans
import GhaConsumer.Daemon.Iteration
import GhaConsumer.Supervisor.Canonical
import GhaConsumer.GitHub.Endpoint
import GhaConsumer.Warmer.Flakeref
import GhaConsumer.Warmer.Conf
import GhaConsumer.Daemon.Status
import GhaConsumer.Daemon.SerialLogs
import GhaConsumer.Daemon.Ownership
import GhaConsumer.Daemon.OrphanVms
import GhaConsumer.Daemon.OrphanRunners
import GhaConsumer.Daemon.Foreign
import GhaConsumer.Daemon.Progress
import GhaConsumer.Warmer.Refinement
import GhaConsumer.Spool.Delivery
