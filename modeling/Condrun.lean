import Condrun.Proofs.Debounce
import Condrun.Proofs.ExitCode
import Condrun.Proofs.Snapshot
import Condrun.Proofs.Group
import Condrun.Proofs.Exited
import Condrun.Proofs.Protocol
import Condrun.Proofs.Watch
import Condrun.Proofs.Errors
import Condrun.Proofs.Reap
import Condrun.Proofs.PlainWatch
import Condrun.Proofs.FakeSignals
import Condrun.Proofs.Fixture
import Condrun.Proofs.Composition
import Condrun.Lib.Utf8
import Condrun.Spec.Cli
import Condrun.Proofs.Duration
import Condrun.Proofs.KillTime
import Condrun.Spec.Fake
import Condrun.Spec.Handles
import Condrun.Proofs.FakeChild
import Condrun.Proofs.FakeTerminate
import Condrun.Proofs.Race
import Condrun.Proofs.Kernel
import Condrun.Proofs.RealSignals
import Condrun.Proofs.Returns
import Condrun.Proofs.NwMonitor
import Condrun.Proofs.Flags
import Condrun.Proofs.Timeline
import Condrun.Proofs.PollRate
import Condrun.Proofs.Deadline
