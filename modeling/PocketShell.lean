import PocketShell.Main
import PocketShell.Proofs.Filesystem.Locality
import PocketShell.Proofs.Filesystem.Reachable
import PocketShell.Proofs.Filesystem.RoundTrip
import PocketShell.Proofs.Repl.Trace
import PocketShell.Proofs.Session.Restart
import PocketShell.Proofs.Session.Saving
import PocketShell.Proofs.Shell.Atomic
import PocketShell.Proofs.Snapshot.Exact
import PocketShell.Proofs.Store.Crash
import PocketShell.Proofs.Store.Interleaving
import PocketShell.Proofs.ProcessTable.Locality
import PocketShell.Proofs.ProcessTable.Invariant
import PocketShell.Proofs.ProcessTable.Lifecycle
import PocketShell.Proofs.Command.Kill
import PocketShell.Proofs.Shell.Frame
import PocketShell.Proofs.Shell.Processes
import PocketShell.Proofs.History
import PocketShell.Proofs.Snapshot.Canonical
import PocketShell.Proofs.Shell.Outcome
import PocketShell.Proofs.Shell.Clock
import PocketShell.Proofs.Command.Flags
import PocketShell.Proofs.Filesystem.Resolution
import PocketShell.Proofs.Shell.Echo
import PocketShell.Proofs.Shell.Reset
import PocketShell.Proofs.Filesystem.Paths
import PocketShell.Proofs.Filesystem.Outcome
import PocketShell.Proofs.Filesystem.Lookup
import PocketShell.Proofs.Snapshot.Traversal
import PocketShell.Proofs.Shell.Completion
import PocketShell.Proofs.Shell.Removal
import PocketShell.Proofs.Command.Registration
import PocketShell.Proofs.Disk.Folding
import PocketShell.Proofs.Filesystem.Names
import PocketShell.Proofs.Shell.Naming
