import SqliteComposite.Base.CInt
import SqliteComposite.Base.CString
import SqliteComposite.Base.Chain
import SqliteComposite.Base.Heap
import SqliteComposite.Base.Run
import SqliteComposite.Base.Traces
import SqliteComposite.Base.Gauge
import SqliteComposite.Base.Keystream
import SqliteComposite.Base.Interaction
import SqliteComposite.Base.Residues
import SqliteComposite.Base.Words
import SqliteComposite.Mem.Methods
import SqliteComposite.Mem.Access
import SqliteComposite.Mem.Client
import SqliteComposite.Mem.Release
import SqliteComposite.Mem.Alignment
import SqliteComposite.Mem.Returning
import SqliteComposite.Mem.Accounting
import SqliteComposite.Mem.Peak
import SqliteComposite.Mem.Layout
import SqliteComposite.Mem.Bounds
import SqliteComposite.Mem.Exhaustion
import SqliteComposite.Mem.Reallocation
import SqliteComposite.Inmemfs.Functions
import SqliteComposite.Inmemfs.Strings
import SqliteComposite.Inmemfs.View
import SqliteComposite.Inmemfs.FileList
import SqliteComposite.Inmemfs.Operations
import SqliteComposite.Inmemfs.Buffers
import SqliteComposite.Inmemfs.Ownership
import SqliteComposite.Vfs.Methods
import SqliteComposite.Vfs.Client
import SqliteComposite.Vfs.Locks
import SqliteComposite.Vfs.Simulation
import SqliteComposite.Vfs.Files
import SqliteComposite.Vfs.Reading
import SqliteComposite.Vfs.Failures
import SqliteComposite.Vfs.Coverage
import SqliteComposite.Vfs.Isolation
import SqliteComposite.Vfs.Contents
import SqliteComposite.Vfs.History
import SqliteComposite.Vfs.Lifetime
import SqliteComposite.Vfs.Namespace
import SqliteComposite.Vfs.Deletion
import SqliteComposite.Vfs.Deferral
import SqliteComposite.Vfs.Opening
import SqliteComposite.Vfs.Creating
import SqliteComposite.Vfs.FileStore
import SqliteComposite.Vfs.Refinement
import SqliteComposite.Vfs.Pathname
import SqliteComposite.Vfs.Anonymous
import SqliteComposite.Vfs.Random
import SqliteComposite.Vfs.Generator
import SqliteComposite.Mem.Sizes
import SqliteComposite.Mem.Sharing
import SqliteComposite.Malloc.Functions
import SqliteComposite.Malloc.Client
import SqliteComposite.Malloc.Steps
import SqliteComposite.Malloc.Faults
import SqliteComposite.Malloc.Usage
import SqliteComposite.Malloc.Drift
import SqliteComposite.Library.VfsList
import SqliteComposite.Library.Initialize
import SqliteComposite.Library.Session
import SqliteComposite.Library.Randomness
import SqliteComposite.Shell.Functions
import SqliteComposite.Shell.Protocol
import SqliteComposite.Shell.Outcome
