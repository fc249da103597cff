import ZprUtils.Bpf.Termination
import ZprUtils.Foundations.LinkedSegment
import ZprUtils.Cslab.Iter
import ZprUtils.Cslab.Refinement
import ZprUtils.Foundations.Call
import ZprUtils.RcuCslab.State
import ZprUtils.RcuCslab.Calls
import ZprUtils.Foundations.Handles
import ZprUtils.RcuCslab.Invariant
import ZprUtils.RcuCslab.Actions
import ZprUtils.RcuCslab.Preservation
import ZprUtils.RcuCslab.Decomposition
import ZprUtils.RcuCslab.Steps
import ZprUtils.RcuCslab.Protection
import ZprUtils.RcuCslab.Ledger
import ZprUtils.RcuCslab.Lives
import ZprUtils.RcuCslab.Bookkeeping
import ZprUtils.RcuCslab.Generations
import ZprUtils.RcuCslab.Destruction
import ZprUtils.Bpf.Acceptance
import ZprUtils.Bpf.Pcap
import ZprUtils.Bpf.Truncation
import ZprUtils.RcuCslab.Locking
import ZprUtils.Cslab.ExclIter
import ZprUtils.RcuCslab.ReaderDrops
import ZprUtils.RcuCslab.ExclIter
import ZprUtils.Cslab.ConcurrentIter
import ZprUtils.Foundations.ReleaseAcquire
import ZprUtils.Cslab.Publication
import ZprUtils.Foundations.Atomicity
import ZprUtils.Rcu.Box
import ZprUtils.Rcu.Locked
import ZprUtils.Rcu.Epoch
import ZprUtils.Rcu.EpochAtomic
import ZprUtils.Rcu.Linearizable
import ZprUtils.Rcu.Reclamation
import ZprUtils.RcuCslab.ReaderLife
import ZprUtils.Rcu.GuardedEntry
import ZprUtils.Foundations.OnesComplement
import ZprUtils.Net.Checksum
import ZprUtils.Foundations.ByteStrings
import ZprUtils.Uds.Ancillary
import ZprUtils.Uds.Send
import ZprUtils.Uds.Receive
import ZprUtils.Uds.Ownership
import ZprUtils.Foundations.ReadinessLoop
import ZprUtils.Uds.AsyncLoop
import ZprUtils.RcuCslab.SharedCalls
import ZprUtils.RcuCslab.VacantKey
import ZprUtils.RcuCslab.Traversal
import ZprUtils.RcuCslab.Clear
import ZprUtils.Foundations.ThreadPool
import ZprUtils.Threads.Borrowing
import ZprUtils.Threads.Iterating
import ZprUtils.Threads.Safety
import ZprUtils.Foundations.Logs
import ZprUtils.Threads.Chronicle
import ZprUtils.Threads.Custody
import ZprUtils.Threads.Progress
import ZprUtils.Threads.Protection
import ZprUtils.Bpf.Footprint
import ZprUtils.Rcu.Progress
