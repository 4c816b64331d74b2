import Qihse.Txn.Serializable
import Qihse.Wal.CrashRecovery
import Qihse.Kv.Pages
import Qihse.Btree.Refine
import Qihse.Crdt.Converge
import Qihse.Wal.Reopen
import Qihse.Kv.Sequence
import Qihse.Kv.Apply
import Qihse.Resp.Session
import Qihse.Consensus.Overlap
import Qihse.Consensus.Deliverable
import Qihse.Consensus.Solo
import Qihse.Federation.Repl
import Qihse.Federation.Ingest
import Qihse.Principal.Store
import Qihse.Blob.Consistency
import Qihse.Txn.TwoPhase
import Qihse.Mvcc.Collect
import Qihse.Consensus.Canonical
import Qihse.Consensus.Install
import Qihse.Btree.Key
import Qihse.Cluster.Ownership
import Qihse.Cluster.Migrate
import Qihse.Tables.Transform
import Qihse.Spinnaker.Result
import Qihse.Vfs.PageCache
import Qihse.Vfs.Wal
