import Tsdb.Damage
import Tsdb.Db.Buffer
import Tsdb.Db.Directory
import Tsdb.Db.Invisible
import Tsdb.Db.Kept
import Tsdb.Db.Ownership
import Tsdb.Db.PowerLoss
import Tsdb.Db.Refused
import Tsdb.Db.SelfContained
import Tsdb.Db.Server
import Tsdb.Labels
import Tsdb.Names
import Tsdb.Storage.Bijection
import Tsdb.Storage.Kernels
import Tsdb.Storage.Reopen
import Tsdb.Storage.Resolve
import Tsdb.Wal.AtRest
import Tsdb.Wal.Backlog
import Tsdb.Wal.Grammar
import Tsdb.Wal.Removed
import Tsdb.Wal.Routing
import Tsdb.Wal.Settling
import Tsdb.Wal.Syncer
