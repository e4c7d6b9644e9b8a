import Seshat.Resp.Acceptance
import Seshat.Resp.Aggregates
import Seshat.Resp.BufferPool
import Seshat.Resp.Capacity
import Seshat.Resp.Command
import Seshat.Resp.Finality
import Seshat.Resp.Inline
import Seshat.Resp.Pipeline
import Seshat.Resp.Runs
import Seshat.Resp.Scalars
import Seshat.Resp.Session
import Seshat.Resp.Sizes
import Seshat.Storage.Backends
import Seshat.Storage.Checkpoints
import Seshat.Storage.Continue
import Seshat.Storage.Crash
import Seshat.Storage.Guard
import Seshat.Storage.Isolation
import Seshat.Storage.Iterator
import Seshat.Storage.Journal
import Seshat.Storage.LogApi
import Seshat.Storage.MemLog
import Seshat.Storage.MemStorage
import Seshat.Storage.Mirror
import Seshat.Storage.OperationCodec
import Seshat.Storage.Outages
import Seshat.Storage.Paging
import Seshat.Storage.Payload
import Seshat.Storage.Snapshots
