import Imbh.Attrstats.Durations
import Imbh.Attrstats.Scan
import Imbh.Core.ExpHistogram
import Imbh.Core.FlushPolicy
import Imbh.Db.Close
import Imbh.Docker.Allow
import Imbh.Docker.Assembler
import Imbh.Docker.Fifo
import Imbh.Docker.Ingest
import Imbh.Docker.Networks
import Imbh.Docker.ReadLogs
import Imbh.Docker.Remap
import Imbh.Docker.Supervise
import Imbh.Head.Series
import Imbh.Ingest.Export
import Imbh.Lgtm.AttributeScopes
import Imbh.Lgtm.Bounded
import Imbh.Lgtm.ExactQuantile
import Imbh.Lgtm.Pushdown
import Imbh.Lgtm.PromVectors
import Imbh.Lgtm.Structural
import Imbh.Logs.Paging
import Imbh.Manifest.Deltas
import Imbh.Manifest.Durability
import Imbh.Mcp.Dechunk
import Imbh.Mcp.Origin
import Imbh.Mcp.Proxy
import Imbh.Metrics.Catalog
import Imbh.Metrics.MergedQuantile
import Imbh.Query.Buckets
import Imbh.Query.Answers
import Imbh.Otlp.Exemplars
import Imbh.Segments.Drain
import Imbh.Segments.Restarts
import Imbh.Segments.Retention
import Imbh.Server.Jobs
import Imbh.Storage.Pending
import Imbh.Storage.Reader
import Imbh.Storage.SetPromote
import Imbh.Storage.Unattempted
import Imbh.Syntax.Grammars
import Imbh.Tui.Promotion
import Imbh.Tui.StickyLayout
import Imbh.Tui.Time
import Imbh.Wal.Tail
