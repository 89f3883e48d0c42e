import BengProxy.Address.Base
import BengProxy.Bp.SessionId
import BengProxy.Bp.SessionRoundTrip
import BengProxy.Cluster.Rendezvous
import BengProxy.Cluster.RoundRobin
import BengProxy.Fcgi.ClientHeaders
import BengProxy.Fcgi.ParamsRecord
import BengProxy.Http.ChunkSize
import BengProxy.Http.CookieSpacing
import BengProxy.Http.HeaderBuffer
import BengProxy.Http.ServerSegments
import BengProxy.Http.XForwardedFor
import BengProxy.HttpCache.Directives
import BengProxy.HttpCache.DocRoot
import BengProxy.HttpCache.FilterKey
import BengProxy.HttpCache.Variants
import BengProxy.Io.FdCacheSharing
import BengProxy.Istream.ChunkedAvailable
import BengProxy.Istream.ConcatRun
import BengProxy.Istream.DechunkExchange
import BengProxy.Istream.ReplaceExchange
import BengProxy.Istream.SubstTreeSearch
import BengProxy.Istream.TeeRun
import BengProxy.Memory.LinearPool
import BengProxy.Memory.RubberComplete
import BengProxy.Memory.RubberContents
import BengProxy.Net.ClientAccounting
import BengProxy.Parser.Xml
import BengProxy.Ssl.CertCache
import BengProxy.Translation.InvalidateUri
import BengProxy.Util.LimitedConcurrencyQueue
import BengProxy.Was.Lifecycle
import BengProxy.Widget.Prefix
import BengProxy.Widget.Resolved
