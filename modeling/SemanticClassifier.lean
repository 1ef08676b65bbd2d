import SemanticClassifier.Library.Interleaving
import SemanticClassifier.Library.Mutex
import SemanticClassifier.Library.Ring
import SemanticClassifier.Library.Buckets
import SemanticClassifier.TextCacheRecall
import SemanticClassifier.TextCache
import SemanticClassifier.TextCacheIndex
import SemanticClassifier.TextCacheLocks
import SemanticClassifier.Breaker
import SemanticClassifier.ExactCache
import SemanticClassifier.Library.SingleFlight
import SemanticClassifier.SharedCache
import SemanticClassifier.SharedCacheSafety
import SemanticClassifier.SharedCacheBound
import SemanticClassifier.Classify
import SemanticClassifier.Handoff
import SemanticClassifier.HandoffAdmission
import SemanticClassifier.HandoffOutcomes
import SemanticClassifier.HandoffChecks
import SemanticClassifier.CacheKey
import SemanticClassifier.SharedCacheResults
import SemanticClassifier.Service
import SemanticClassifier.ServiceTransparency
import SemanticClassifier.Head
import SemanticClassifier.Library.OrderedMap
import SemanticClassifier.Library.Ranking
import SemanticClassifier.Ranker
import SemanticClassifier.Candle
import SemanticClassifier.CandleRanking
import SemanticClassifier.Library.Fifo
import SemanticClassifier.ExactCacheFifo
import SemanticClassifier.Library.Abandonment
import SemanticClassifier.SharedCacheSequential
import SemanticClassifier.SharedCacheUnwinding
import SemanticClassifier.TextCacheBound
import SemanticClassifier.IdentityIsolation
import SemanticClassifier.ServiceAccounting
import SemanticClassifier.ServiceProvenance
import SemanticClassifier.Library.Escaping
import SemanticClassifier.Library.TagIndex
import SemanticClassifier.RedisTags
import SemanticClassifier.Metrics
import SemanticClassifier.PrefilterSignature
import SemanticClassifier.HeadSoftmax
import SemanticClassifier.AnchorRanking
import SemanticClassifier.GrpcTimeout
import SemanticClassifier.HeadConfig
import SemanticClassifier.HeadLoad
import SemanticClassifier.BreakerHistory
import SemanticClassifier.TagEscaping
import SemanticClassifier.RedisLookup
import SemanticClassifier.HistogramIndex
import SemanticClassifier.Library.Boundaries
import SemanticClassifier.Telemetry
import SemanticClassifier.ModelCarDigest
import SemanticClassifier.Runtime
import SemanticClassifier.Library.Shuffle
import SemanticClassifier.SharedCacheSolo
import SemanticClassifier.ServiceWindow
import SemanticClassifier.BenchKeys
import SemanticClassifier.Bench
import SemanticClassifier.BenchSelfCheck
import SemanticClassifier.RedisWritebackEntries
import SemanticClassifier.ServicePrefilterTrust
import SemanticClassifier.ServerTruth
import SemanticClassifier.ServerLedger
import SemanticClassifier.ChatProxyBooks
import SemanticClassifier.StartupReplicas
