import Digdigdig3.Lib.AdaptiveCuts
import Digdigdig3.Lib.Affixes
import Digdigdig3.Lib.AppendFile
import Digdigdig3.Lib.Buckets
import Digdigdig3.Lib.Bytes
import Digdigdig3.Lib.Counted
import Digdigdig3.Lib.Float64
import Digdigdig3.Lib.Framing
import Digdigdig3.Lib.Glob
import Digdigdig3.Lib.GridWalk
import Digdigdig3.Lib.HighWater
import Digdigdig3.Lib.KeyedRuns
import Digdigdig3.Lib.Layers
import Digdigdig3.Lib.Layout
import Digdigdig3.Lib.MapWrites
import Digdigdig3.Lib.Mealy
import Digdigdig3.Lib.Msgpack
import Digdigdig3.Lib.Occurrences
import Digdigdig3.Lib.Paging
import Digdigdig3.Lib.Paths
import Digdigdig3.Lib.PercentEncoding
import Digdigdig3.Lib.ReadEach
import Digdigdig3.Lib.Registry
import Digdigdig3.Lib.Runs
import Digdigdig3.Lib.Segmentation
import Digdigdig3.Lib.SetUpdates
import Digdigdig3.Lib.SlidingWindow
import Digdigdig3.Lib.SortedWindow
import Digdigdig3.Lib.Upsert
import Digdigdig3.Lib.UrlRest
import Digdigdig3.Lib.UrlDecoded
import Digdigdig3.Lib.Utf8
import Digdigdig3.Lib.WireFormat
import Digdigdig3.Core.Types
import Digdigdig3.Core.StreamEvent
import Digdigdig3.Core.StreamSpec
import Digdigdig3.Core.SubscriptionRequest
import Digdigdig3.Core.RateLimiter
import Digdigdig3.Core.RateLimiterWait
import Digdigdig3.Core.SymbolNormalizer
import Digdigdig3.Core.SymbolRoundTrip
import Digdigdig3.Core.SymbolRecovery
import Digdigdig3.Core.HttpClient
import Digdigdig3.Core.HttpRetry
import Digdigdig3.Core.Json
import Digdigdig3.Storage.Record
import Digdigdig3.Storage.EventLog
import Digdigdig3.Storage.Rotation
import Digdigdig3.Storage.Manager
import Digdigdig3.Storage.ManagerWasm
import Digdigdig3.Storage.Snapshot
import Digdigdig3.Storage.Retention
import Digdigdig3.Cure.Dedup
import Digdigdig3.Cure.Integrity
import Digdigdig3.Derived.Basic
import Digdigdig3.Derived.Basis
import Digdigdig3.Derived.FundingSettlement
import Digdigdig3.Derived.KlineDelta
import Digdigdig3.Derived.ThresholdBars
import Digdigdig3.Derived.TradeBars
import Digdigdig3.Derived.Renko
import Digdigdig3.Derived.Kagi
import Digdigdig3.Derived.RenkoTermination
import Digdigdig3.Derived.ThreeLineBreak
import Digdigdig3.Derived.PointAndFigure
import Digdigdig3.Derived.PnfSampling
import Digdigdig3.Derived.KagiSeeding
import Digdigdig3.Derived.TpoProfile
import Digdigdig3.Derived.TpoHistory
import Digdigdig3.Derived.Footprint
import Digdigdig3.Derived.TickImbalance
import Digdigdig3.Derived.AdaptiveBars
import Digdigdig3.Orderbook
import Digdigdig3.Orderbook.Queries
import Digdigdig3.Series.Key
import Digdigdig3.Series.Series
import Digdigdig3.Series.DataPoint
import Digdigdig3.Series.Build
import Digdigdig3.Series.Store
import Digdigdig3.Series.Recovery
import Digdigdig3.Series.ReadTailWasm
import Digdigdig3.Series.StoreWasm
import Digdigdig3.Series.ReadTail
import Digdigdig3.Series.Path
import Digdigdig3.Data.Header
import Digdigdig3.Data.PlainCodec
import Digdigdig3.Data.PlainPoints
import Digdigdig3.Data.OrderBookPoints
import Digdigdig3.Data.TextPoints
import Digdigdig3.Data.FundingRateFull
import Digdigdig3.Data.TpoSession
import Digdigdig3.Data.RoundTrip
import Digdigdig3.Data.Hooks
import Digdigdig3.Station.Forwarder
import Digdigdig3.Station.Multiplexer
import Digdigdig3.Station.References
import Digdigdig3.Station.Coherence
import Digdigdig3.Station.Subscriptions
import Digdigdig3.Station.DerivedAcquire
import Digdigdig3.Station.Heal
import Digdigdig3.Station.SeedLive
import Digdigdig3.Station.TradeFold
import Digdigdig3.Station.Deepening
import Digdigdig3.Station.Rewarm
import Digdigdig3.Station.RewarmFootprint
import Digdigdig3.Station.FlushPersistence
import Digdigdig3.Station.Quota
import Digdigdig3.Station.TokenBucket
import Digdigdig3.Station.Poller
import Digdigdig3.Station.RestCache
import Digdigdig3.Station.Backfill
import Digdigdig3.Station.TradeHistory
import Digdigdig3.Transport.Driver
import Digdigdig3.Transport.Stop
import Digdigdig3.Transport.Boundary
import Digdigdig3.Transport.Convergence
import Digdigdig3.Transport.TopicPatterns
import Digdigdig3.Transport.TradeFrames
import Digdigdig3.Lighter.Goldilocks
import Digdigdig3.Lighter.TxHash
import Digdigdig3.Lib.Limbs
import Digdigdig3.Lib.DoubleOdd
import Digdigdig3.Lib.SquareRoot
import Digdigdig3.Lighter.Scalar
import Digdigdig3.Lighter.GoldilocksField
import Digdigdig3.Lighter.GFp5
import Digdigdig3.Lighter.QuinticField
import Digdigdig3.Lighter.Point
import Digdigdig3.Lighter.Recode
import Digdigdig3.Lighter.WindowedMul
import Digdigdig3.Lighter.DecodeReduce
import Digdigdig3.Lighter.GoldilocksRoots
import Digdigdig3.Lighter.QuinticRoots
import Digdigdig3.Lighter.PointDecode
import Digdigdig3.Lighter.PointLaws
import Digdigdig3.Lighter.Poseidon2
import Digdigdig3.Lighter.Schnorr
import Digdigdig3.Lighter.Verify
import Digdigdig3.Lighter.AuthToken
import Digdigdig3.Chain.CosmosSequence
import Digdigdig3.ConnectorManager.MarketFeed
import Digdigdig3.ConnectorManager.FeedIsolation
import Digdigdig3.Hyperliquid.Actions
import Digdigdig3.Hyperliquid.SignedActions
import Digdigdig3.Hyperliquid.Eip712
import Digdigdig3.Proxy.Target
import Digdigdig3.Proxy.Relay
import Digdigdig3.Proxy.UrlOverride
import Digdigdig3.Bitfinex.Book
import Digdigdig3.Bitfinex.Routing
import Digdigdig3.Kline.Channels
import Digdigdig3.Replay
import Digdigdig3.Cure.Gap
import Digdigdig3.Cure.Repair
import Digdigdig3.BarAlign.Resample
import Digdigdig3.BarAlign.ResampleMulti
import Digdigdig3.BarAlign.Termination
import Digdigdig3.BarAlign.FromDisk
import Digdigdig3.BarAlign.Pagination
import Digdigdig3.Dukascopy.Parser
import Digdigdig3.Dukascopy.Connector
import Digdigdig3.Yahoo.Protobuf
import Digdigdig3.Yahoo.PricingData
import Digdigdig3.Lib.Decimal96
import Digdigdig3.Lib.DoubleText
import Digdigdig3.Core.Precision
