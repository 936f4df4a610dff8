import PredictionMarket.Foundation.Transition
import PredictionMarket.Foundation.Transducer
import PredictionMarket.Foundation.BoundedFifo
import PredictionMarket.Foundation.Ring
import PredictionMarket.Foundation.Lifetime
import PredictionMarket.Queue.SpscQueue
import PredictionMarket.Queue.SpscLifetime
import PredictionMarket.Queue.SpscThreads
import PredictionMarket.Queue.SpscInvariant
import PredictionMarket.Queue.SpscRefinement
import PredictionMarket.Queue.SpscCalls
import PredictionMarket.Queue.SpscAlone
import PredictionMarket.Foundation.CheckedInt
import PredictionMarket.Foundation.CashLedger
import PredictionMarket.Foundation.WeightedMean
import PredictionMarket.Foundation.AverageCost
import PredictionMarket.Strategy.PositionManager
import PredictionMarket.Strategy.Accounting
import PredictionMarket.Strategy.FillSplit
import PredictionMarket.Strategy.EntryPrice
import PredictionMarket.Foundation.LastWrite
import PredictionMarket.Foundation.Provisional
import PredictionMarket.Market.OrderBook
import PredictionMarket.Market.Quote
import PredictionMarket.Market.BookHistory
import PredictionMarket.Foundation.Decimal
import PredictionMarket.Foundation.CheckedWord
import PredictionMarket.Market.NumberText
import PredictionMarket.Market.PriceText
import PredictionMarket.Market.PriceSoundness
import PredictionMarket.Market.PriceSpelling
import PredictionMarket.Market.SizeText
import PredictionMarket.Market.SizeOrder
import PredictionMarket.Market.NumberGrammar
import PredictionMarket.Market.Json
import PredictionMarket.Market.MarketParser
import PredictionMarket.Market.MessageScript
import PredictionMarket.Market.ParserRun
import PredictionMarket.Market.ScriptOutcome
import PredictionMarket.Market.ParserQueue
import PredictionMarket.Market.PayloadBound
import PredictionMarket.Market.BookSnapshot
import PredictionMarket.Market.PriceChange
import PredictionMarket.Market.Schemas
import PredictionMarket.Market.Layout
import PredictionMarket.Market.CentBuckets
import PredictionMarket.Strategy.Alphas
import PredictionMarket.Strategy.StrategyEngine
import PredictionMarket.Strategy.MirrorSignals
import PredictionMarket.Strategy.Microprice
import PredictionMarket.Strategy.View
import PredictionMarket.Strategy.Baseline
import PredictionMarket.Strategy.Evaluation
import PredictionMarket.Strategy.Rebaseline
import PredictionMarket.Strategy.Ensemble
import PredictionMarket.Strategy.StaticTop
import PredictionMarket.Strategy.PositionBound
import PredictionMarket.Strategy.Repetition
import PredictionMarket.Strategy.EventLog
import PredictionMarket.Strategy.MirrorPosition
import PredictionMarket.Strategy.Mirror
import PredictionMarket.Pipeline.Threads
import PredictionMarket.Pipeline.Determinism
import PredictionMarket.Pipeline.Turns
import PredictionMarket.Logger.LogEvent
import PredictionMarket.Logger.AsyncLogger
import PredictionMarket.Logger.WorkerStages
import PredictionMarket.Logger.LoggerInvariant
import PredictionMarket.Logger.Shutdown
import PredictionMarket.Network.ReadLoop
import PredictionMarket.Network.Connection
import PredictionMarket.Tools.PythonJson
import PredictionMarket.Tools.Recorder
import PredictionMarket.Tools.Replay
import PredictionMarket.Foundation.Journal
import PredictionMarket.Tools.Sessions
import PredictionMarket.Foundation.Pacing
import PredictionMarket.Tools.Pacing
import PredictionMarket.Foundation.Progress
import PredictionMarket.Queue.SpscProgress
import PredictionMarket.Pipeline.Overload
import PredictionMarket.Pipeline.Backtest
import PredictionMarket.Pipeline.ReplayLoop
import PredictionMarket.Foundation.Binary64
import PredictionMarket.Tools.MockFeed
import PredictionMarket.Strategy.SingleLevel
import PredictionMarket.Pipeline.MockTrading
import PredictionMarket.Logger.CrashLog
import PredictionMarket.Logger.LoggerProgress
import PredictionMarket.Main.CommandLine
import PredictionMarket.Main.Process
import PredictionMarket.Main.TradingLog
import PredictionMarket.Main.Teardown
