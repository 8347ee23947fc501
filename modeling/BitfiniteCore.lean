import BitfiniteCore.Address.Base58
import BitfiniteCore.Address.CashAddrContent
import BitfiniteCore.Chain.AblaVerify
import BitfiniteCore.Chain.LoadIndex
import BitfiniteCore.Chain.MachineSafety
import BitfiniteCore.Chain.MedianTime
import BitfiniteCore.Chain.Pow
import BitfiniteCore.Coins.MemoryUsage
import BitfiniteCore.DoubleSpend.Storage
import BitfiniteCore.Mempool.Disconnected
import BitfiniteCore.Mempool.ProofSearch
import BitfiniteCore.Net.AsMap
import BitfiniteCore.Net.RollingBloom
import BitfiniteCore.Primitives.VarInt
import BitfiniteCore.Psbt.Merge
import BitfiniteCore.Relay.PartialMerkleTree
import BitfiniteCore.Relay.Reconstruction
import BitfiniteCore.Script.DerEncoding
import BitfiniteCore.Script.MultiSigMatching
import BitfiniteCore.Storage.FileExtents
import BitfiniteCore.Storage.FlushRecovery
import BitfiniteCore.Storage.ReindexFiles
import BitfiniteCore.Threads.CheckQueue
import BitfiniteCore.Threads.SchedulerClient
import BitfiniteCore.Validation.Recovery
import BitfiniteCore.Validation.TokenSupply
import BitfiniteCore.Validation.UndoData
