import Tetra.Reward
import Tetra.UndoBlock
import Tetra.Payment
import Tetra.CashLaws
import Tetra.CashOrder
import Tetra.Pool
import Tetra.SendMany
import Tetra.Sufficiency
import Tetra.ProxySendMany
import Tetra.CoinsCache
import Tetra.Orphans
import Tetra.Balances
import Tetra.LoadIndex
import Tetra.ChangeBalance
import Tetra.Alert
import Tetra.Endorsements
import Tetra.DeerAccounts
import Tetra.KeyPool
import Tetra.KeyStore
import Tetra.MempoolLinks
import Tetra.Packets
import Tetra.CheckQueue
import Tetra.AddrCheck
import Tetra.MoneyRange
import Tetra.FeesLaws
import Tetra.OrphanMaps
import Tetra.BlockValue
import Tetra.CandidateLoop
import Tetra.TxEquality
import Tetra.PartialMerkle
import Tetra.MerkleTree
import Tetra.Multisig
import Tetra.ScriptParse
import Tetra.Templates
import Tetra.CombineMultisig
import Tetra.Standardness
import Tetra.SignatureHash
import Tetra.BufferedFile
import Tetra.ExternalBlocks
import Tetra.BlockFiles
import Tetra.LimitedMap
import Tetra.TimeData
import Tetra.MoneyText
import Tetra.MainChain
import Tetra.Locator
import Tetra.Bloom
import Tetra.SignatureCache
import Tetra.AddrPlaces
import Tetra.AddrFile
import Tetra.Wildcards
import Tetra.LockedPages
import Tetra.Words
import Tetra.BaseUint
import Tetra.Positional
import Tetra.BigNum
import Tetra.Base58
import Tetra.BitGroups
import Tetra.Base64
import Tetra.Mruset
import Tetra.MedianTime
import Tetra.Eviction
import Tetra.Shuffles
import Tetra.CoinsFormat
import Tetra.ScriptLimits
import Tetra.FeesScalars
import Tetra.MinFee
import Tetra.MergeRuns
import Tetra.OrderedItems
import Tetra.Reorder
import Tetra.WalletRecords
import Tetra.Passphrase
import Tetra.Groupings
import Tetra.Ingestion
import Tetra.CommitTransaction
import Tetra.EndorseMessages
import Tetra.EndorseValues
import Tetra.EndorseUpdates
import Tetra.Standing
import Tetra.QuotaSpending
import Tetra.DeerExpiry
import Tetra.DeerOpening
import Tetra.SuppliedOutputs
import Tetra.VarInts
import Tetra.ScriptForms
import Tetra.ReadLimits
import Tetra.UndoFormat
import Tetra.KeyBytes
import Tetra.HexBuffers
import Tetra.StaleRecords
import Tetra.TrustStore
import Tetra.BlockFormat
import Tetra.Queues
import Tetra.DataStream
import Tetra.Queries
import Tetra.SigOps
import Tetra.VerifyScript
import Tetra.Spending
import Tetra.StandardForms
import Tetra.Signing
import Tetra.LedgerRuns
import Tetra.SpentInputs
import Tetra.Miner
import Tetra.MinerQueue
import Tetra.BlockTemplate
import Tetra.PoolChain
import Tetra.GrowingChain
import Tetra.Files
import Tetra.TxIndex
