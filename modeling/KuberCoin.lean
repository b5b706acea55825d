import KuberCoin.Bytes
import KuberCoin.Maps
import KuberCoin.Transactions
import KuberCoin.Blocks
import KuberCoin.Difficulty
import KuberCoin.Sha256
import KuberCoin.Params
import KuberCoin.UtxoSets
import KuberCoin.Validator
import KuberCoin.BlockEffects
import KuberCoin.Storage
import KuberCoin.NodeStates
import KuberCoin.AddBlock
import KuberCoin.Frames
import KuberCoin.StepCases
import KuberCoin.Branches
import KuberCoin.ChainInvariants
import KuberCoin.Runs
import KuberCoin.StoredBodies
import KuberCoin.BestChain
import KuberCoin.Spending
import KuberCoin.Supply
import KuberCoin.UndoRecords
import KuberCoin.WorkPaths
import KuberCoin.Sessions
import KuberCoin.Crashes
import KuberCoin.BranchReads
import KuberCoin.BlockTrees
import KuberCoin.Deliveries
import KuberCoin.UndoCoverage
import KuberCoin.UtxoCodec
import KuberCoin.Snapshots
import KuberCoin.InputScripts
import KuberCoin.AssumeValid
import KuberCoin.MerkleTrees
import KuberCoin.TxEncodings
import KuberCoin.HeaderCommitments
import KuberCoin.Mempools
import KuberCoin.PoolAccounting
import KuberCoin.PoolEvictions
import KuberCoin.AncestorPackages
import KuberCoin.ChainIndexes
import KuberCoin.SharedPrograms
import KuberCoin.SigCaches
import KuberCoin.ShorterChains
import KuberCoin.FailingPrograms
import KuberCoin.ScriptInterpreters
import KuberCoin.ScriptRuns
import KuberCoin.Ripemd160
import KuberCoin.PayToScriptHash
import KuberCoin.ScriptLimits
import KuberCoin.ScriptHashSpends
import KuberCoin.AddedNodes
import KuberCoin.ChainLimits
import KuberCoin.Handlers
import KuberCoin.ProvenWork
import KuberCoin.RipeChains
import KuberCoin.RealCoins
import KuberCoin.Admissions
import KuberCoin.Peers
import KuberCoin.Relays
import KuberCoin.ChannelManagers
import KuberCoin.HtlcMirrors
import KuberCoin.ChaCha20Poly1305
import KuberCoin.Transports
import KuberCoin.PeerManagers
import KuberCoin.SessionRegistries
import KuberCoin.Servers
import KuberCoin.Handshakes
import KuberCoin.Greetings
import KuberCoin.SyncStates
import KuberCoin.Locators
import KuberCoin.Decoders
import KuberCoin.WireBlocks
import KuberCoin.ConfirmedPools
import KuberCoin.FundingNegotiations
import KuberCoin.OnionPackets
import KuberCoin.GossipGraphs
import KuberCoin.CommitmentTxs
import KuberCoin.DelayedOutputs
import KuberCoin.TaprootSpends
import KuberCoin.TaprootDigests
import KuberCoin.PsbtVersion2
import KuberCoin.Psbts
import KuberCoin.Miniscripts
import KuberCoin.MiniscriptPolicies
import KuberCoin.MiniscriptSatisfactions
import KuberCoin.MiniscriptSpends
import KuberCoin.CompactTargets
import KuberCoin.LongDivisions
import KuberCoin.WorkArithmetic
import KuberCoin.DecodingSafety
import KuberCoin.UtxoAtomicity
import KuberCoin.VersionBits
import KuberCoin.OrderedMatchings
import KuberCoin.ScriptOpcodes
import KuberCoin.ScriptArithmetic
import KuberCoin.ScriptHashInputs
import KuberCoin.ScriptElements
import KuberCoin.KeyHashPaths
import KuberCoin.PoolCleanups
import KuberCoin.PoolRejections
import KuberCoin.PostOrders
import KuberCoin.TemplateOrders
import KuberCoin.DifficultyBounds
import KuberCoin.IndexStamps
import KuberCoin.CompactBlocks
import KuberCoin.SigningOrders
import KuberCoin.TransactionSizes
import KuberCoin.CoinSelections
import KuberCoin.CoinSearches
import KuberCoin.CoinBalances
import KuberCoin.Bech32Codes
import KuberCoin.Bech32Programs
import KuberCoin.Bech32Registers
import KuberCoin.Bech32Strings
import KuberCoin.Bech32Exactness
import KuberCoin.Bech32Substitutions
import KuberCoin.AddressRoundTrips
import KuberCoin.GuardedReads
import KuberCoin.PsbtParsers
import KuberCoin.PsbtV2Parsers
import KuberCoin.MultisigScripts
import KuberCoin.MultisigInputs
import KuberCoin.TimelockScripts
import KuberCoin.MiniscriptTexts
import KuberCoin.TransactionIds
import KuberCoin.MerkleProofs
import KuberCoin.BlockCaches
import KuberCoin.TemplateDepends
import KuberCoin.ShardedPayments
import KuberCoin.Watchtowers
import KuberCoin.BitGroups
import KuberCoin.TextPieces
import KuberCoin.Mnemonics
import KuberCoin.HdWallets
import KuberCoin.ProofTrees
import KuberCoin.TaprootTrees
import KuberCoin.TapscriptBudgets
import KuberCoin.Bech32Bursts
import KuberCoin.Invoices
