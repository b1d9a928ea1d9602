import FuseStudy.CString
import FuseStudy.CacheCleaning
import FuseStudy.CacheRuns
import FuseStudy.DoMount
import FuseStudy.Forest
import FuseStudy.LinearHash
import FuseStudy.LockInvariant
import FuseStudy.LockWalks
import FuseStudy.NodeStore
import FuseStudy.PathProtocol
import FuseStudy.PosixLocks
import FuseStudy.Readdir
import FuseStudy.ReaddirLookups
import FuseStudy.Requests
import FuseStudy.Script
import FuseStudy.StoreInvariant
import FuseStudy.StoreLookups
import FuseStudy.StoreOperations
import FuseStudy.StoreRuns
import FuseStudy.StoreShape
import FuseStudy.TreeLocks
import FuseStudy.PathDiscipline
import FuseStudy.XOptions
import FuseStudy.KernMount
import FuseStudy.HandOver
import FuseStudy.NetPacket
import FuseStudy.NetServer
import FuseStudy.NetClient
import FuseStudy.NetLink
import FuseStudy.NetSteps
import FuseStudy.NetErrors
import FuseStudy.NetContents
import FuseStudy.NetPaths
import FuseStudy.ServerLoop
import FuseStudy.LlRequest
import FuseStudy.LlSession
import FuseStudy.LlRelease
import FuseStudy.LlPipe
import FuseStudy.LlInterrupt
import FuseStudy.LlMatching
import FuseStudy.LlDisposal
import FuseStudy.DoInit
import FuseStudy.InitOffer
import FuseStudy.RequestBuffer
import FuseStudy.ModuleRegistry
import FuseStudy.ModuleRuns
import FuseStudy.ModuleLookups
import FuseStudy.StackedModules
import FuseStudy.WorkerPool
import FuseStudy.WorkerRuns
import FuseStudy.IdentityRuns
import FuseStudy.DirentBytes
import FuseStudy.ReaddirPages
import FuseStudy.FuseOpt
import FuseStudy.OptNormal
import FuseStudy.RequestPaths
import FuseStudy.PathSteps
import FuseStudy.PathExec
import FuseStudy.PathRuns
import FuseStudy.PathRetries
import FuseStudy.WakeUps
import FuseStudy.HeldPaths
import FuseStudy.OptRuns
import FuseStudy.OptGroups
import FuseStudy.NetFraming
import FuseStudy.ServerParse
import FuseStudy.WantWords
import FuseStudy.InitSizes
import FuseStudy.ModeMasks
import FuseStudy.BufCopy
import FuseStudy.BufTransfers
import FuseStudy.BufRuns
import FuseStudy.BufLaws
import FuseStudy.BufLosses
import FuseStudy.SubdirLinks
import FuseStudy.MayUnmount
import FuseStudy.TableCounts
import FuseStudy.TableMaps
import FuseStudy.AutoCache
import FuseStudy.ByteMemory
import FuseStudy.DirentPacking
import FuseStudy.RememberedNames
import FuseStudy.ListHeads
import FuseStudy.NodeSlabs
import FuseStudy.SlabRuns
import FuseStudy.XOptionsBytes
import FuseStudy.LockWire
import FuseStudy.PathInverse
import FuseStudy.DataReplies
import FuseStudy.Deadlocks
import FuseStudy.PinnedNodes
import FuseStudy.DotLookups
import FuseStudy.RenameErrors
import FuseStudy.SignalFrames
import FuseStudy.LonePaths
import FuseStudy.NodeTallies
import FuseStudy.RequestTabs
import FuseStudy.LookupLedgers
import FuseStudy.OpenLedgers
import FuseStudy.RetrieveReplies
import FuseStudy.RetrieveRuns
import FuseStudy.PoolShutdown
import FuseStudy.PoolChannels
import FuseStudy.FsBuffers
import FuseStudy.ShellWords
import FuseStudy.MountCommand
import FuseStudy.SignalHandlers
import FuseStudy.ConfFile
import FuseStudy.SetuidMount
import FuseStudy.TaskGroups
