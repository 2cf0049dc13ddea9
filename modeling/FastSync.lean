import FastSync.DeltaTransfer
import FastSync.FileListModes
import FastSync.GlobstarLaw
import FastSync.FilterOwners
import FastSync.ConfigRoundtrip
import FastSync.DeleteEngineSpec
import FastSync.ProtectedSubtrees
import FastSync.DeleteRequests
import FastSync.ExistencePolicy
import FastSync.DryRun
import FastSync.ChunkAcceptance
import FastSync.StoreBytes
import FastSync.StoreLinks
import FastSync.DaemonLockout
import FastSync.MemoryBudget
import FastSync.SenderQueue
import FastSync.ReceiverDelivery
import FastSync.ReceiveLoopLaws
import FastSync.KeepaliveExchange
import FastSync.IdlePeer
import FastSync.StatsFrame
import FastSync.ChmodSpec
import FastSync.RemoteCommand
import FastSync.Xattrs
