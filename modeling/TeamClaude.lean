import TeamClaude.Machine
import TeamClaude.Lib.FirstLeast
import TeamClaude.Lib.Exec
import TeamClaude.Lib.Rotation
import TeamClaude.Lib.Escrow
import TeamClaude.Provider
import TeamClaude.Quota
import TeamClaude.Config
import TeamClaude.Lib.Retain
import TeamClaude.Manager.CappedMap
import TeamClaude.Manager.CappedRuns
import TeamClaude.Lib.Recency
import TeamClaude.Manager.CappedSet
import TeamClaude.Manager.State
import TeamClaude.Manager.Gates
import TeamClaude.Manager.Pick
import TeamClaude.Manager.Select
import TeamClaude.Manager.Frame
import TeamClaude.Manager.Doors
import TeamClaude.Manager.Calls
import TeamClaude.Manager.Pins
import TeamClaude.Manager.Pacing
import TeamClaude.Lib.Gcra
import TeamClaude.Manager.Throttle
import TeamClaude.Manager.Threshold
import TeamClaude.Manager.Ticks
import TeamClaude.Manager.Fairness
import TeamClaude.Manager.Control
import TeamClaude.Peer.Schedule
import TeamClaude.Peer.Lend
import TeamClaude.Peer.Ledger
import TeamClaude.Peer.Overdraft
import TeamClaude.Peer.Headroom
import TeamClaude.Lib.Json
import TeamClaude.Lib.Distinct
import TeamClaude.Proxy.ToolUse
import TeamClaude.Proxy.Buffered
import TeamClaude.Proxy.Sse
import TeamClaude.Proxy.Streaming
import TeamClaude.Proxy.Agreement
import TeamClaude.Lib.FirstMatch
import TeamClaude.Peer.State
import TeamClaude.Peer.Bans
import TeamClaude.Peer.Knocks
import TeamClaude.Peer.KnockTokens
import TeamClaude.Peer.FileLock
import TeamClaude.Lib.KeyedSum
import TeamClaude.Peer.Tunnel
import TeamClaude.Peer.RollingCap
import TeamClaude.Peer.HandMode
import TeamClaude.Lib.EntrySum
import TeamClaude.Peer.PairCache
import TeamClaude.Peer.Replay
import TeamClaude.Lib.UrlPath
import TeamClaude.Proxy.Paths
import TeamClaude.Peer.RelayPath
import TeamClaude.Lib.Url
import TeamClaude.Proxy.WirePath
import TeamClaude.Peer.Borrow
import TeamClaude.Peer.BorrowOnce
import TeamClaude.Lib.Admit
import TeamClaude.Manager.Identity
import TeamClaude.Manager.Roster
import TeamClaude.Lib.Aligned
import TeamClaude.Manager.Mirror
import TeamClaude.Manager.Refresh
import TeamClaude.Manager.RefreshRace
import TeamClaude.Quota.Fold
import TeamClaude.Quota.Windows
import TeamClaude.Quota.CodexProbe
import TeamClaude.Quota.Readings
import TeamClaude.Quota.Record
import TeamClaude.Quota.Rejections
import TeamClaude.Quota.Unread
import TeamClaude.Quota.CodexRefusal
import TeamClaude.Manager.RowGate
import TeamClaude.Manager.Hint
import TeamClaude.Lib.TailArchive
import TeamClaude.Usage.Ledger
import TeamClaude.Config.PlanMerge
import TeamClaude.Config.MergePairs
import TeamClaude.Config.AccountEntry
import TeamClaude.Lib.StaleStore
import TeamClaude.Config.Writers
import TeamClaude.Config.EntryKey
import TeamClaude.Lib.Keyed
import TeamClaude.Config.KeyedFile
import TeamClaude.Config.Snapshots
import TeamClaude.Lib.JsonRead
import TeamClaude.Config.SavedLogin
import TeamClaude.Lib.JsonEdit
import TeamClaude.Config.TargetedWrites
import TeamClaude.Config.WriteLanes
import TeamClaude.Manager.RefreshOnce
import TeamClaude.Manager.ForcedRefresh
import TeamClaude.Manager.RefreshHerd
import TeamClaude.Lib.SharedProg
import TeamClaude.Manager.AuthFile
import TeamClaude.Manager.CodexSync
import TeamClaude.Manager.CodexSyncEnds
import TeamClaude.Manager.OwedLogin
import TeamClaude.Lib.Meter
import TeamClaude.Manager.KeepWarm
import TeamClaude.Proxy.Ladder
import TeamClaude.Proxy.Rotation
import TeamClaude.Proxy.Moves
import TeamClaude.Proxy.Benched
import TeamClaude.Proxy.Narrowed
import TeamClaude.Proxy.Carry
import TeamClaude.Manager.Refused
import TeamClaude.Manager.Episode
import TeamClaude.Lib.Newest
import TeamClaude.Lib.AgedMap
import TeamClaude.Tokens.Store
import TeamClaude.Tokens.Halves
import TeamClaude.Tokens.Rebind
import TeamClaude.Lib.Fallible
import TeamClaude.Manager.PinFile
import TeamClaude.Manager.WarmMark
import TeamClaude.Lib.KeepNewest
import TeamClaude.Lib.FirstSeen
import TeamClaude.Tokens.Snapshot
import TeamClaude.Tokens.Restore
import TeamClaude.Proxy.Assembly
import TeamClaude.Lib.JsonText.Parse
import TeamClaude.Lib.JsonText.Splice
import TeamClaude.Lib.JsonText.Strings
import TeamClaude.Lib.JsonText.Tree
import TeamClaude.Lib.JsonText.Members
import TeamClaude.Body.CacheTtl
import TeamClaude.Lib.JsonText.Edit
import TeamClaude.Body.TtlEdit
import TeamClaude.Body.ExtendAll
import TeamClaude.Body.AccountUuid
import TeamClaude.Body.RequestBody
import TeamClaude.Body.AccountPatch
import TeamClaude.Peer.LeaseEnd
import TeamClaude.Peer.LendingHours
import TeamClaude.Peer.HandedMeter
import TeamClaude.Peer.OpenCarries
import TeamClaude.Lib.Octets
import TeamClaude.Lib.Tlv
import TeamClaude.Lib.Framing
import TeamClaude.Peer.Frames
import TeamClaude.Peer.ClientHello
import TeamClaude.Lib.BaseCode
import TeamClaude.Lib.Numeral
import TeamClaude.Lib.SocketText
import TeamClaude.Lib.Slices
import TeamClaude.Peer.DialAddrs
import TeamClaude.Peer.Endpoints
import TeamClaude.Peer.FoundList
import TeamClaude.Peer.Key32
import TeamClaude.Peer.JoinToken
import TeamClaude.Lib.SealedBox
import TeamClaude.Peer.Ask
import TeamClaude.Lib.Aead
import TeamClaude.Peer.SealedRecords
import TeamClaude.Peer.SealedOpening
import TeamClaude.Mitm.MintedChain
import TeamClaude.Base64
import TeamClaude.Log.Flusher
import TeamClaude.Lib.Trailing
import TeamClaude.Quota.FleetSchedule
import TeamClaude.Lib.OrdTally
import TeamClaude.Usage.Tracker
import TeamClaude.Usage.Windows
import TeamClaude.Usage.Resolve
import TeamClaude.Session.ToolStats
import TeamClaude.Session.WireSessions
import TeamClaude.Config.MintName
import TeamClaude.Lib.Freshen
import TeamClaude.Config.Load
import TeamClaude.Config.RenamePlan
import TeamClaude.Config.LoadedEntry
import TeamClaude.Config.RenamedFile
import TeamClaude.Config.DuplicateNames
import TeamClaude.Manager.SavedFile
import TeamClaude.Usage.Writer
import TeamClaude.Peer.Invites
import TeamClaude.Peer.DialOrder
import TeamClaude.Peer.DialRace
import TeamClaude.Peer.Dial
import TeamClaude.Peer.ReverseDesk
import TeamClaude.Peer.PathTraffic
import TeamClaude.Proxy.Headers
import TeamClaude.Proxy.FrontDoor
import TeamClaude.Proxy.Listener
import TeamClaude.Proxy.IdentityCache
import TeamClaude.Lib.PaddedOrder
import TeamClaude.Update
import TeamClaude.Lib.Guards
import TeamClaude.Peer.Connections
import TeamClaude.Peer.ConnectionSlots
import TeamClaude.Peer.ConnectionGrants
