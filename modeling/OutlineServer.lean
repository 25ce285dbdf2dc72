import OutlineServer.Lib.Prog
import OutlineServer.Lib.Files
import OutlineServer.Lib.Trans
import OutlineServer.Lib.Procs
import OutlineServer.Lib.Deframe
import OutlineServer.Lib.LeCounter
import OutlineServer.Lib.Block
import OutlineServer.IpLock
import OutlineServer.Lib.Recency
import OutlineServer.RecentIps
import OutlineServer.ActiveIps
import OutlineServer.Accept
import OutlineServer.IpLockSpec
import OutlineServer.LockView
import OutlineServer.LockRuns
import OutlineServer.LockAdmission
import OutlineServer.IpLockAnswers
import OutlineServer.Manager
import OutlineServer.PPBloom
import OutlineServer.Crypto
import OutlineServer.Aead
import OutlineServer.LockCoherence
import OutlineServer.LockShared
import OutlineServer.AeadAuth
import OutlineServer.Datagrams
import OutlineServer.Relay
import OutlineServer.RelayInv
import OutlineServer.RelayRuns
import OutlineServer.Replay
import OutlineServer.ReplayGuards
import OutlineServer.TcpRuns
import OutlineServer.UdpRuns
import OutlineServer.Contacts
import OutlineServer.Outbound
import OutlineServer.StreamRuns
import OutlineServer.Freshness
import OutlineServer.Removal
import OutlineServer.StatusJson
import OutlineServer.KeyShared
import OutlineServer.KeyAtomic
import OutlineServer.KeyDelete
import OutlineServer.KeySave
import OutlineServer.ServerNames
import OutlineServer.ServerAdd
import OutlineServer.ServerKill
import OutlineServer.ServerConfig
import OutlineServer.KeyExchange
import OutlineServer.KeySyncList
import OutlineServer.CacheLru
import OutlineServer.HostNameScan
import OutlineServer.RequestSpec
import OutlineServer.Segmentation
import OutlineServer.PortPassword
import OutlineServer.Itoa
import OutlineServer.ParseAddr
import OutlineServer.OutboundFile
import OutlineServer.PortProbe
import OutlineServer.ListReply
import OutlineServer.ResolvCalls
import OutlineServer.CommandFields
import OutlineServer.ContextCount
import OutlineServer.ResolvSocks
import OutlineServer.PingReport
import OutlineServer.CryptoBounds
import OutlineServer.Decodes
import OutlineServer.Base64
import OutlineServer.Nftables
import OutlineServer.UdpLengths
import OutlineServer.UdpFamilies
import OutlineServer.TwoWay
import OutlineServer.IpSetIterate
