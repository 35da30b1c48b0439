import Evel.Proofs.WheelDeadlines
import Evel.Proofs.TcpStream
import Evel.Proofs.TcpLink
import Evel.Proofs.UdpQueue
import Evel.Proofs.UdpNet
import Evel.Proofs.Ownership
import Evel.Proofs.TlsGate
import Evel.Proofs.TlsPending
import Evel.Proofs.TlsOrder
import Evel.Proofs.TlsShutdown
import Evel.Proofs.Dying
import Evel.Proofs.LoopBatch
import Evel.Proofs.LoopSleep
import Evel.Proofs.LoopProgress
import Evel.Proofs.MainLoop
import Evel.Proofs.LoopExits
import Evel.Proofs.ResolverLoop
import Evel.Proofs.FactoryTimers
import Evel.Proofs.Registry
import Evel.Proofs.SocketInput
import Evel.Proofs.Setup
import Evel.Proofs.SocketClose
import Evel.Proofs.SocketLoop
import Evel.Proofs.FactoryCount
import Evel.Proofs.FactoryDestroy
import Evel.Proofs.DnsAnswer
import Evel.Proofs.DnsCallbacks
import Evel.Proofs.DnsFrame
import Evel.Proofs.DnsNames
import Evel.Proofs.OnInp
import Evel.Proofs.RecvRoom
import Evel.Proofs.TcpDrain
import Evel.Proofs.TcpEdges
import Evel.Proofs.WheelProjection
import Evel.Proofs.WheelFlat
import Evel.Proofs.WheelTranslation
import Evel.Proofs.WheelShort
import Evel.Proofs.WheelComes
import Evel.Proofs.WheelRemoval
import Evel.Proofs.DnsQname
import Evel.Proofs.DnsOwner
import Evel.Proofs.DnsNet
import Evel.Proofs.TimedDns
import Evel.Proofs.TimedLoop
import Evel.Proofs.TimedFactory
import Evel.Proofs.StaleErrno
import Evel.Proofs.WaitOut
import Evel.Proofs.DtlsExchange
import Evel.Proofs.RcPtr
import Evel.Proofs.WheelLinks
import Evel.Proofs.OutBio
import Evel.Proofs.ConnFactory
