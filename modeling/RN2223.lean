import RN2223.Lib.CMemory
import RN2223.Lib.ByteOrder
import RN2223.Lib.CyclicOrder
import RN2223.Lib.Prog
import RN2223.Lib.CNumber
import RN2223.Praxis2.Packet
import RN2223.Praxis2.PacketCodec
import RN2223.Praxis2.RingBuffer
import RN2223.Praxis2.HashTable
import RN2223.Praxis2.Neighbour
import RN2223.Praxis2.Peer
import RN2223.Praxis2.Ring
import RN2223.Praxis2.OwnRequest
import RN2223.Praxis2.ReliableNet
import RN2223.Praxis2.OpenRequests
import RN2223.Lib.Processes
import RN2223.Praxis2.Stores
import RN2223.Praxis2.Lookup
import RN2223.Praxis2.Framing
import RN2223.Praxis2.Kernel
import RN2223.Praxis2.ClientSockets
import RN2223.Lib.Linear
import RN2223.Lib.WaitGraph
import RN2223.Lib.Draining
import RN2223.Praxis2.RingSystem
import RN2223.Praxis2.RingHandlers
import RN2223.Praxis2.RequestPaths
import RN2223.Praxis2.RingClients
import RN2223.Praxis2.RingInvariant
import RN2223.Praxis2.RingPeers
import RN2223.Praxis2.RingRun
import RN2223.Praxis2.RingWaits
import RN2223.Praxis2.RingEnabled
import RN2223.Praxis2.RingLive
import RN2223.Praxis2.RingSettles
import RN2223.Praxis2.RingProgress
import RN2223.Praxis2.RingWork
import RN2223.Praxis2.RingRest
import RN2223.Praxis2.RingDeadlock
import RN2223.Praxis2.RingBytes
import RN2223.Praxis2.RingRefines
import RN2223.Praxis2.ByteRest
import RN2223.Praxis2.PeerMain
import RN2223.Praxis2.MethodFrame
import RN2223.Praxis2.BodyLength
import RN2223.Praxis2.RecvLoop
import RN2223.Lib.Machine
import RN2223.Praxis1.Webserver
import RN2223.Praxis1.RequestScan
import RN2223.Praxis2.ServerRun
import RN2223.Praxis2.ServerPass
import RN2223.Praxis2.ClientList
import RN2223.Praxis2.MarkedClients
import RN2223.Praxis2.PollProgress
import RN2223.Lib.Lifetime
import RN2223.Praxis2.ServerLife
import RN2223.Praxis2.ServerStop
import RN2223.Praxis2.FailingNetwork
import RN2223.Praxis2.SocketBalance
import RN2223.Lib.BoundedQueue
import RN2223.Praxis2.RingQueue
import RN2223.Praxis1.SecondaryScan
import RN2223.Praxis2.DhtClient
import RN2223.Praxis2.PeerConnect
import RN2223.Praxis2.ClientConnect
import RN2223.Praxis2.SentRequest
import RN2223.Praxis2.ClientResponse
import RN2223.Praxis2.ClientRing
import RN2223.Praxis2.Transport
import RN2223.Praxis2.Uthash
import RN2223.Praxis2.JenkinsHash
import RN2223.Praxis2.UthashBuckets
import RN2223.Praxis2.UthashExpand
import RN2223.Praxis2.UthashRep
import RN2223.Praxis2.UthashChecks
import RN2223.Praxis2.UthashStores
import RN2223.Praxis2.UthashRequests
