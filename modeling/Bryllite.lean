import Bryllite.Framework.Run
import Bryllite.Framework.Limbs
import Bryllite.Ecc.Vli
import Bryllite.Ecc.Mult
import Bryllite.Ecc.PortableMult
import Bryllite.Ecc.Reduce
import Bryllite.Framework.BinaryEuclid
import Bryllite.NodeServerMono.BlockChain
import Bryllite.NodeServerMono.BcpServer
import Bryllite.NodeServerMono.Calls
import Bryllite.NodeServerMono.Ledger
import Bryllite.NodeServerMono.Tally
import Bryllite.NodeServerMono.Election
import Bryllite.NodeServerMono.Commit
import Bryllite.NodeServerMono.Window
import Bryllite.Framework.Network
import Bryllite.NodeServerMono.NodeServer
import Bryllite.NodeServerMono.Delivery
import Bryllite.NodeServerMono.Boxes
import Bryllite.NodeServerMono.Leak
import Bryllite.NodeServerMono.Chain
import Bryllite.NodeServerMono.Candidate
import Bryllite.Framework.Rounds
import Bryllite.NodeServerMono.Ballot
import Bryllite.NodeServerMono.Abstraction
import Bryllite.NodeServerMono.Agreement
import Bryllite.BcpMono.BlockChain
import Bryllite.BcpMono.Node
import Bryllite.BcpMono.NodeManager
import Bryllite.Framework.Commits
import Bryllite.BcpMono.Agreement
import Bryllite.BcpMono.Trace
import Bryllite.Framework.Senders
import Bryllite.BcpMono.Ballots
import Bryllite.BcpMono.Quorum
import Bryllite.BcpMono.Commit
import Bryllite.BcpMono.Chain
import Bryllite.Bcp.Node
import Bryllite.Bcp.NodeManager
import Bryllite.Bcp.Phases
import Bryllite.Bcp.Cascade
import Bryllite.Bcp.Round
import Bryllite.Framework.Patch
import Bryllite.Framework.SlotRing
import Bryllite.P2p.SessionBuffer
import Bryllite.P2p.Write
import Bryllite.Framework.Framing
import Bryllite.P2p.Message
import Bryllite.P2p.Read
import Bryllite.P2p.Frames
import Bryllite.Framework.Simulation
import Bryllite.P2p.ByteStream
import Bryllite.Base58.Encoding
import Bryllite.Base58.Check
import Bryllite.Framework.FirstWins
import Bryllite.NodeServerMono.Decisions
import Bryllite.NodeServerMono.Restart
import Bryllite.BcpMono.Waiting
import Bryllite.Framework.OncePerWindow
import Bryllite.BcpMono.Announce
import Bryllite.BcpMono.Ledger
import Bryllite.BcpMono.Rebuild
import Bryllite.Bcp.Announcements
import Bryllite.P2p.Dispatch
import Bryllite.P2p.Leftover
import Bryllite.Hash.Hash256
import Bryllite.Hash.Sha256
import Bryllite.Framework.Field
import Bryllite.P2p.Handshake
import Bryllite.P2p.Session
import Bryllite.Udp.Streambuf
import Bryllite.Udp.UdpClient
import Bryllite.Ecc.ModInv
import Bryllite.Ecc.ModMult
import Bryllite.Framework.Lucas
import Bryllite.Ecc.Primes
import Bryllite.Framework.CoZ
import Bryllite.Framework.Ladder
import Bryllite.Ecc.Residue
import Bryllite.Ecc.Point
import Bryllite.Ecc.PointMult
import Bryllite.Bcp.Origin
import Bryllite.Framework.CurveOrder
import Bryllite.Framework.ModCubic
import Bryllite.Ecc.Order
import Bryllite.Ecc.Bytes
import Bryllite.Ecc.Decompress
import Bryllite.Ecc.KeyPair
import Bryllite.Framework.Shamir
import Bryllite.Ecc.Verify
import Bryllite.Framework.Ecdsa
import Bryllite.Ecc.Signature
