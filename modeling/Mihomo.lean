import Mihomo.Arc.Length
import Mihomo.FakeIP.Memory
import Mihomo.FakeIP.History
import Mihomo.DevCache.Runs
import Mihomo.Config.Returns
import Mihomo.Tunnel.ProcessFilter
import Mihomo.Tunnel.Flatten
import Mihomo.Trie.Lookup
import Mihomo.Trie.Has
import Mihomo.Hysteria.RoundTrip
import Mihomo.Tuic.Rounds
import Mihomo.OpenVPN.Selection
import Mihomo.OpenVPN.Acks
import Mihomo.OpenVPN.Delivery
import Mihomo.Mkcp.Stale
import Mihomo.Mkcp.Window
import Mihomo.Sudoku.Packed
import Mihomo.Sudoku.RecordStream
import Mihomo.Sudoku.MuxClose
import Mihomo.Anytls.SessionClose
import Mihomo.Provider.Parser
import Mihomo.Sniffer.Crypto
import Mihomo.Sniffer.Tls
import Mihomo.Hybrid.Lease
import Mihomo.Dialer.Retained
import Mihomo.Dialer.ProgressiveEnd
import Mihomo.Override.Frame
import Mihomo.Group.Tolerance
import Mihomo.Dns.Lookup
import Mihomo.Dns.Rcode
import Mihomo.Tunnel.UdpOrder
import Mihomo.Outbound.DirectUDPSend
import Mihomo.Outbound.DirectUDPWinner
import Mihomo.OpenVPN.TakeAcks
import Mihomo.OpenVPN.Data
import Mihomo.OpenVPN.WriteGate
import Mihomo.Rules.Payload
import Mihomo.Component.Cidr
import Mihomo.Override.Pipe
import Mihomo.Component.Ranges
import Mihomo.Group.LoadBalance
import Mihomo.Mkcp.Due
