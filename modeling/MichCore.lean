import MichCore.CommitRuns
import MichCore.CacheTransparency
import MichCore.RequestIdentity
import MichCore.TcpStream
import MichCore.TcpRetention
import MichCore.TcpClose
import MichCore.TcpTimers
import MichCore.TcpBlind
import MichCore.DnsRoundTrip
import MichCore.NetParsers
import MichCore.EventWaits
import MichCore.HandleIntegrity
import MichCore.PageAccounting
import MichCore.IpcDeadlock
import MichCore.Pipes
import MichCore.Unveil
import MichCore.PosixTime
import MichCore.Pmtu
import MichCore.DnsLifetime
import MichCore.TcpSilence
import MichCore.TcpDivision
import MichCore.IrqResource
import MichCore.RtcCalendar
