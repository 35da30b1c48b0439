import Mathlib.Logic.Function.Basic
import Evel.Model.TcpConnection
import Evel.Model.UdpConnectionDTLS

namespace Evel
open General

/-- Any number of TCP connections, and of DTLS connections on the socket of one factory. -/
structure Senders (Addr : Type u) where
  tcp : Nat → TcpConnection
  dtls : Nat → UdpConnectionDTLS Addr
  ucf : UdpSocket Addr
  handovers : List Handover

namespace Senders
variable {Addr : Type u}

/-- Clients on the descriptor `fd`, and DTLS connections of one factory. -/
def new (fd : Int) (addr : Nat → Addr) : Senders Addr :=
  { tcp := fun _ => TcpConnection.new fd true, dtls := fun i => UdpConnectionDTLS.new (addr i) true,
    ucf := UdpSocket.new fd true, handovers := [] }

/-- The sends that may take ownership, and what else empties or fills the queues. -/
inductive Call (Addr : Type u)
  | tcpSend (i : Nat) (data : Buffer) (rese : Nat) (script : List SysAnswer)
  | tcpOut (i : Nat) (script : List SysAnswer)
  | udpSend (dst : Addr) (data : Buffer) (script : List SysAnswer)
  | udpOut (script : List SysAnswer)
  | dtlsSend (i : Nat) (data : Buffer) (script : List Dtls.WriteAnswer)
  | dtlsFlush (i : Nat) (script : List Dtls.BioAnswer)

def endpoint (i : Nat) (s : Senders Addr) : Endpoint Addr := ⟨s.dtls i, s.ucf, s.handovers⟩

def putEndpoint (i : Nat) (e : Endpoint Addr) (s : Senders Addr) : Senders Addr :=
  { s with dtls := Function.update s.dtls i e.conn, ucf := e.ucf, handovers := e.handovers }

def putTcp (i : Nat) (c : TcpConnection) (s : Senders Addr) : Senders Addr :=
  { s with tcp := Function.update s.tcp i c }

def record (h : Handover) (s : Senders Addr) : Senders Addr :=
  { s with handovers := s.handovers ++ [h] }

/-- A send is recorded when it returns. -/
def call (s : Senders Addr) : Call Addr → Exec (Senders Addr)
  | .tcpSend i data rese script =>
    ((s.tcp i).send data rese true script).bimap
      (fun (c, left) => (s.putTcp i c).record ⟨data.ptr, left,
        (c.waitingSends.map Tcp.SendItem.allo).count data.ptr, (s.tcp i).queues data⟩)
      (fun (c, _) => s.putTcp i c)
  | .tcpOut i script => ((s.tcp i).onOut script).map (fun c => s.putTcp i c)
  | .udpSend dst data script =>
    (s.ucf.sendRaw dst data true script).bimap
      (fun (ucf, left) => { s with ucf := ucf }.record ⟨data.ptr, left,
        (ucf.waitingSends.map Udp.SendItem.data).count data.ptr, s.ucf.queues data script⟩)
      (fun (ucf, _) => { s with ucf := ucf })
  | .udpOut script => (s.ucf.onOut script).map (fun ucf => { s with ucf := ucf })
  | .dtlsSend i data script =>
    ((s.endpoint i).send data true script).bimap
      (fun (e, left) => (s.putEndpoint i e).record ⟨data.ptr, left,
        (e.conn.waitingSends.map Dtls.Send.data).count data.ptr,
        Endpoint.queues data script (s.dtls i)⟩)
      (fun (e, _) => s.putEndpoint i e)
  | .dtlsFlush i script =>
    ((s.endpoint i).flushOutBio script).map (fun e => s.putEndpoint i e)

/-- Nothing follows a call that does not return. -/
def step (e : Exec (Senders Addr)) (k : Call Addr) : Exec (Senders Addr) :=
  e.andThen (fun s => s.call k)

end Senders

end Evel
