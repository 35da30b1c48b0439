import Mathlib.Logic.Function.Basic
import Evel.Model.UdpConnectionDTLS

namespace Evel
open General

namespace Dtls

/-- The answers to the constructor. `doneDecWaitOut` is what the field holds where the constructor
leaves it unset. -/
structure NewAnswer where
  server : Bool
  sslNew : Bool
  inpBio : Bool
  outBio : Bool
  handshake : List HandshakeAnswer
  doneDecWaitOut : Bool
deriving DecidableEq, Repr

/-- A connection, what `SSL_is_init_finished` says of it, and `done_dec_wait_out`. -/
structure Session (Addr : Type u) where
  dtls : UdpConnectionDTLS Addr
  initFinished : Bool
  doneDecWaitOut : Bool
deriving DecidableEq, Repr

end Dtls

namespace Factory
open Dtls

inductive Conn (Addr : Type u)
  | plain (nextDel : Bool)
  | dtls (c : Session Addr)
deriving DecidableEq, Repr

namespace Conn
variable {Addr : Type u}

def nextDel : Conn Addr → Bool
  | .plain nextDel => nextDel
  | .dtls c => c.dtls.nextDel

/-- The handshake has not finished. -/
def handshaking : Conn Addr → Bool
  | .plain _ => false
  | .dtls c => !c.initFinished

/-- The destructor calls `dec_nb_live_conn`. -/
def owes : Conn Addr → Bool
  | .plain _ => false
  | .dtls c => !c.doneDecWaitOut

end Conn

/-- The connection that `factory` makes. -/
inductive NewConn
  | plain
  | dtls (n : NewAnswer)
deriving DecidableEq, Repr

/-- What user code may call, on the factory and on its connections. `finishes` tells whether an
`SSL_write` of `send` finishes the handshake. -/
inductive Call (Addr : Type u)
  | connection (dst : Addr) (n : NewConn)
  | sendRaw (conn : Addr) (data : Buffer) (allowTransferOwnership : Bool)
      (script : List SysAnswer)
  | send (conn : Addr) (data : Buffer) (allowTransferOwnership : Bool)
      (script : List WriteAnswer) (finishes : Bool)
  | closeConn (conn : Addr)
  | delConn (conn : Addr)
  | close
deriving DecidableEq, Repr

/-- An `SSL_read` of `_parse`, what the user's `parse` calls, and the answers to the
`flush_out_bio` that may follow. -/
structure ReadAnswer (Addr : Type u) where
  err : SslError
  parse : List (Call Addr)
  flush : List BioAnswer
deriving DecidableEq, Repr

/-- The answers to `_parse`: for a plain connection, what `parse` calls, and for the other ones,
whether `BIO_write` takes less than the datagram, the answers in the handshake, to `flush_sends`
and to `SSL_read`, and what `on_rdy` calls. -/
structure ParseAnswer (Addr : Type u) where
  parse : List (Call Addr)
  short : Bool
  handshake : List HandshakeAnswer
  flushSends : List FlushAnswer
  onRdy : List (Call Addr)
  reads : List (ReadAnswer Addr)
deriving DecidableEq, Repr

/-- The fields that decide when the socket is closed. -/
structure Count where
  nbLiveConn : Int
  wantCloseFact : Bool
deriving DecidableEq, Repr

/-- The socket is to be closed, and no connection is live. -/
def Count.over (c : Count) : Bool := c.wantCloseFact && decide (c.nbLiveConn = 0)

/-- A call that may change the count, and whether it calls `Event::close`. -/
structure Change where
  before : Count
  after : Count
  eventClose : Bool
deriving DecidableEq, Repr

/-- What happens to a factory. `closes` are the connections whose callback calls `close` of the
factory as they are destroyed. SIOCOUTQ is asked at most once in a step, twice in `install`: the
first `Event::close` sets `want_close_fd`. -/
inductive Input (Addr : Type u)
  | call (k : Call Addr) (outq : Option Nat)
  | parse (src : Addr) (n : NewConn) (p : ParseAnswer Addr) (outq : Option Nat)
  | work (closes : Addr → Bool) (outq : Option Nat)
  | install (closes : Addr → Bool) (outq outq' : Option Nat)
  | onOut (script : List SysAnswer)
  /-- `on_rd_hup`, `on_hup`, `sys_error` or `error` -/
  | fail

end Factory

/-- `UdpConnectionFactory`, a socket and the connections that it owns by their addresses. `log`
holds the calls that may change the count. -/
structure UdpConnectionFactory (Addr : Type u) where
  socket : UdpSocket Addr
  connections : List Addr
  conn : Addr → Factory.Conn Addr
  nbLiveConn : Int
  wantCloseFact : Bool
  toDel : List Addr
  log : List Factory.Change

namespace UdpConnectionFactory
open Dtls Factory
variable {Addr : Type u}

def new (fd : Int) (needWait : Bool) : UdpConnectionFactory Addr :=
  { socket := UdpSocket.new fd needWait, connections := [], conn := fun _ => .plain false,
    nbLiveConn := 0, wantCloseFact := false, toDel := [], log := [] }

def count (s : UdpConnectionFactory Addr) : Count := ⟨s.nbLiveConn, s.wantCloseFact⟩

def outAreSent (s : UdpConnectionFactory Addr) : Bool :=
  s.socket.outAreSent && decide (s.nbLiveConn = 0)

def setEvent (e : Event) (s : UdpConnectionFactory Addr) : UdpConnectionFactory Addr :=
  { s with socket := { s.socket with event := e } }

/-- `Event::close` -/
def eventClose (outq : Option Nat) (s : UdpConnectionFactory Addr) : UdpConnectionFactory Addr :=
  s.setEvent (s.socket.event.closeFd true s.outAreSent outq)

/-- The count becomes `c`, and `Event::close` is called if `closes`. -/
def change (c : Count) (closes : Bool) (outq : Option Nat) (s : UdpConnectionFactory Addr) :
    UdpConnectionFactory Addr :=
  let s' := { s with nbLiveConn := c.nbLiveConn, wantCloseFact := c.wantCloseFact,
                     log := s.log ++ [⟨s.count, c, closes⟩] }
  if closes then s'.eventClose outq else s'

def incNbLiveConn (s : UdpConnectionFactory Addr) : UdpConnectionFactory Addr :=
  s.change ⟨s.nbLiveConn + 1, s.wantCloseFact⟩ false none

def decNbLiveConn (outq : Option Nat) (s : UdpConnectionFactory Addr) :
    UdpConnectionFactory Addr :=
  let nbLiveConn := s.nbLiveConn - 1
  s.change ⟨nbLiveConn, s.wantCloseFact⟩ (decide (nbLiveConn = 0) && s.wantCloseFact) outq

def close (outq : Option Nat) (s : UdpConnectionFactory Addr) : UdpConnectionFactory Addr :=
  if s.wantCloseFact then s
  else s.change ⟨s.nbLiveConn, true⟩ (decide (s.nbLiveConn = 0)) outq

section change
variable (c : Count) (closes : Bool) (outq : Option Nat) (s : UdpConnectionFactory Addr)

@[simp] theorem change_connections :
    (s.change c closes outq).connections = s.connections := by
  unfold change
  split <;> rfl

@[simp] theorem change_conn : (s.change c closes outq).conn = s.conn := by
  unfold change
  split <;> rfl

@[simp] theorem change_count : (s.change c closes outq).count = c := by
  unfold change
  split <;> rfl

@[simp] theorem change_log :
    (s.change c closes outq).log = s.log ++ [⟨s.count, c, closes⟩] := by
  unfold change
  split <;> rfl

@[simp] theorem close_connections : (s.close outq).connections = s.connections := by
  unfold close
  split <;> simp

@[simp] theorem close_conn : (s.close outq).conn = s.conn := by
  unfold close
  split <;> simp

theorem close_count : (s.close outq).count = ⟨s.nbLiveConn, true⟩ := by
  unfold close
  split
  · next hw => rw [count, hw]
  · exact change_count _ _ outq s

theorem dec_count : (s.decNbLiveConn outq).count = ⟨s.nbLiveConn - 1, s.wantCloseFact⟩ :=
  change_count _ _ outq s

end change

variable [DecidableEq Addr]

/-- A call has left the connection and the socket like this: if it set `next_del`, by pushing the
connection on `to_del`. -/
def put (a : Addr) (c : Conn Addr) (socket : UdpSocket Addr) (s : UdpConnectionFactory Addr) :
    UdpConnectionFactory Addr :=
  { s with conn := Function.update s.conn a c, socket := socket,
           toDel := if c.nextDel && !s.toDel.contains a then s.toDel ++ [a] else s.toDel }

def insert (dst : Addr) (c : Conn Addr) (socket : UdpSocket Addr) (s : UdpConnectionFactory Addr) :
    UdpConnectionFactory Addr :=
  { s.put dst c socket with connections := dst :: s.connections }

def endpoint (c : Session Addr) (s : UdpConnectionFactory Addr) : Endpoint Addr :=
  ⟨c.dtls, s.socket, []⟩

def putEndpoint (a : Addr) (c : Session Addr) (s : UdpConnectionFactory Addr)
    (e : Endpoint Addr) : UdpConnectionFactory Addr :=
  s.put a (.dtls { c with dtls := e.conn }) e.ucf

/-- The constructor of the connection that `factory` makes. Where it returns early, the new
connection is not counted. -/
def construct (dst : Addr) (s : UdpConnectionFactory Addr) :
    NewConn → Exec (UdpConnectionFactory Addr)
  | .plain => .ret (s.insert dst (.plain false) s.socket)
  | .dtls n =>
    if n.sslNew && n.inpBio && n.outBio then
      let c := UdpConnectionDTLS.new dst true
      if n.server then .ret (s.incNbLiveConn.insert dst (.dtls ⟨c, false, false⟩) s.socket)
      else
        (Endpoint.handshake n.handshake false ⟨c, s.socket, []⟩).thenWith
          (fun h => { s with socket := h.endpoint.ucf }) fun h =>
            let ucf := h.endpoint.ucf
            if h.err.fatal then
              .ret (s.insert dst (.dtls ⟨h.endpoint.conn, h.initFinished, n.doneDecWaitOut⟩) ucf)
            else
              .ret (s.incNbLiveConn.insert dst (.dtls ⟨h.endpoint.conn, h.initFinished, false⟩) ucf)
    else .ret (s.insert dst (.dtls ⟨.new dst false, false, n.doneDecWaitOut⟩) s.socket)

def connection (dst : Addr) (n : NewConn) (s : UdpConnectionFactory Addr) :
    Exec (UdpConnectionFactory Addr) :=
  if dst ∈ s.connections then .ret s else s.construct dst n

/-- `UdpConnection::del` -/
def delConn (a : Addr) (s : UdpConnectionFactory Addr) : UdpConnectionFactory Addr :=
  match s.conn a with
  | .plain _ =>
    let e := s.socket.event
    let e := if e.evLoop then { e with nextWork := true } else { e with workOnInstall := true }
    s.put a (.plain true) { s.socket with event := e }
  | .dtls c => s.putEndpoint a c (s.endpoint c).del

/-- `close` of a connection. Nothing is promised where there is no SSL object to ask. -/
def closeConn (a : Addr) (s : UdpConnectionFactory Addr) : Exec (UdpConnectionFactory Addr) :=
  match s.conn a with
  | .plain _ => .ret (s.delConn a)
  | .dtls c =>
    if c.dtls.ssl then
      if c.initFinished && c.dtls.waitingSends.isEmpty then .ret (s.delConn a)
      else .ret (s.put a (.dtls { c with dtls := { c.dtls with wantClose := true } }) s.socket)
    else .undef s

def sendRaw (a : Addr) (data : Buffer) (allowTransferOwnership : Bool) (script : List SysAnswer)
    (s : UdpConnectionFactory Addr) : Exec (UdpConnectionFactory Addr) :=
  (s.socket.sendRaw a data allowTransferOwnership script).map (fun r => { s with socket := r.1 })

/-- `send` of a DTLS connection. The handshake finishes only in an `SSL_write`. -/
def send (a : Addr) (c : Session Addr) (data : Buffer) (allowTransferOwnership : Bool)
    (script : List WriteAnswer) (finishes : Bool) (s : UdpConnectionFactory Addr) :
    Exec (UdpConnectionFactory Addr) :=
  let writes := !(c.dtls.wantClose || c.dtls.nextDel || !c.dtls.ssl)
  let c' := { c with initFinished := c.initFinished || writes && finishes }
  ((s.endpoint c).send data allowTransferOwnership script).map (fun r => s.putEndpoint a c' r.1)

/-- Only existing connections are called. -/
def call (outq : Option Nat) (s : UdpConnectionFactory Addr) :
    Call Addr → Exec (UdpConnectionFactory Addr)
  | .connection dst n => s.connection dst n
  | .sendRaw a data allow script =>
    if a ∈ s.connections then s.sendRaw a data allow script else .ret s
  | .send a data allow script finishes =>
    match s.conn a with
    | .plain _ => .ret s
    | .dtls c => if a ∈ s.connections then s.send a c data allow script finishes else .ret s
  | .closeConn a => if a ∈ s.connections then s.closeConn a else .ret s
  | .delConn a => if a ∈ s.connections then .ret (s.delConn a) else .ret s
  | .close => .ret (s.close outq)

/-- A callback of the user. -/
def calls (outq : Option Nat) : List (Call Addr) → UdpConnectionFactory Addr →
    Exec (UdpConnectionFactory Addr)
  | [], s => .ret s
  | k :: ks, s => (s.call outq k).andThen (calls outq ks)

/-- The end of the handshake in `_parse`, after `on_rdy`. -/
def ready (a : Addr) (outq : Option Nat) (s : UdpConnectionFactory Addr) :
    UdpConnectionFactory Addr :=
  match s.conn a with
  | .plain _ => s
  | .dtls c =>
    let s := s.put a (.dtls { c with doneDecWaitOut := true }) s.socket
    let s := if c.dtls.wantClose then s.delConn a else s
    s.decNbLiveConn outq

/-- `f` on the connection at `a`. -/
def within (a : Addr) (f : Endpoint Addr → Exec (Endpoint Addr)) (s : UdpConnectionFactory Addr) :
    Exec (UdpConnectionFactory Addr) :=
  match s.conn a with
  | .plain _ => .ret s
  | .dtls c => (f (s.endpoint c)).map (s.putEndpoint a c)

/-- The handshake in `_parse`. -/
def shake (a : Addr) (c : Session Addr) (p : ParseAnswer Addr) (outq : Option Nat)
    (s : UdpConnectionFactory Addr) : Exec (UdpConnectionFactory Addr) :=
  let shaken (h : Shake Addr) :=
    s.putEndpoint a { c with initFinished := h.initFinished } h.endpoint
  (Endpoint.handshake p.handshake false (s.endpoint c)).thenWith shaken fun h =>
    if h.err = .none ∧ h.initFinished = true then
      ((shaken h).within a (Endpoint.flushSends p.flushSends)).andThen fun s =>
        (s.calls outq p.onRdy).andThen fun s => .ret (s.ready a outq)
    else .ret (shaken h)

/-- `next_del` is set, or the connection is to be closed and its handshake has finished. -/
def leaves (a : Addr) (s : UdpConnectionFactory Addr) : Bool :=
  match s.conn a with
  | .plain _ => true
  | .dtls c => c.dtls.nextDel || c.dtls.wantClose && c.initFinished

/-- The loop around `SSL_read` in `_parse`. -/
def readLoop (a : Addr) (outq : Option Nat) : List (ReadAnswer Addr) → UdpConnectionFactory Addr →
    Exec (UdpConnectionFactory Addr)
  | [], s => .hang s
  | r :: rs, s =>
    match r.err with
    | .none =>
      (s.calls outq r.parse).andThen fun s =>
        (s.within a (Endpoint.flushOutBio r.flush)).andThen fun s =>
          if s.leaves a then .ret s else readLoop a outq rs s
    | .wantRead => s.within a (Endpoint.flushOutBio r.flush)
    | .wantWrite => (s.within a (Endpoint.flushOutBio r.flush)).andThen (readLoop a outq rs)
    | .syscall .intr => readLoop a outq rs s
    | _ => .ret (s.delConn a)

/-- `_parse`. A short `BIO_write` is reported through `ev_loop`. -/
def parseConn (a : Addr) (p : ParseAnswer Addr) (outq : Option Nat)
    (s : UdpConnectionFactory Addr) : Exec (UdpConnectionFactory Addr) :=
  match s.conn a with
  | .plain _ => s.calls outq p.parse
  | .dtls c =>
    if c.dtls.ssl then
      if p.short && !s.socket.event.evLoop then .undef s
      else if c.initFinished then s.readLoop a outq p.reads
      else s.shake a c p outq
    else .ret s

def parse (src : Addr) (n : NewConn) (p : ParseAnswer Addr) (outq : Option Nat)
    (s : UdpConnectionFactory Addr) : Exec (UdpConnectionFactory Addr) :=
  if s.socket.event.nextDel then .ret s
  else (s.connection src n).andThen (parseConn src p outq)

/-- The connection leaves the map, and its callback, `f_on_close` or `f_on_del`, is called. -/
def fOnClose (closes : Addr → Bool) (outq : Option Nat) (s : UdpConnectionFactory Addr)
    (a : Addr) : UdpConnectionFactory Addr :=
  let s' := { s with connections := s.connections.erase a }
  if closes a then s'.close outq else s'

@[simp] theorem fOnClose_connections (closes : Addr → Bool) (outq : Option Nat)
    (s : UdpConnectionFactory Addr) (a : Addr) :
    (s.fOnClose closes outq a).connections = s.connections.erase a := by
  unfold fOnClose
  dsimp only
  split
  · rw [close_connections]
  · rfl

@[simp] theorem fOnClose_conn (closes : Addr → Bool) (outq : Option Nat)
    (s : UdpConnectionFactory Addr) (a : Addr) : (s.fOnClose closes outq a).conn = s.conn := by
  unfold fOnClose
  dsimp only
  split
  · rw [close_conn]
  · rfl

theorem fOnClose_count (closes : Addr → Bool) (outq : Option Nat) (s : UdpConnectionFactory Addr)
    (a : Addr) :
    (s.fOnClose closes outq a).count = ⟨s.nbLiveConn, s.wantCloseFact || closes a⟩ := by
  unfold fOnClose
  dsimp only
  split
  · next hc => rw [close_count, hc, Bool.or_true]
  · next hc => simp [count, hc]

/-- The destructor of a connection, with the callback of the user before that of
`UdpConnectionDTLS`. -/
def endConn (closes : Addr → Bool) (outq : Option Nat) (s : UdpConnectionFactory Addr) (a : Addr) :
    UdpConnectionFactory Addr :=
  let s' := s.fOnClose closes outq a
  if (s.conn a).owes then s'.decNbLiveConn outq else s'

/-- The loop over `to_del` in `work`. A connection that is in the list after its end is read when
it is popped. -/
def workLoop (closes : Addr → Bool) (outq : Option Nat) : List Addr → UdpConnectionFactory Addr →
    Exec (UdpConnectionFactory Addr)
  | [], s => .ret s
  | a :: rest, s =>
    -- `map_iter` finds the connection
    if a ∈ s.connections then
      workLoop closes outq rest ({ s with toDel := rest }.endConn closes outq a)
    else .undef s

def work (closes : Addr → Bool) (outq : Option Nat) (s : UdpConnectionFactory Addr) :
    Exec (UdpConnectionFactory Addr) :=
  s.workLoop closes outq s.toDel

/-- The factory is added to a loop. -/
def install (closes : Addr → Bool) (outq outq' : Option Nat) (s : UdpConnectionFactory Addr) :
    Exec (UdpConnectionFactory Addr) :=
  let e := s.socket.event
  if e.evLoop then .ret s
  else
    let s := s.setEvent { e with evLoop := true }
    (if e.workOnInstall then s.work closes outq else .ret s).andThen fun s =>
      .ret (if e.delOnInstall then s.setEvent (s.socket.event.del true outq') else s)

/-- The loop calls `work` when it has popped the factory from its list. -/
def apply (s : UdpConnectionFactory Addr) : Input Addr → Exec (UdpConnectionFactory Addr)
  | .call k outq => s.call outq k
  | .parse src n p outq => s.parse src n p outq
  | .work closes outq =>
    let e := s.socket.event
    if e.nextWork then (s.setEvent { e with nextWork := false }).work closes outq else .ret s
  | .install closes outq outq' => s.install closes outq outq'
  | .onOut script => (s.socket.onOut script).map (fun socket => { s with socket := socket })
  | .fail => .ret (s.setEvent s.socket.event.fail)

/-- Nothing follows a step that does not return. -/
def step (e : Exec (UdpConnectionFactory Addr)) (i : Input Addr) :
    Exec (UdpConnectionFactory Addr) :=
  e.andThen (fun s => s.apply i)

/-- The destructor of a factory that the loop deletes: the callback of the user, which calls
`close` if `onClose`, and then the end of every connection. The timer that it closes is another
event. -/
def destroy (onClose : Bool) (closes : Addr → Bool) (outq : Option Nat)
    (s : UdpConnectionFactory Addr) : UdpConnectionFactory Addr :=
  let s := if onClose then s.close outq else s
  s.connections.foldl (endConn closes outq) s

end UdpConnectionFactory

end Evel
