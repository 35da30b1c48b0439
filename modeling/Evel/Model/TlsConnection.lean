import Evel.Model.Ssl
import Evel.Model.TcpConnection

namespace Evel
open General

namespace Tls

inductive ToRedo
  | nothing
  | handshake
  | read
  | write
  | shutdown
deriving DecidableEq, Repr

inductive CommMode
  | server
  | client
deriving DecidableEq, Repr

inductive Direction
  | inp
  | out
deriving DecidableEq, Repr

/-- What a connection has done so far. -/
inductive Entry
  /-- `SSL_read` succeeded. -/
  | read
  /-- `check_X509` returned. -/
  | checked (ok : Bool)
  | parsed (bytes : List Byte)
  /-- `SSL_write` succeeded. -/
  | wrote (bytes : List Byte)
  /-- `close` or `close_fd` was called. -/
  | closing
  /-- `SSL_read` wants to read or write, on an open connection or not, over waiting messages
  or not. -/
  | readWants (active pending : Bool)
  /-- A message is put in the queue of a connection, over the operation to redo. -/
  | queued (connected : Bool) (toRedo : ToRedo)
  /-- `SSL_write` was given a message, and answered. -/
  | presented (bytes : List Byte) (err : SslError)
  /-- `send` was called with a message that it is not to refuse, and is through with it. -/
  | accepted (bytes : List Byte)
  /-- `SSL_read` wants to read or write, on an active connection that owes a shutdown or not. -/
  | readOwes (owes : Bool)
  /-- The user has written to a buffer of his, and changed a message that waits there or not. -/
  | filled (spoils : Bool)
deriving DecidableEq, Repr

/-- What the user may do with a connection, also inside `parse`. -/
inductive Action
  | send (data : Buffer) (rese : Nat) (allowTransferOwnership : Bool) (script : List SslError)
  | close (script : List (SslError × Option Nat))
  | closeFd (outq : Option Nat)
  | del (outq : Option Nat)
  | allowSelfSigned (allow : Bool)
  /-- Bytes are written to the start of a buffer that `*data` points to. -/
  | fill (ptr : Ptr) (bytes : List Byte)
deriving DecidableEq, Repr

/-- What OpenSSL answers to a handshake, a read, a write or a shutdown. The other fields are for
what a success leads to: the bytes read, the peer's certificate with the result of its
verification, the actions inside `parse` and the answer to SIOCOUTQ. -/
structure Answer where
  err : SslError
  bytes : List Byte := []
  cert : Bool := true
  verify : Nat := 0
  parse : List Action := []
  outq : Option Nat := none
deriving DecidableEq, Repr

/-- `X509_V_ERR_DEPTH_ZERO_SELF_SIGNED_CERT` -/
def selfSignedCert : Nat := 18

end Tls

/-- What a message is after a write to the start of a buffer. -/
def Tcp.SendItem.fill (ptr : Ptr) (bytes : List Byte) (si : Tcp.SendItem) : Tcp.SendItem :=
  if si.shared && si.allo = ptr then
    { si with data := bytes.take si.data.length ++ si.data.drop bytes.length }
  else si

/-- `TlsConnection`, with the trace of what it has done. -/
structure TlsConnection extends TcpConnection where
  commMode : Tls.CommMode
  toRedo : Tls.ToRedo
  redoDir : Tls.Direction
  handshakeDone : Bool
  wantAShutdown : Bool
  startedAShutdown : Bool
  hasWaitingInpData : Bool
  allowSelfSignedCertificates : Bool
  trace : List Tls.Entry
deriving DecidableEq, Repr

namespace TlsConnection
open Tls

/-- The two constructors: a client waits for its connection. -/
def new (fd : Int) (commMode : CommMode) : TlsConnection :=
  { TcpConnection.new fd (commMode = .client) with
    commMode := commMode, toRedo := .nothing, redoDir := .inp, handshakeDone := false,
    wantAShutdown := false, startedAShutdown := false, hasWaitingInpData := false,
    allowSelfSignedCertificates := false, trace := [] }

def log (e : Entry) (c : TlsConnection) : TlsConnection := { c with trace := c.trace ++ [e] }

def setRedo (r : ToRedo) (d : Direction) (c : TlsConnection) : TlsConnection :=
  { c with toRedo := r, redoDir := d }

/-- `on_rd_hup`, `on_hup`, `sys_error` and `error`: the flag and `close_fd`. -/
def fail (c : TlsConnection) : TlsConnection := { c with event := c.event.fail }.log .closing

def closeFd (outq : Option Nat) (c : TlsConnection) : TlsConnection :=
  { c with event := c.event.closeFd true c.outAreSent outq }.log .closing

def del (outq : Option Nat) (c : TlsConnection) : TlsConnection :=
  { c with event := c.event.del true outq }

/-- What goes through `ev_loop`: a log line or a timeout. -/
def throughLoop (r : α) (c : TlsConnection) : Exec α :=
  if c.event.evLoop then .ret r else .undef r

def sslError (c : TlsConnection) : Exec TlsConnection := c.throughLoop c.fail

def queue (data : Buffer) (rese : Nat) (allowTransferOwnership : Bool) (c : TlsConnection) :
    TlsConnection :=
  { c with toTcpConnection := (c.addSendItem data rese allowTransferOwnership).1 }.log
    (.queued (!c.waitingForConnection) c.toRedo)

/-- `SSL_write` is given the message of a `send`. -/
def give (data : Buffer) (err : SslError) (c : TlsConnection) : TlsConnection :=
  c.log (.presented data.bytes err)

/-- The loop around `SSL_write` in `send`. -/
def sendNow (data : Buffer) (rese : Nat) (allowTransferOwnership : Bool) :
    List SslError → TlsConnection → Exec TlsConnection
  | [], c => .hang c
  | .none :: _, c => .ret { (c.give data .none).log (.wrote data.bytes) with toRedo := .nothing }
  | .wantRead :: _, c =>
    let c := c.give data .wantRead
    c.throughLoop ((c.queue data rese allowTransferOwnership).setRedo .write .inp)
  | .wantWrite :: _, c =>
    let c := c.give data .wantWrite
    .ret ((c.queue data rese allowTransferOwnership).setRedo .write .out)
  | .zeroReturn :: _, c => .ret (c.give data .zeroReturn).fail
  | .syscall .intr :: as, c =>
    sendNow data rese allowTransferOwnership as (c.give data (.syscall .intr))
  | .syscall .zero :: _, c => .ret (c.give data (.syscall .zero))
  | .syscall n :: _, c => .ret (c.give data (.syscall n)).fail
  | .ssl :: _, c => (c.give data .ssl).sslError

/-- The first test of `send`. -/
def refuses (data : Buffer) (c : TlsConnection) : Bool :=
  data.bytes.length = 0 || c.event.hasError || c.event.wantCloseFd || c.wantAShutdown ||
    c.event.nextDel

/-- `send` never changes `*data`. -/
def send (data : Buffer) (rese : Nat) (allowTransferOwnership : Bool) (script : List SslError)
    (c : TlsConnection) : Exec TlsConnection :=
  if c.refuses data then .ret c
  else if c.waitingForConnection || !c.waitingSends.isEmpty || c.toRedo ≠ .nothing then
    .ret (c.queue data rese allowTransferOwnership)
  else sendNow data rese allowTransferOwnership script c

/-- `_shutdown`, on answers that come with one for SIOCOUTQ. -/
def shutdown : List (SslError × Option Nat) → TlsConnection →
    Exec (TlsConnection × List (SslError × Option Nat))
  | [], c => .hang (c, [])
  | (.none, outq) :: as, c => .ret ({ c with toRedo := .nothing }.closeFd outq, as)
  | (.wantRead, _) :: as, c => c.throughLoop (c.setRedo .shutdown .inp, as)
  | (.wantWrite, _) :: as, c => .ret (c.setRedo .shutdown .out, as)
  | (.zeroReturn, _) :: as, c => .ret (c.fail, as)
  | (.syscall .intr, _) :: as, c => shutdown as c
  | (.syscall .zero, _) :: as, c => .ret (c, as)
  | (.syscall _, _) :: as, c => .ret (c.fail, as)
  | (.ssl, _) :: as, c =>
    c.throughLoop ({ c with event := { c.event with wantCloseFd := true } }.fail, as)

def close (script : List (SslError × Option Nat)) (c : TlsConnection) : Exec TlsConnection :=
  let c := c.log .closing
  if c.event.hasError || c.wantAShutdown then .ret c
  else
    let c := { c with wantAShutdown := true }
    if !c.waitingForConnection && c.waitingSends.isEmpty then
      (shutdown script { c with startedAShutdown := true }).map Prod.fst
    else .ret c

/-- The messages that are to be accepted: those that are not empty, given to a connection that has
no error, does not close and is not to be deleted. -/
def welcomes (data : Buffer) (c : TlsConnection) : Bool :=
  !data.bytes.isEmpty && !c.event.hasError && !c.event.wantCloseFd && !c.wantAShutdown &&
    !c.event.nextDel

/-- The caller notes a message once `send` is through with it. -/
def noting (bytes : List Byte) : Exec TlsConnection → Exec TlsConnection
  | .ret c => .ret (c.log (.accepted bytes))
  | .hang c => .hang c
  | .undef c => .undef (c.log (.accepted bytes))

/-- The user writes to a buffer of his. `SSL_write` takes messages whole, so that those that wait
there begin where the buffer does. -/
def fill (ptr : Ptr) (bytes : List Byte) (c : TlsConnection) : TlsConnection :=
  let waitingSends := c.waitingSends.map (Tcp.SendItem.fill ptr bytes)
  { c with waitingSends := waitingSends }.log (.filled (decide (waitingSends ≠ c.waitingSends)))

def act (c : TlsConnection) : Action → Exec TlsConnection
  | .send data rese allow script =>
    if c.welcomes data then noting data.bytes (c.send data rese allow script)
    else c.send data rese allow script
  | .close script => c.close script
  | .closeFd outq => .ret (c.closeFd outq)
  | .del outq => .ret (c.del outq)
  | .allowSelfSigned allow => .ret { c with allowSelfSignedCertificates := allow }
  | .fill ptr bytes => .ret (c.fill ptr bytes)

def acts : List Action → TlsConnection → Exec TlsConnection
  | [], c => .ret c
  | a :: as, c => (c.act a).andThen (acts as)

def checkX509 (a : Answer) (c : TlsConnection) : Exec (TlsConnection × Bool) :=
  if !a.cert then c.sslError.map (fun c => (c, false))
  else if a.verify ≠ 0 then
    if a.verify = selfSignedCert ∧ c.allowSelfSignedCertificates then .ret (c, true)
    else c.sslError.map (fun c => (c, false))
  else .ret (c, true)

/-- The check that the first `SSL_read` of a client makes. The second component is false if the
rest of the case is skipped. -/
def passGate (a : Answer) (c : TlsConnection) : Exec (TlsConnection × Bool) :=
  if c.commMode = .client ∧ c.handshakeDone = false then
    (checkX509 a { c with handshakeDone := true }).map fun (c, ok) =>
      let c := c.log (.checked ok)
      (if ok then c else c.fail, ok)
  else .ret (c, true)

def parses (c : TlsConnection) : Bool :=
  !c.event.wantCloseFd && !c.event.nextDel && !c.wantAShutdown

/-- An open connection that is up. -/
def active (c : TlsConnection) : Bool :=
  !c.event.hasError && !c.event.wantCloseFd && !c.waitingForConnection

def pending (c : TlsConnection) : Bool := !c.waitingSends.isEmpty

/-- A shutdown has been asked for and not started, and nothing is left to be written. -/
def owes (c : TlsConnection) : Bool :=
  c.wantAShutdown && !c.startedAShutdown && c.waitingSends.isEmpty

/-- `SSL_read` wants to read or write. -/
def readWait (c : TlsConnection) : TlsConnection :=
  (c.log (.readOwes (c.active && c.owes))).log (.readWants c.active c.pending)

/-- The functions that take answers return those they leave. -/
abbrev Step := TlsConnection × List Answer → Exec (TlsConnection × List Answer)

/-- `_read`. What it does with its buffer is left out. -/
def read : List Answer → TlsConnection → Exec (TlsConnection × List Answer)
  | [], c => .hang (c, [])
  | a :: as, c =>
    match a.err with
    | .none =>
      ((c.log .read).passGate a).thenWith (fun r => (r.1, as)) fun (c, ok) =>
        if ok then
          let c := { c with toRedo := .nothing }
          if c.parses then
            (acts a.parse (c.log (.parsed a.bytes))).thenWith (fun c => (c, as)) (read as)
          else read as c
        else read as c
    | .wantRead => c.throughLoop (c.readWait.setRedo .read .inp, as)
    | .wantWrite => .ret (c.readWait.setRedo .read .out, as)
    | .zeroReturn => .ret (c.fail, as)
    | .syscall .intr => read as c
    | .syscall .zero => .ret (c, as)
    | .syscall _ => c.throughLoop (c.fail, as)
    | .ssl => c.sslError.map (fun c => (c, as))

/-- `_write` -/
def write : List Answer → TlsConnection → Exec (TlsConnection × List Answer)
  | [], c => if c.waitingSends.isEmpty then .ret (c, []) else .hang (c, [])
  | a :: as, c =>
    match c.waitingSends with
    | [] => .ret (c, a :: as)
    | si :: rest =>
      let c := c.log (.presented si.data a.err)
      match a.err with
      | .none =>
        write as { c.log (.wrote si.data) with
          freed := c.freed ++ [si.allo], waitingSends := rest, toRedo := .nothing }
      | .wantRead => c.throughLoop (c.setRedo .write .inp, as)
      | .wantWrite => .ret (c.setRedo .write .out, as)
      | .zeroReturn => .ret (c.fail, as)
      | .syscall .intr => write as c
      | .syscall _ => c.throughLoop (c.fail, as)
      | .ssl => c.sslError.map (fun c => (c, as))

/-- `_handshake` -/
def handshake : List Answer → TlsConnection → Exec (TlsConnection × List Answer)
  | [], c => .hang (c, [])
  | a :: as, c =>
    match a.err with
    | .none => .ret ({ c with toRedo := .nothing }, as)
    | .wantRead => c.throughLoop (c.setRedo .handshake .inp, as)
    | .wantWrite => .ret (c.setRedo .handshake .out, as)
    | .zeroReturn => .ret (c.fail, as)
    | .syscall .intr => handshake as c
    | .syscall _ => c.throughLoop (c.fail, as)
    | .ssl => c.sslError.map (fun c => (c, as))

/-- `_shutdown` on answers of the common kind. -/
def shutdownStep : Step := fun (c, as) =>
  (shutdown (as.map (fun a => (a.err, a.outq))) c).map fun (c, left) =>
    (c, as.drop (as.length - left.length))

/-- `_redo` -/
def redo : Step := fun (c, as) =>
  match c.toRedo with
  | .nothing => .ret (c, as)
  | .handshake => handshake as c
  | .read => read as c
  | .write => write as c
  | .shutdown => shutdownStep (c, as)

def busy (c : TlsConnection) : Bool := c.toRedo ≠ .nothing || c.event.hasError

/-- `if ( to_redo != ToRedo::Nothing || has_error ) return;` -/
def unlessBusy (k : Step) : Step := fun r => if r.1.busy then .ret r else k r

/-- The last lines of `on_inp` and `on_out`. -/
def startShutdown : Step := fun (c, as) =>
  if c.wantAShutdown && !c.startedAShutdown && c.waitingSends.isEmpty then
    shutdownStep ({ c with startedAShutdown := true }, as)
  else .ret (c, as)

/-- `on_inp` from its call of `_read` on. -/
def readAndWrite : Step := fun (c, as) =>
  (read as c).andThen <| unlessBusy fun (c, as) =>
    (write as c).andThen <| unlessBusy startShutdown

def onInp : Step := fun (c, as) =>
  if !c.event.evLoop then .undef (c, as)
  else if c.event.hasError then .ret (c, as)
  else if c.toRedo ≠ .nothing then
    if c.redoDir ≠ .inp then .ret ({ c with hasWaitingInpData := true }, as)
    else
      (redo (c, as)).andThen <| unlessBusy fun (c, as) =>
        (write as c).andThen <| unlessBusy readAndWrite
  else readAndWrite (c, as)

/-- `on_out` from its call of `_write` on. -/
def writeAndRead : Step := fun (c, as) =>
  (write as c).andThen fun (c, as) =>
    if c.toRedo ≠ .nothing then .ret (c, as)
    else if c.hasWaitingInpData then
      (onInp ({ c with hasWaitingInpData := false }, as)).andThen <| unlessBusy startShutdown
    else startShutdown (c, as)

/-- `on_out` once the connection is up. -/
def redoAndWrite : Step := fun (c, as) =>
  if c.toRedo ≠ .nothing then
    if c.redoDir ≠ .out then .ret (c, as)
    else (redo (c, as)).andThen <| unlessBusy writeAndRead
  else writeAndRead (c, as)

def onOut : Step := fun (c, as) =>
  if c.event.hasError then .ret (c, as)
  else if c.waitingForConnection then
    let c := { c with waitingForConnection := false }
    if c.commMode = .client then (handshake as c).andThen <| unlessBusy redoAndWrite
    else redoAndWrite (c, as)
  else redoAndWrite (c, as)

end TlsConnection

namespace Tls

/-- What may happen to a connection: calls from the user or from the loop. -/
inductive Call
  | act (a : Action)
  /-- `add_event_obj`, with the deletion that `__on_rdy` may make. -/
  | install (outq : Option Nat)
  | onInp (script : List Answer)
  /-- `on_out`, and the `del` that the loop may make after it. -/
  | onOut (script : List Answer) (outq : Option Nat)
  | onTimeout (outq : Option Nat)
  /-- `on_rd_hup`, `on_hup` or `error` -/
  | fail
deriving DecidableEq, Repr

end Tls

namespace TlsConnection
open Tls

def install (outq : Option Nat) (c : TlsConnection) : TlsConnection :=
  if c.event.evLoop then c
  else
    let c := { c with event := { c.event with evLoop := true } }
    if c.event.delOnInstall then c.del outq else c

/-- The loop calls only what is installed in it. -/
def call (c : TlsConnection) : Call → Exec TlsConnection
  | .act a => c.act a
  | .install outq => .ret (c.install outq)
  | .onInp script => if c.event.evLoop then (onInp (c, script)).map Prod.fst else .undef c
  | .onOut script outq =>
    if c.event.evLoop then
      (onOut (c, script)).map fun (c, _) =>
        if c.event.wantCloseFd && c.outAreSent then c.del outq else c
    else .undef c
  | .onTimeout outq => if c.event.evLoop then .ret (c.closeFd outq) else .undef c
  | .fail => if c.event.evLoop then .ret c.fail else .undef c

/-- Nothing follows a call that does not return. -/
def step (e : Exec TlsConnection) (k : Call) : Exec TlsConnection :=
  e.andThen (fun c => c.call k)

end TlsConnection

end Evel
