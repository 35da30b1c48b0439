import Evel.Model.Ssl
import Evel.Model.UdpSocket

namespace Evel
open General

namespace Dtls

/-- `data` is the pointer and `bytes` the `size` bytes it points to. -/
structure Send where
  data : Ptr
  bytes : List Byte
deriving DecidableEq, Repr

/-- A `BIO_read` of `flush_out_bio`: what it reads, the error that `SSL_get_error` derives from
it, and the answers to the `sendto` that may follow. -/
structure BioAnswer where
  read : List Byte
  err : SslError
  sendto : List SysAnswer
deriving DecidableEq, Repr

/-- An `SSL_write` of `send`, and the answers to the `flush_out_bio` that may follow. -/
structure WriteAnswer where
  err : SslError
  flush : List BioAnswer
deriving DecidableEq, Repr

/-- An `SSL_do_handshake`, whether it finishes the handshake, and the answers to the
`flush_out_bio` that may follow. -/
structure HandshakeAnswer where
  err : SslError
  finishes : Bool
  flush : List BioAnswer
deriving DecidableEq, Repr

/-- An `SSL_write` of `flush_sends`, and the answers to the `flush_out_bio` that may follow. -/
structure FlushAnswer where
  written : Int
  flush : List BioAnswer
deriving DecidableEq, Repr

end Dtls

/-- `UdpConnectionDTLS`. The flag `ssl` is false when the constructor could not make an SSL
object, `nextDel` is true when `next_del` is not null. -/
structure UdpConnectionDTLS (Addr : Type u) where
  addr : Addr
  ssl : Bool
  waitingSends : List Dtls.Send
  cipheredOutput : Option Ptr
  wantClose : Bool
  nextDel : Bool
deriving DecidableEq, Repr

/-- A connection, the socket of its factory and what became of the buffers handed over. -/
structure Endpoint (Addr : Type u) where
  conn : UdpConnectionDTLS Addr
  ucf : UdpSocket Addr
  handovers : List Handover
deriving DecidableEq, Repr

namespace UdpConnectionDTLS
variable {Addr : Type u}

def new (addr : Addr) (ssl : Bool) : UdpConnectionDTLS Addr :=
  { addr := addr, ssl := ssl, waitingSends := [], cipheredOutput := none, wantClose := false,
    nextDel := false }

/-- `store` queues unless there is nothing to store or no SSL object. -/
def stores (data : Buffer) (c : UdpConnectionDTLS Addr) : Bool :=
  c.ssl && data.bytes.length ≠ 0

end UdpConnectionDTLS

namespace Endpoint
open Udp Dtls
variable {Addr : Type u}

/-- `UdpConnection::del`, with the work it registers at the factory. -/
def del (e : Endpoint Addr) : Endpoint Addr :=
  let event := if e.ucf.event.evLoop then { e.ucf.event with nextWork := true }
    else { e.ucf.event with workOnInstall := true }
  { e with conn := { e.conn with nextDel := true }, ucf := { e.ucf with event := event } }

/-- `send_raw`, recorded as a hand-over when it returns. -/
def sendRaw (data : Buffer) (script : List SysAnswer) (e : Endpoint Addr) :
    Exec (Endpoint Addr × Option Ptr) :=
  (e.ucf.sendRaw e.conn.addr data true script).bimap
    (fun (ucf, left) =>
      let h : Handover := ⟨data.ptr, left, (ucf.waitingSends.map SendItem.data).count data.ptr,
        e.ucf.queues data script⟩
      ({ e with ucf := ucf, handovers := e.handovers ++ [h] }, left))
    (fun (ucf, left) => ({ e with ucf := ucf }, left))

/-- The loop around `BIO_read` in `flush_out_bio`, with `ptr` for `ciphered_output`. -/
def flushLoop (ptr : Ptr) : List BioAnswer → Endpoint Addr → Exec (Endpoint Addr)
  | [], e => .hang e
  | b :: bs, e =>
    match b.err with
    | .none =>
      if 0 < b.read.length then
        (e.sendRaw ⟨ptr, b.read⟩ b.sendto).map fun (e, left) =>
          { e with conn := { e.conn with cipheredOutput := left } }
      else .ret e
    | .wantRead => .ret e
    | .syscall .intr => flushLoop ptr bs e
    | .syscall .zero => .ret e
    | _ => .ret e.del

def flushOutBio (script : List BioAnswer) (e : Endpoint Addr) : Exec (Endpoint Addr) :=
  if e.conn.ssl then
    match e.conn.cipheredOutput with
    | some ptr => flushLoop ptr script e
    | none =>
      flushLoop e.ucf.nextPtr script
        { e with conn := { e.conn with cipheredOutput := some e.ucf.nextPtr },
                 ucf := { e.ucf with nextPtr := e.ucf.nextPtr + 1 } }
  else .ret e

/-- The second component is `*data` after the call, `none` for null. -/
def store (data : Buffer) (allowTransferOwnership : Bool) (e : Endpoint Addr) :
    Endpoint Addr × Option Ptr :=
  if e.conn.stores data then
    if allowTransferOwnership then
      -- `data = 0` only resets the parameter
      ({ e with conn := { e.conn with
          waitingSends := e.conn.waitingSends ++ [⟨data.ptr, data.bytes⟩] } }, some data.ptr)
    else
      ({ e with conn := { e.conn with
                  waitingSends := e.conn.waitingSends ++ [⟨e.ucf.nextPtr, data.bytes⟩] },
                ucf := { e.ucf with nextPtr := e.ucf.nextPtr + 1 } }, some data.ptr)
  else (e, some data.ptr)

/-- The loop around `SSL_write` in `send`. -/
def writeLoop (data : Buffer) (allowTransferOwnership : Bool) :
    List WriteAnswer → Endpoint Addr → Exec (Endpoint Addr × Option Ptr)
  | [], e => .hang (e, some data.ptr)
  | w :: ws, e =>
    match w.err with
    | .none => (e.flushOutBio w.flush).map (fun e => (e, some data.ptr))
    | .wantRead =>
      let r := e.store data allowTransferOwnership
      (r.1.flushOutBio w.flush).map (fun e => (e, r.2))
    | .wantWrite =>
      ((e.flushOutBio w.flush).map (fun e => (e, some data.ptr))).andThen fun r =>
        writeLoop data allowTransferOwnership ws r.1
    | .syscall .intr => writeLoop data allowTransferOwnership ws e
    | _ => .ret (e.del, some data.ptr)

def send (data : Buffer) (allowTransferOwnership : Bool) (script : List WriteAnswer)
    (e : Endpoint Addr) : Exec (Endpoint Addr × Option Ptr) :=
  if e.conn.wantClose || e.conn.nextDel || !e.conn.ssl then .ret (e, some data.ptr)
  else writeLoop data allowTransferOwnership script e

/-- The loop around `SSL_write` in `flush_sends`. -/
def flushSends : List FlushAnswer → Endpoint Addr → Exec (Endpoint Addr)
  | [], e => if e.conn.waitingSends.isEmpty then .ret e else .hang e
  | a :: as, e =>
    match e.conn.waitingSends with
    | [] => .ret e
    | p :: rest =>
      if a.written ≤ 0 then .ret e
      else
        (flushOutBio a.flush
          { e with conn := { e.conn with waitingSends := rest },
                   ucf := { e.ucf with freed := e.ucf.freed ++ [p.data] } }).andThen
          (flushSends as)

/-- The first answer that does not make the loop go round. -/
def firstWrite (script : List WriteAnswer) : Option WriteAnswer :=
  script.find? (fun w => w.err ≠ .wantWrite && w.err ≠ .syscall .intr)

/-- `send` stores the message when `SSL_write` wants to read. -/
def queues (data : Buffer) (script : List WriteAnswer) (c : UdpConnectionDTLS Addr) : Bool :=
  !(c.wantClose || c.nextDel || !c.ssl) && c.stores data &&
    (firstWrite script).any (fun w => w.err = .wantRead)

end Endpoint

/-- What a loop around `SSL_do_handshake` leaves: what `SSL_is_init_finished` says, and the error
that ended the loop. -/
structure Dtls.Shake (Addr : Type u) where
  endpoint : Endpoint Addr
  initFinished : Bool
  err : SslError
deriving DecidableEq, Repr

namespace Endpoint
open Dtls
variable {Addr : Type u}

/-- The loop around `SSL_do_handshake` in the constructor and in `_parse`. -/
def handshake : List HandshakeAnswer → Bool → Endpoint Addr → Exec (Shake Addr)
  | [], finished, e => .hang ⟨e, finished, .wantWrite⟩
  | h :: hs, finished, e =>
    let finished := finished || h.finishes
    match h.err with
    | .none => (e.flushOutBio h.flush).map (fun e => ⟨e, finished, .none⟩)
    | .wantRead => (e.flushOutBio h.flush).map (fun e => ⟨e, finished, .wantRead⟩)
    | .wantWrite =>
      (e.flushOutBio h.flush).thenWith (fun e => ⟨e, finished, .wantWrite⟩)
        (handshake hs finished)
    | .syscall .intr => handshake hs finished e
    | err => .ret ⟨e.del, finished, err⟩

end Endpoint

end Evel
