import Evel.Model.UdpConnectionDTLS

namespace Evel
open General

namespace Dtls

/-- What the environment answers to a turn of the loop of `flush_out_bio`: `SSL_get_error`, which
is asked after a `BIO_read` that read nothing, and the `sendto`s of a `send_raw`. -/
structure TurnAnswer where
  err : SslError
  sendto : List SysAnswer
deriving DecidableEq, Repr

/-- `std::max( ucf->get_inp_buf_size() + 96u, 1012u )` -/
def bufSize (inpBufSize : UInt32) : UInt32 := max (inpBufSize + 96) 1012

/-- The bytes that a `BIO_read` can take at most: the size is passed as an `int`. -/
def room (inpBufSize : UInt32) : Nat := (bufSize inpBufSize).toInt32.toInt.toNat

end Dtls

/-- A connection during a `flush_out_bio`: what is pending in `out_bio`, the datagrams passed to
`send_raw` and whether `sys_error` or `ssl_error` has been called. -/
structure Flushing (Addr : Type u) where
  endpoint : Endpoint Addr
  outBio : List Byte
  datagrams : List (List Byte)
  reported : Bool
deriving DecidableEq, Repr

namespace Flushing
open Udp Dtls
variable {Addr : Type u}

def start (e : Endpoint Addr) (pending : List Byte) : Flushing Addr :=
  { endpoint := e, outBio := pending, datagrams := [], reported := false }

/-- `BIO_read`: at most `size` bytes, and what is left. -/
def bioRead (size : Nat) (s : Flushing Addr) : List Byte × Flushing Addr :=
  (s.outBio.take size, { s with outBio := s.outBio.drop size })

/-- `SSL_get_error` after a `BIO_read`: there is no error if something was read. -/
def getError (read : List Byte) (err : SslError) : SslError :=
  if 0 < read.length then .none else err

def sendRaw (data : Buffer) (script : List SysAnswer) (s : Flushing Addr) :
    Exec (Flushing Addr) :=
  let s := { s with datagrams := s.datagrams ++ [data.bytes] }
  (s.endpoint.sendRaw data script).map fun (e, left) =>
    { s with endpoint := { e with conn := { e.conn with cipheredOutput := left } } }

/-- `sys_error` and `ssl_error` -/
def report (s : Flushing Addr) : Flushing Addr :=
  { s with endpoint := s.endpoint.del, reported := true }

/-- The loop around `BIO_read`, with `ptr` for `ciphered_output`. The `break` of the switch is
followed by the one of the loop. -/
def loop (ptr : Ptr) (size : Nat) : List TurnAnswer → Flushing Addr → Exec (Flushing Addr)
  | [], s => .hang s
  | a :: as, s =>
    let (read, s) := s.bioRead size
    match getError read a.err with
    | .none => if 0 < read.length then s.sendRaw ⟨ptr, read⟩ a.sendto else .ret s
    | .wantRead => .ret s
    | .syscall .intr => loop ptr size as s
    | .syscall .zero => .ret s
    | _ => .ret s.report

def flushOutBio (inpBufSize : UInt32) (script : List TurnAnswer) (s : Flushing Addr) :
    Exec (Flushing Addr) :=
  if s.endpoint.conn.ssl then
    match s.endpoint.conn.cipheredOutput with
    | some ptr => loop ptr (room inpBufSize) script s
    | none =>
      let e := s.endpoint
      loop e.ucf.nextPtr (room inpBufSize) script
        { s with endpoint :=
          { e with conn := { e.conn with cipheredOutput := some e.ucf.nextPtr },
                   ucf := { e.ucf with nextPtr := e.ucf.nextPtr + 1 } } }
  else .ret s

end Flushing

end Evel
