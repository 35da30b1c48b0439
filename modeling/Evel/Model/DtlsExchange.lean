import Evel.Model.UdpConnectionDTLS

namespace Evel
open General

namespace Dtls

/-- Which part of the code runs: none, `on_rdy`, the loop around `SSL_read` or `parse`. -/
inductive Stage
  | idle
  | onRdy
  | reading
  | parse
deriving DecidableEq, Repr

/-- What happens to a connection. User code calls `send`, `close` and `del`, also from `on_rdy` and
from `parse`, which return with `returns`. `initFinished` is what `SSL_is_init_finished` says. -/
inductive Input
  | send (data : Buffer) (allowTransferOwnership : Bool) (script : List WriteAnswer)
  | close (initFinished : Bool)
  | del
  /-- `_parse`, up to its loop around `SSL_read`. `short` tells whether `BIO_write` takes less
  than the datagram. -/
  | parse (short initFinished : Bool) (handshake : List HandshakeAnswer)
      (flushSends : List FlushAnswer)
  /-- an `SSL_read`, and the answers to the `flush_out_bio` that may follow -/
  | read (err : SslError) (flush : List BioAnswer)
  | returns (flush : List BioAnswer) (initFinished : Bool)
deriving DecidableEq, Repr

/-- A message that `SSL_write` has taken, and the messages that were in `waiting_sends` then. -/
structure Write where
  message : Nat
  waiting : List Nat
deriving DecidableEq, Repr

/-- The writes of a loop that takes the first `n` messages from the queue. -/
def Write.front : Nat → List Nat → List Write
  | n + 1, m :: ms => ⟨m, m :: ms⟩ :: front n ms
  | _, _ => []

end Dtls

/-- A connection and its messages, which are numbered in the order of the calls of `send`: those of
`waiting_sends`, those that `SSL_write` has taken, and after each `_parse` that completes the
handshake, those that were left in `waiting_sends`. -/
structure DtlsExchange (Addr : Type u) where
  endpoint : Endpoint Addr
  stage : Dtls.Stage
  sends : Nat
  waiting : List Nat
  writes : List Dtls.Write
  left : List (List Nat)
deriving DecidableEq, Repr

namespace DtlsExchange
open Dtls
variable {Addr : Type u}

def new (e : Endpoint Addr) : DtlsExchange Addr :=
  { endpoint := e, stage := .idle, sends := 0, waiting := [], writes := [], left := [] }

def goto (stage : Stage) (s : DtlsExchange Addr) : DtlsExchange Addr := { s with stage := stage }

def setEndpoint (e : Endpoint Addr) (s : DtlsExchange Addr) : DtlsExchange Addr :=
  { s with endpoint := e }

/-- The `SSL_write` of `send` takes the message. -/
def takes (script : List WriteAnswer) (c : UdpConnectionDTLS Addr) : Bool :=
  !(c.wantClose || c.nextDel || !c.ssl) &&
    (Endpoint.firstWrite script).any (fun w => w.err = .none)

/-- What `send` does when it returns. -/
def sent (data : Buffer) (script : List WriteAnswer) (e : Endpoint Addr) (s : DtlsExchange Addr) :
    DtlsExchange Addr :=
  let c := s.endpoint.conn
  { s with
    endpoint := e
    sends := s.sends + 1
    waiting := if Endpoint.queues data script c then s.waiting ++ [s.sends] else s.waiting
    writes := if takes script c then s.writes ++ [⟨s.sends, s.waiting⟩] else s.writes }

def send (data : Buffer) (allowTransferOwnership : Bool) (script : List WriteAnswer)
    (s : DtlsExchange Addr) : Exec (DtlsExchange Addr) :=
  (s.endpoint.send data allowTransferOwnership script).bimap
    (fun r => s.sent data script r.1) (fun r => s.setEndpoint r.1)

/-- Nothing is promised where there is no SSL object to ask. -/
def close (initFinished : Bool) (s : DtlsExchange Addr) : Exec (DtlsExchange Addr) :=
  let c := s.endpoint.conn
  if c.ssl then
    if initFinished && c.waitingSends.isEmpty then .ret (s.setEndpoint s.endpoint.del)
    else .ret (s.setEndpoint { s.endpoint with conn := { c with wantClose := true } })
  else .undef s

/-- What `flush_sends` does: it takes messages from the front of the queue. -/
def flushed (e : Endpoint Addr) (s : DtlsExchange Addr) : DtlsExchange Addr :=
  let n := s.waiting.length - e.conn.waitingSends.length
  { s with endpoint := e, waiting := s.waiting.drop n,
           writes := s.writes ++ Write.front n s.waiting }

/-- `_parse`, up to its loop around `SSL_read`. A short `BIO_write` is reported through
`ev_loop`. -/
def parse (short initFinished : Bool) (handshake : List HandshakeAnswer)
    (flushSends : List FlushAnswer) (s : DtlsExchange Addr) : Exec (DtlsExchange Addr) :=
  if s.endpoint.conn.ssl then
    if short && !s.endpoint.ucf.event.evLoop then .undef s
    else if initFinished then .ret (s.goto .reading)
    else
      (s.endpoint.handshake handshake false).thenWith (fun h => s.setEndpoint h.endpoint) fun h =>
        if h.err = .none ∧ h.initFinished = true then
          (h.endpoint.flushSends flushSends).map fun e => (s.flushed e).goto .onRdy
        else .ret (s.setEndpoint h.endpoint)
  else .ret s

/-- One turn of the loop around `SSL_read`. -/
def read (err : SslError) (flush : List BioAnswer) (s : DtlsExchange Addr) :
    Exec (DtlsExchange Addr) :=
  match err with
  | .none => .ret (s.goto .parse)
  | .wantRead => (s.endpoint.flushOutBio flush).map fun e => (s.setEndpoint e).goto .idle
  | .wantWrite => (s.endpoint.flushOutBio flush).map s.setEndpoint
  | .syscall .intr => .ret s
  | _ => .ret ((s.setEndpoint s.endpoint.del).goto .idle)

/-- The end of `_parse` after `on_rdy`. -/
def ready (s : DtlsExchange Addr) : DtlsExchange Addr :=
  let e := if s.endpoint.conn.wantClose then s.endpoint.del else s.endpoint
  { s with endpoint := e, stage := .idle, left := s.left ++ [s.waiting] }

/-- What follows `parse` in the loop around `SSL_read`. -/
def parsed (flush : List BioAnswer) (initFinished : Bool) (s : DtlsExchange Addr) :
    Exec (DtlsExchange Addr) :=
  (s.endpoint.flushOutBio flush).map fun e =>
    (s.setEndpoint e).goto
      (if e.conn.nextDel || e.conn.wantClose && initFinished then .idle else .reading)

/-- An input that does not belong to the stage is passed over. -/
def apply (s : DtlsExchange Addr) : Input → Exec (DtlsExchange Addr)
  | .send data allow script => if s.stage = .reading then .ret s else s.send data allow script
  | .close initFinished => if s.stage = .reading then .ret s else s.close initFinished
  | .del => .ret (if s.stage = .reading then s else s.setEndpoint s.endpoint.del)
  | .parse short initFinished handshake flushSends =>
    if s.stage = .idle then s.parse short initFinished handshake flushSends else .ret s
  | .read err flush => if s.stage = .reading then s.read err flush else .ret s
  | .returns flush initFinished =>
    match s.stage with
    | .onRdy => .ret s.ready
    | .parse => s.parsed flush initFinished
    | _ => .ret s

/-- Nothing follows a step that does not return. -/
def step (e : Exec (DtlsExchange Addr)) (i : Input) : Exec (DtlsExchange Addr) :=
  e.andThen (fun s => s.apply i)

end DtlsExchange

end Evel
