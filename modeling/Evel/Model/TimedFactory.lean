import Evel.Model.ConnFactory
import Evel.Model.ExpIndexedList

namespace Evel
open General ExpIndexed

theorem ConnFactory.saPos : 0 < 64 := by decide

/-- The arguments of `UdpConnectionFactory::TimeoutList` -/
def ConnFactory.geometry : Geometry := ⟨64, 3, ConnFactory.saPos⟩

namespace TimedFactory

/-- `delay / 0.125`: the connections ask for one second. -/
def delay : Nat := 8

/-- The calls that the virtual functions of a connection, or the user, may make. `arms` tells
whether the constructor of a connection that is made calls `add_timeout`. -/
inductive Act (Addr : Type u)
  | connection (dst : Addr) (fails arms : Bool)
  | del (c : Nat)
  | close (c : Nat) (now : Bool)
  | addTimeout (c : Nat)
  | remTimeout (c : Nat)
deriving DecidableEq, Repr

/-- What happens to a factory. `acts` are the calls that `send` or `_parse` of a connection makes,
after the `rem_timeout` of `_parse` if the connection is a `dtls` one. -/
inductive Input (Addr : Type u)
  | act (a : Act Addr)
  | send (dst : Addr) (fails arms : Bool) (acts : List (Act Addr))
  | parse (src : Addr) (fails arms dtls : Bool) (acts : List (Act Addr))
  | eventDel
  | install (u : ConnFactory.Users Addr)
  | work (u : ConnFactory.Users Addr)
  /-- `UdpConnFactTimeoutsTimer::timeout` calls `shift`. -/
  | shift
  /-- `shift` hands the next connection over: `on_timeout` is called. -/
  | expire

def Input.shifts {Addr : Type u} : Input Addr → Bool
  | .shift => true
  | _ => false

end TimedFactory

/-- A factory and the timeouts of its connections, whose `on_timeout` is that of `UdpConnection`.
`timeoutsTimer` tells whether the timer has been made, `due` holds the connections that the `shift`
under way has still to hand over, `now` is the number of shifts. `waits` tells since when a
connection is silent: the time of its first `add_timeout` since its last `rem_timeout`. -/
structure TimedFactory (Addr : Type u) where
  factory : ConnFactory Addr
  timeoutList : ExpIndexedList Nat ConnFactory.geometry
  timeoutsTimer : Bool
  needToInstallTimeoutsTimer : Bool
  due : List Nat
  now : Nat
  waits : Nat → Option Nat

namespace TimedFactory
variable {Addr : Type u}

def new : TimedFactory Addr :=
  { factory := ConnFactory.new, timeoutList := .new Nat ConnFactory.geometry 0,
    timeoutsTimer := false, needToInstallTimeoutsTimer := false, due := [], now := 0,
    waits := fun _ => none }

/-- Without a timer `add_timeout` makes it, or has `on_install` make it. -/
def addTimeout (c : Nat) (s : TimedFactory Addr) : TimedFactory Addr :=
  { s with timeoutsTimer := s.timeoutsTimer || s.factory.evLoop,
           needToInstallTimeoutsTimer := s.needToInstallTimeoutsTimer ||
             !s.timeoutsTimer && !s.factory.evLoop,
           timeoutList := s.timeoutList.add c delay,
           waits := Function.update s.waits c (some ((s.waits c).getD s.now)) }

def remTimeout (c : Nat) (s : TimedFactory Addr) : TimedFactory Addr :=
  { s with timeoutList := s.timeoutList.rem c, waits := Function.update s.waits c none }

/-- The factory has come to `f`. The destructors of the connections that it has destroyed take them
out of the timeouts. -/
def follow (f : ConnFactory Addr) (s : TimedFactory Addr) : TimedFactory Addr :=
  let destroyed := f.destroyed.drop s.factory.destroyed.length
  { s with factory := f, timeoutList := destroyed.foldl ExpIndexedList.destroy s.timeoutList }

variable [DecidableEq Addr]

def connection (dst : Addr) (fails arms : Bool) (s : TimedFactory Addr) : TimedFactory Addr :=
  let s' := { s with factory := (s.factory.connection dst true fails).1 }
  if (s.factory.connections dst).isNone && arms then s'.addTimeout s.factory.made.length else s'

/-- The connections that the user calls are there. -/
def act (s : TimedFactory Addr) : Act Addr → TimedFactory Addr
  | .connection dst fails arms => s.connection dst fails arms
  | .del c => { s with factory := s.factory.act (.del c) }
  | .close c now => { s with factory := s.factory.act (.close c now) }
  | .addTimeout c => if s.factory.alive c then s.addTimeout c else s
  | .remTimeout c => if s.factory.alive c then s.remTimeout c else s

def acts (as : List (Act Addr)) (s : TimedFactory Addr) : TimedFactory Addr := as.foldl act s

/-- `_parse` of a DTLS connection takes its timeout back, whatever the datagram is. -/
def parse (src : Addr) (fails arms dtls : Bool) (as : List (Act Addr)) (s : TimedFactory Addr) :
    TimedFactory Addr :=
  if s.factory.nextDel then s
  else
    let s := s.connection src fails arms
    match s.factory.connections src with
    | some c => (if dtls then s.remTimeout c else s).acts as
    | none => s

/-- `on_install` comes before the work that has been put off. -/
def install (u : ConnFactory.Users Addr) (s : TimedFactory Addr) : Exec (TimedFactory Addr) :=
  let s := if s.factory.evLoop then s
    else { s with timeoutsTimer := s.timeoutsTimer || s.needToInstallTimeoutsTimer }
  (s.factory.apply (.install u)).map s.follow

/-- No call is made before a shift has handed over its connections, and `del`, that their
`on_timeout` calls, leaves the timeouts alone. -/
def apply (s : TimedFactory Addr) (i : Input Addr) : Exec (TimedFactory Addr) :=
  match i, s.due with
  | .expire, [] => .ret s
  | .expire, c :: due =>
    if s.factory.alive c then .ret { s with factory := s.factory.callDel c, due := due }
    else .undef s
  | _, _ :: _ => .ret s
  | .act a, [] => .ret (s.act a)
  | .send dst fails arms as, [] => .ret ((s.connection dst fails arms).acts as)
  | .parse src fails arms dtls as, [] => .ret (s.parse src fails arms dtls as)
  | .eventDel, [] => (s.factory.apply .eventDel).map s.follow
  | .install u, [] => s.install u
  | .work u, [] => (s.factory.apply (.work u)).map s.follow
  | .shift, [] =>
    .ret (if s.timeoutsTimer then
        { s with timeoutList := s.timeoutList.shift, due := s.timeoutList.shifted.out,
                 now := s.now + 1 }
      else s)

/-- Nothing follows a step that does not return. -/
def step (e : Exec (TimedFactory Addr)) (i : Input Addr) : Exec (TimedFactory Addr) :=
  e.andThen fun s => s.apply i

end TimedFactory

end Evel
