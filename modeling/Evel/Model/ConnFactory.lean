import Evel.General.Runs
import Evel.Model.CiList

namespace Evel
open General

namespace ConnFactory

/-- The calls that the virtual functions of a connection, or the user, may make. `fails` tells
whether the constructor of a connection that is made calls `del`, and `now` whether `close` does:
that of a connection in its handshake does not. -/
inductive Act (Addr : Type u)
  | connection (dst : Addr) (fails : Bool)
  | del (c : Nat)
  | close (c : Nat) (now : Bool)
deriving DecidableEq, Repr

/-- What the user decides when `work` runs: the constructors that fail, and the connections whose
`del` the destructor of a connection calls. -/
structure Users (Addr : Type u) where
  fails : Addr → Bool
  dtor : Nat → List Nat

/-- What happens to a factory. `acts` are the calls that `send`, `_parse` or `on_timeout` of a
connection makes. -/
inductive Op (Addr : Type u)
  | connection (dst : Addr) (fails : Bool)
  | send (dst : Addr) (fails : Bool) (acts : List (Act Addr))
  | parse (src : Addr) (fails : Bool) (acts : List (Act Addr))
  | del (c : Nat)
  | close (c : Nat) (now : Bool)
  | timeout (acts : List (Act Addr))
  | eventDel
  | install (u : Users Addr)
  | work (u : Users Addr)

end ConnFactory

/-- `UdpConnectionFactory`, with its connections as objects, that are numbered as `factory` makes
them. `made` are their addresses, `asked` the connections whose `del` has been called. A connection
that the allocator puts where another one was is another object. -/
structure ConnFactory (Addr : Type u) where
  connections : Addr → Option Nat
  toDel : CiList.Heap Unit Nat
  made : List Addr
  asked : List Nat
  destroyed : List Nat
  evLoop : Bool
  workOnInstall : Bool
  nextWork : Bool
  nextDel : Bool

namespace ConnFactory
variable {Addr : Type u}

def new : ConnFactory Addr :=
  { connections := fun _ => none, toDel := { next := fun _ => none, list := fun _ => CiList.new }
    made := [], asked := [], destroyed := [], evLoop := false, workOnInstall := false
    nextWork := false, nextDel := false }

/-- `conn->addr` -/
def addr (c : Nat) (s : ConnFactory Addr) : Option Addr := s.made[c]?

/-- The connection may be called. -/
def alive (c : Nat) (s : ConnFactory Addr) : Bool :=
  decide (c < s.made.length) && !s.destroyed.contains c

/-- `UdpConnection::del`, with `EvLoop::add_work` -/
def delConn (c : Nat) (s : ConnFactory Addr) : ConnFactory Addr :=
  let s := { s with toDel := s.toDel.pushBack () c }
  if s.evLoop then { s with nextWork := true } else { s with workOnInstall := true }

/-- A call of `del` is noted by whoever makes it. -/
def callDel (c : Nat) (s : ConnFactory Addr) : ConnFactory Addr :=
  { s with asked := s.asked ++ [c] }.delConn c

/-- The connections that the user calls are there. -/
def delAlive (c : Nat) (s : ConnFactory Addr) : ConnFactory Addr :=
  if s.alive c then s.callDel c else s

variable [DecidableEq Addr]

/-- `factory( dst )`: a new connection, whose constructor may have called `del`. -/
def factory (dst : Addr) (fails : Bool) (s : ConnFactory Addr) : ConnFactory Addr × Nat :=
  let c := s.made.length
  let s := { s with made := s.made ++ [dst] }
  (if fails then s.callDel c else s, c)

def mapIter (dst : Addr) (createIfNew fails : Bool) (s : ConnFactory Addr) :
    ConnFactory Addr × Option Nat :=
  match s.connections dst with
  | some c => (s, some c)
  | none =>
    if createIfNew then
      let r := s.factory dst fails
      ({ r.1 with connections := Function.update r.1.connections dst (some r.2) }, some r.2)
    else (s, none)

/-- `connection` looks up as `map_iter` does. -/
def connection (dst : Addr) (createIfNew fails : Bool) (s : ConnFactory Addr) :
    ConnFactory Addr × Option Nat := s.mapIter dst createIfNew fails

/-- `connections.erase( iter )`: the connection leaves the map before its destructor runs. -/
def erase (src : Addr) (c : Nat) (u : Users Addr) (s : ConnFactory Addr) : ConnFactory Addr :=
  (u.dtor c).foldl (fun s d => s.delAlive d)
    { s with connections := Function.update s.connections src none,
             destroyed := s.destroyed ++ [c] }

/-- `UdpConnectionFactory::del` -/
def del (src : Addr) (u : Users Addr) (s : ConnFactory Addr) : ConnFactory Addr :=
  let r := s.mapIter src true (u.fails src)
  match r.2 with
  | some c => r.1.erase src c u
  | none => r.1

/-- The loop of `work`. -/
def workLoop (u : Users Addr) : (fuel : Nat) → ConnFactory Addr → Exec (ConnFactory Addr)
  | 0, s => .hang s
  | fuel + 1, s =>
    let r := s.toDel.popFront ()
    let s := { s with toDel := r.1 }
    match r.2 with
    | none => .ret s
    | some c =>
      match s.addr c with
      | some a => workLoop u fuel (s.del a u)
      | none => .undef s

/-- No connection is destroyed twice: there is no need for more turns than connections. -/
def work (u : Users Addr) (s : ConnFactory Addr) : Exec (ConnFactory Addr) :=
  workLoop u (s.made.length + 1) s

def act (s : ConnFactory Addr) : Act Addr → ConnFactory Addr
  | .connection dst fails => (s.connection dst true fails).1
  | .del c => s.delAlive c
  | .close c now => if now then s.delAlive c else s

def acts (as : List (Act Addr)) (s : ConnFactory Addr) : ConnFactory Addr := as.foldl act s

/-- `add_event_obj`, with `__on_rdy` -/
def install (u : Users Addr) (s : ConnFactory Addr) : Exec (ConnFactory Addr) :=
  if s.evLoop then .ret s
  else
    let s := { s with evLoop := true }
    if s.workOnInstall then s.work u else .ret s

/-- The loop calls `work` when it has popped the factory from `work_list`. `eventDel` is
`Event::del` of the factory. -/
def apply (s : ConnFactory Addr) : Op Addr → Exec (ConnFactory Addr)
  | .connection dst fails => .ret (s.connection dst true fails).1
  | .send dst fails as => .ret ((s.connection dst true fails).1.acts as)
  | .parse src fails as =>
    if s.nextDel then .ret s else .ret ((s.connection src true fails).1.acts as)
  | .del c => .ret (s.act (.del c))
  | .close c now => .ret (s.act (.close c now))
  | .timeout as => .ret (s.acts as)
  | .eventDel => .ret { s with nextDel := s.nextDel || s.evLoop }
  | .install u => s.install u
  | .work u => if s.nextWork then { s with nextWork := false }.work u else .ret s

/-- Nothing follows a step that does not return. -/
def step (e : Exec (ConnFactory Addr)) (o : Op Addr) : Exec (ConnFactory Addr) :=
  e.andThen fun s => s.apply o

end ConnFactory

end Evel
