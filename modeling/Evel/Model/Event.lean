import Evel.Model.System

namespace Evel

/-- `Event`. A link field is true when it is not null, that is when the event is in the
list that the link belongs to. -/
structure Event where
  fd : Int
  needWait : Bool
  evLoop : Bool
  nextWaitOut : Bool
  nextWork : Bool
  nextDel : Bool
  delOnInstall : Bool
  workOnInstall : Bool
  wantCloseFd : Bool
  hasError : Bool
deriving DecidableEq, Repr

namespace Event

/-- `Event::Event( fd, need_wait )` -/
def new (fd : Int) (needWait : Bool) : Event :=
  { fd := fd, needWait := needWait, evLoop := false, nextWaitOut := false, nextWork := false,
    nextDel := false, delOnInstall := false, workOnInstall := false, wantCloseFd := false,
    hasError := false }

/-- Where `del` registers an event. -/
inductive DelTarget
  | waitOutList
  | delList
  | delOnInstall
deriving DecidableEq, Repr

/-- The branches of `del`. `outq` is what SIOCOUTQ answers, `none` if the ioctl fails:
`pending` then keeps its initial 0. -/
def delTarget (mayHaveOut : Bool) (outq : Option Nat) (e : Event) : DelTarget :=
  if e.evLoop then
    let pending := if 0 ≤ e.fd && !e.hasError && mayHaveOut then outq.getD 0 else 0
    if pending ≠ 0 then .waitOutList else .delList
  else .delOnInstall

def register (e : Event) : DelTarget → Event
  | .waitOutList => { e with nextWaitOut := true }
  | .delList => { e with nextDel := true }
  | .delOnInstall => { e with delOnInstall := true }

def del (mayHaveOut : Bool) (outq : Option Nat) (e : Event) : Event :=
  e.register (e.delTarget mayHaveOut outq)

/-- `close_fd` up to its call of `del`: the flags, and whether `del` is called. -/
def closeFdFlags (outAreSent : Bool) (e : Event) : Event × Bool :=
  if e.hasError then (e, true)
  else if e.wantCloseFd then (e, false)
  else ({ e with wantCloseFd := true }, outAreSent)

def closeFd (mayHaveOut outAreSent : Bool) (outq : Option Nat) (e : Event) : Event :=
  let r := e.closeFdFlags outAreSent
  if r.2 then r.1.del mayHaveOut outq else r.1

/-- `on_rd_hup`, `on_hup`, `sys_error` and `error` are the same two lines: the closing
that follows the flag reads no SIOCOUTQ count. -/
def fail (e : Event) : Event :=
  { e with hasError := true }.closeFd true true none

end Event

end Evel
