import Evel.Model.Dns
import Evel.Model.TimedLoop

namespace Evel
open General ExpIndexed

namespace TimedDns
open Dns

/-- `timeout / 0.125`, for a `timeout` of 5 seconds. -/
def delay : Nat := 40

inductive Input
  | query (addr : Name) (num : UInt16) (moved : Bool) (resolvConf : Option (List Name))
  | ans (data : List Byte)
  /-- `TimeoutsTimer::timeout` calls `shift`. -/
  | shift
  /-- `shift` hands the next item over: `on_timeout` is called. -/
  | expire
  /-- The callback that runs returns. -/
  | ret
deriving DecidableEq, Repr

end TimedDns

/-- `query` makes a request for this name. -/
def Dns.registers (addr : Name) (s : Dns) : Bool :=
  (s.cachedEntries addr).isNone && (s.waitingReqs addr).isNone

/-- The name that `ans` erases after its callbacks. -/
def Dns.erases (d : Datagram) (s : Dns) : Option Name :=
  match s.readAns d with
  | .on p s => if p.wcb.isSome then (p.entry.bind s.cachedEntries).map Entry.name else none
  | _ => none

/-- A resolver and its requests in the timeouts of the loop. `due` holds the items that the `shift`
under way has still to hand over, `now` is the number of shifts, and `since` tells of a name when
its request was registered. -/
structure TimedDns where
  dns : Dns
  timeoutList : ExpIndexedList Dns.Name EvLoop.geometry
  nbWaitingEvents : Int
  due : List Dns.Name
  now : Nat
  since : Dns.Name → Nat

namespace TimedDns
open Dns

def new : TimedDns :=
  { dns := Dns.new, timeoutList := .new Name EvLoop.geometry 0, nbWaitingEvents := 0, due := [],
    now := 0, since := fun _ => 0 }

/-- An add in a callback comes to no bucket that the shift walks over: the index is none of those
that lead back to it. -/
def register (addr : Name) (d : Dns) (s : TimedDns) : TimedDns :=
  { s with dns := d, timeoutList := s.timeoutList.add addr delay,
           nbWaitingEvents := s.nbWaitingEvents + 1,
           since := Function.update s.since addr s.now }

/-- The resolver has come to `d`: the request for the name may have been erased. Its destructor
takes it out of the timeouts. -/
def forget (name : Option Name) (d : Dns) (s : TimedDns) : TimedDns :=
  match name with
  | none => { s with dns := d }
  | some n =>
    if (s.dns.waitingReqs n).isSome && (d.waitingReqs n).isNone then
      { s with dns := d, timeoutList := s.timeoutList.destroy n,
               nbWaitingEvents := s.nbWaitingEvents - 1 }
    else { s with dns := d }

/-- No datagram is read, and no other shift begins, before a shift has handed over its items and
their callbacks have returned. -/
def apply (R : BinStream κ) (s : TimedDns) : Input → Exec TimedDns
  | .query addr num moved resolvConf =>
    (s.dns.query addr num moved resolvConf).map fun d =>
      if s.dns.registers addr then s.register addr d else { s with dns := d }
  | .ans data =>
    if s.due ≠ [] ∨ s.dns.depth ≠ 0 then .ret s
    else
      let d := parse R data
      (s.dns.ans d).map (s.forget (s.dns.erases d))
  | .shift =>
    if s.due ≠ [] ∨ s.dns.depth ≠ 0 then .ret s
    else
      .ret { s with timeoutList := s.timeoutList.shift, due := s.timeoutList.shifted.out,
                    now := s.now + 1 }
  | .expire =>
    match s.due with
    | [] => .ret s
    | n :: due =>
      if s.dns.depth ≠ 0 then .ret s
      else if (s.dns.waitingReqs n).isNone then .undef s
      else .ret ({ s with due := due }.forget (some n) (s.dns.onTimeout n))
  | .ret => .ret (s.forget (s.dns.loop.map Loop.name) s.dns.ret)

/-- Nothing follows a step that does not return. -/
def step (R : BinStream κ) (e : Exec TimedDns) (i : Input) : Exec TimedDns :=
  e.andThen (fun s => s.apply R i)

end TimedDns

end Evel
