import Evel.Model.MainLoop
import Evel.Model.TimedDns

namespace Evel
open General Loop

/-- A main loop with a resolver, that may come to its datagrams and to its timeouts at any time.
`own` are the waiting events that user code has counted itself and not taken back. -/
structure ResolverLoop where
  main : MainLoop
  resolver : TimedDns
  own : Nat

namespace ResolverLoop

inductive Input
  | main (i : MainLoop.Input)
  | resolver (i : TimedDns.Input)
deriving DecidableEq, Repr

def new : ResolverLoop := { main := MainLoop.new, resolver := TimedDns.new, own := 0 }

def withMain (s : ResolverLoop) (m : MainLoop) : ResolverLoop := { s with main := m }

/-- `inc_nb_waiting_events` in `query` and `dec_nb_waiting_events` in `~Wcb` -/
def recount (s : ResolverLoop) (d : TimedDns) : ResolverLoop :=
  { s with
    main := { s.main with
      nbWaitingEvents := s.main.nbWaitingEvents + (d.nbWaitingEvents - s.resolver.nbWaitingEvents)
      held := s.own + d.nbWaitingEvents.toNat }
    resolver := d }

/-- A step of `run`, not of user code -/
def ofRun : MainLoop.Input → Bool
  | .loop (.poll _) | .loop (.next _ _) | .run | .pollError _ => true
  | _ => false

/-- `run` goes on when the callbacks of the resolver have returned. -/
def apply (R : BinStream κ) (s : ResolverLoop) : Input → Exec ResolverLoop
  | .main .incNbWaitingEvents =>
    (s.main.apply .incNbWaitingEvents).map fun m => { s with main := m, own := s.own + 1 }
  | .main .decNbWaitingEvents =>
    if s.own = 0 then .ret s
    else (s.main.apply .decNbWaitingEvents).map fun m => { s with main := m, own := s.own - 1 }
  | .main i =>
    if ofRun i && s.resolver.dns.depth ≠ 0 then .ret s else (s.main.apply i).map s.withMain
  | .resolver i => (s.resolver.apply R i).map s.recount

/-- `run` comes to its test of `nb_waiting_events`. -/
def asks (s : ResolverLoop) : Input → Bool
  | .main i => decide (s.resolver.dns.depth = 0) && s.main.asks i
  | .resolver _ => false

/-- Nothing follows a step that does not return. -/
def step (R : BinStream κ) (e : Exec ResolverLoop) (i : Input) : Exec ResolverLoop :=
  e.andThen (fun s => s.apply R i)

end ResolverLoop

end Evel
