import Mathlib.Logic.Function.Basic
import Evel.General.Exec
import Evel.Model.BinStream

namespace Evel
open General

/-- The socket address of an IPv6 host, with the bytes of `sin6_addr`. -/
structure InetAddress where
  addr : List Byte
  port : Nat
deriving DecidableEq, Repr

/-- The constructor from 4 bytes: an IPv4 address is a mapped one. -/
def InetAddress.ofV4 (ip : List Byte) (port : Nat) : InetAddress :=
  { addr := List.replicate 10 0 ++ [255, 255] ++ ip, port := port }

/-- The constructor from 16 bytes. -/
def InetAddress.ofV6 (ip : List Byte) (port : Nat) : InetAddress := { addr := ip, port := port }

namespace Dns

/-- A host name, or a line of text. -/
abbrev Name := List Byte

/-- Each callback that is given to `query` gets a number of its own. -/
abbrev CallbackId := Nat

/-- The error code of a callback. -/
inductive Err
  | ok
  | noResolvEntry
  | timeout
deriving DecidableEq, Repr

structure Call where
  cb : CallbackId
  err : Err
  ipAddrs : List InetAddress
deriving DecidableEq, Repr

structure Wcb where
  name : Name
  cbs : List CallbackId
  num : UInt16
deriving DecidableEq, Repr

structure Entry where
  ipAddrs : List InetAddress
  name : Name
  ttl : Nat
deriving DecidableEq, Repr

/-- What `operator[]` makes for a new key. -/
def Entry.new : Entry := { ipAddrs := [], name := [], ttl := 0 }

def Entry.addAddr (ttl : Nat) (ip : InetAddress) (e : Entry) : Entry :=
  { e with ttl := ttl, ipAddrs := e.ipAddrs ++ [ip] }

/-- The loop over the callbacks of a request, with those that it has not come to. -/
structure Loop where
  name : Name
  left : List CallbackId
  err : Err
  ipAddrs : List InetAddress
deriving DecidableEq, Repr

/-- The end of a pending request: its callbacks, and all that have been called by then. -/
structure Removal where
  cbs : List CallbackId
  called : List CallbackId
deriving DecidableEq, Repr

/-- What a question or a record of a datagram asks of the resolver. -/
inductive Item
  /-- a question of type "any" and class IN -/
  | question (name : Name)
  /-- an A record of 4 bytes or an AAAA record of 16, checked if its class is IN -/
  | address (checked : Bool) (name : Name) (ttl : Nat) (ip : InetAddress)
deriving DecidableEq, Repr

structure Datagram where
  num : UInt16
  items : List Item
deriving DecidableEq, Repr

/-- The pointers `entry` and `wcb` of `ans`, as the keys of what they point to. -/
structure Pointers where
  entry : Option Name
  wcb : Option Name
deriving DecidableEq, Repr

/-- What the event loop and user code may do. -/
inductive Input
  /-- A call of `query`, with the number that is drawn, whether a push moves the callbacks in
  memory, and the lines of resolv.conf if it can be opened. -/
  | query (addr : Name) (num : UInt16) (moved : Bool) (resolvConf : Option (List Name))
  /-- A datagram comes in. -/
  | ans (data : List Byte)
  /-- The time of the request for this name is over. -/
  | timeout (name : Name)
  /-- The callback that runs returns. -/
  | ret
deriving DecidableEq, Repr

section Writing

/-- `write_byte( e - b )` and `write_some( b, e - b )`, for the characters from `b` to `e`. -/
def writeLabel (label : List Byte) : List Byte :=
  if label.length ≠ 0 then UInt8.ofNat label.length :: label else []

/-- The loop over `addr.c_str()`: `label` holds the characters from `b` to `e`. -/
def writeLabels : Name → List Byte → List Byte
  | [], label => writeLabel label
  | c :: cs, label =>
    if c = 46 ∨ c = 64 ∨ c = 0 then
      writeLabel label ++ if c = 0 then [] else writeLabels cs []
    else writeLabels cs (label ++ [c])

def qname (addr : Name) : List Byte := writeLabels addr [] ++ [0]

/-- The question section: QNAME, QTYPE (any) and QCLASS (internet). -/
def question (addr : Name) : List Byte := qname addr ++ writeBe16 0xFF ++ writeBe16 0x01

/-- The size of `req` -/
def maxReqSize : Nat := 1024

/-- What `query` writes to `req`. -/
def request (num : UInt16) (addr : Name) : List Byte :=
  writeBe16 num ++ [1, 0x00] ++ writeBe16 1 ++ writeBe16 0 ++ writeBe16 0 ++ writeBe16 0 ++
    question addr

end Writing

section Parsing
variable (R : BinStream κ)

/-- The loop of `read_cname`, for at most as many labels as there is fuel. -/
def readLabels : Nat → κ → Name → Name × κ
  | 0, cur, name => (name, cur)
  | fuel + 1, cur, name =>
    let (c, cur) := R.readByte cur
    if !R.ackReadSome c.toNat cur then ([], cur)
    else if c = 0 then (name, cur)
    else
      let name := if name.isEmpty then name else name ++ [46]
      readLabels fuel (R.skipSome c.toNat cur) (name ++ R.ptr c.toNat cur)

def readCname (cur : κ) : Name × κ := readLabels R (R.size cur + 1) cur []

def readQuestion (cur : κ) : Option Item × κ :=
  let (name, cur) := readCname R cur
  let (qtype, cur) := R.readBe16 cur
  let (qclass, cur) := R.readBe16 cur
  (if qtype = 255 ∧ qclass = 1 then some (.question name) else none, cur)

/-- The name a record is about. The labels are read after their first length has been. -/
def readOwner (data : List Byte) (cur : κ) : Name × κ :=
  let (c, cur) := R.readByte cur
  if 128 + 64 ≤ c then
    let (d, cur) := R.readByte cur
    let offset := ((c.toNat - (128 + 64)) <<< 8) + d.toNat
    ((readCname R (R.ofData (data.drop (min offset data.length)))).1, cur)
  else readCname R cur

def readRecord (data : List Byte) (cur : κ) : Option Item × κ :=
  let (name, cur) := readOwner R data cur
  let (type, cur) := R.readBe16 cur
  let (qclass, cur) := R.readBe16 cur
  let (ttl, cur) := R.readBe32 cur
  let (rlen, cur) := R.readBe16 cur
  if type = 1 ∧ rlen = 4 then
    let (ip, cur) := R.readSome 4 cur
    (some (.address (qclass = 1) name ttl.toNat (.ofV4 ip 0)), cur)
  else if type = 28 ∧ rlen = 16 then
    let (ip, cur) := R.readSome 16 cur
    (some (.address (qclass = 1) name ttl.toNat (.ofV6 ip 0)), cur)
  else (none, R.skipSome rlen.toNat cur)

def readItems (read : κ → Option Item × κ) : Nat → κ → List Item × κ
  | 0, cur => ([], cur)
  | n + 1, cur =>
    let (i, cur) := read cur
    let (is, cur) := readItems read n cur
    (i.toList ++ is, cur)

/-- What `ans` reads. No read depends on what has been done with the ones before it. -/
def parse (data : List Byte) : Datagram :=
  let cur := R.ofData data
  let (num, cur) := R.readBe16 cur
  let (_, cur) := R.readByte cur
  let (_, cur) := R.readByte cur
  let (nbQuestions, cur) := R.readBe16 cur
  let (nbAnswers, cur) := R.readBe16 cur
  let (nbDomauth, cur) := R.readBe16 cur
  let (nbAddsect, cur) := R.readBe16 cur
  let (questions, cur) := readItems (readQuestion R) nbQuestions.toNat cur
  let (records, _) := readItems (readRecord R data)
    (nbAnswers.toNat + nbDomauth.toNat + nbAddsect.toNat * 0) cur
  { num := num, items := questions ++ records }

end Parsing

def isASpace (c : Byte) : Bool := c = 32 || c = 9

def isACurl (c : Byte) : Bool :=
  (48 ≤ c && c ≤ 57) || (97 ≤ c && c ≤ 122) || (65 ≤ c && c ≤ 90) || c = 46 || c = 58

/-- The word "nameserver", with the space after it. -/
def nameserverWord : Name := [110, 97, 109, 101, 115, 101, 114, 118, 101, 114, 32]

/-- The server that a line of resolv.conf names. -/
def nameserver (line : Name) : Option Name :=
  match line.dropWhile isASpace with
  | [] => none
  | c :: cs =>
    let d := c :: cs
    if c = 35 ∨ c = 59 then none
    else if 11 < d.length ∧ d.take 11 = nameserverWord then some ((d.drop 11).takeWhile isACurl)
    else none

def readResolvConf (lines : List Name) : List Name := lines.filterMap nameserver

end Dns

/-- `Dns`. A callback is running for each unit of `depth`, and a loop waits for the first of
them if there is one. -/
structure Dns where
  cachedEntries : Dns.Name → Option Dns.Entry
  waitingReqs : Dns.Name → Option Dns.Wcb
  serverIps : List Dns.Name
  usedResolv : Bool
  nextCb : Dns.CallbackId
  depth : Nat
  loop : Option Dns.Loop
  calls : List Dns.Call
  removals : List Dns.Removal

namespace Dns

def new : Dns :=
  { cachedEntries := fun _ => none, waitingReqs := fun _ => none, serverIps := [],
    usedResolv := false, nextCb := 0, depth := 0, loop := none, calls := [], removals := [] }

/-- The callbacks that have been called. -/
def called (s : Dns) : List CallbackId := s.calls.map Call.cb

def setEntry (name : Name) (e : Entry) (s : Dns) : Dns :=
  { s with cachedEntries := Function.update s.cachedEntries name (some e) }

def setWcb (name : Name) (w : Wcb) (s : Dns) : Dns :=
  { s with waitingReqs := Function.update s.waitingReqs name (some w) }

def call (cb : CallbackId) (err : Err) (ipAddrs : List InetAddress) (s : Dns) : Dns :=
  { s with depth := s.depth + 1, calls := s.calls ++ [⟨cb, err, ipAddrs⟩] }

/-- `waiting_reqs.erase` -/
def erase (name : Name) (s : Dns) : Dns :=
  match s.waitingReqs name with
  | none => s
  | some wcb =>
    { s with waitingReqs := Function.update s.waitingReqs name none,
             removals := s.removals ++ [⟨wcb.cbs, s.called⟩] }

/-- The loop calls the next callback, or the request is erased. -/
def proceed (s : Dns) : Dns :=
  match s.loop with
  | none => s
  | some l =>
    match l.left with
    | [] => { s with loop := none }.erase l.name
    | cb :: left => { s with loop := some { l with left := left } }.call cb l.err l.ipAddrs

def startLoop (l : Loop) (s : Dns) : Dns := { s with loop := some l }.proceed

/-- A loop over the callbacks of this request is under way. -/
def looping (name : Name) (s : Dns) : Bool := s.loop.any (fun l => l.name = name)

/-- The end of `query`, for a request that has been registered. The process aborts if
resolv.conf cannot be opened. -/
def send (cb : CallbackId) (resolvConf : Option (List Name)) (s : Dns) : Exec Dns :=
  let finish (s : Dns) : Dns := if s.serverIps.isEmpty then s.call cb .noResolvEntry [] else s
  if s.serverIps.isEmpty && !s.usedResolv then
    match resolvConf with
    | none => .hang { s with usedResolv := true }
    | some lines => .ret (finish { s with usedResolv := true, serverIps := readResolvConf lines })
  else .ret (finish s)

/-- A push to the callbacks of a loop that is under way leaves the loop its old end, and its
old memory too if the callbacks are moved. Nothing bounds what is written to `req`. -/
def query (addr : Name) (num : UInt16) (moved : Bool) (resolvConf : Option (List Name))
    (s : Dns) : Exec Dns :=
  let cb := s.nextCb
  let s := { s with nextCb := cb + 1 }
  match s.cachedEntries addr with
  | some entry => .ret (s.call cb .ok entry.ipAddrs)
  | none =>
    match s.waitingReqs addr with
    | some wcb =>
      let s' := s.setWcb addr { wcb with cbs := wcb.cbs ++ [cb] }
      if moved && s.looping addr then .undef s' else .ret s'
    | none =>
      let s' := s.setWcb addr { name := addr, cbs := [cb], num := num }
      if maxReqSize < (request num addr).length then .undef s' else s'.send cb resolvConf

/-- The servers that `query` knows when it has registered a request. -/
def servers (resolvConf : Option (List Name)) (s : Dns) : List Name :=
  if s.serverIps.isEmpty && !s.usedResolv then resolvConf.elim [] readResolvConf else s.serverIps

/-- What `query` writes from the start of `req` on, before it looks for a server. -/
def queryBuilds (addr : Name) (num : UInt16) (s : Dns) : Option (List Byte) :=
  match s.cachedEntries addr, s.waitingReqs addr with
  | none, none => some (request num addr)
  | _, _ => none

/-- What `query` gives to the socket, if it comes to that. -/
def querySends (addr : Name) (num : UInt16) (resolvConf : Option (List Name)) (s : Dns) :
    Option (List Byte) :=
  if (s.servers resolvConf).isEmpty then none else s.queryBuilds addr num

/-- `check_name`, with what `entry` and `wcb` are after it. -/
def checkName (num : UInt16) (name : Name) (p : Pointers) (s : Dns) : Bool × Pointers × Dns :=
  match p.entry with
  | some key => (decide ((s.cachedEntries key).map Entry.name = some name), p, s)
  | none =>
    match s.waitingReqs name with
    | none => (false, p, s)
    | some wcb =>
      let p := { p with wcb := some name }
      if wcb.num ≠ num then (false, p, s)
      else
        let entry := (s.cachedEntries name).getD .new
        (true, { p with entry := some name }, s.setEntry name { entry with name := name })

/-- How far the two loops of `ans` have come: they may return early, meet a null `entry`, or
go on. -/
inductive Progress
  | early (s : Dns)
  | undef (s : Dns)
  | on (p : Pointers) (s : Dns)

def takeItem (num : UInt16) (p : Pointers) (s : Dns) : Item → Progress
  | .question name =>
    let (ok, p, s) := s.checkName num name p
    if ok then .on p s else .early s
  | .address checked name ttl ip =>
    let (ok, p, s) := if checked then s.checkName num name p else (true, p, s)
    if ok then
      match p.entry with
      | none => .undef s
      | some key =>
        match s.cachedEntries key with
        | none => .undef s
        | some e => .on p (s.setEntry key (e.addAddr ttl ip))
    else .early s

def takeItems (num : UInt16) : List Item → Pointers → Dns → Progress
  | [], p, s => .on p s
  | i :: is, p, s =>
    match s.takeItem num p i with
    | .on p s => takeItems num is p s
    | r => r

/-- `ans` up to the callbacks. -/
def readAns (d : Datagram) (s : Dns) : Progress :=
  takeItems d.num d.items { entry := none, wcb := none } s

def ans (d : Datagram) (s : Dns) : Exec Dns :=
  match s.readAns d with
  | .early s => .ret s
  | .undef s => .undef s
  | .on p s =>
    match p.wcb with
    | none => .ret s
    | some key =>
      match s.waitingReqs key, p.entry.bind s.cachedEntries with
      | some wcb, some entry => .ret (s.startLoop ⟨entry.name, wcb.cbs, .ok, entry.ipAddrs⟩)
      | _, _ => .undef s

/-- `Wcb::on_timeout` -/
def onTimeout (name : Name) (s : Dns) : Dns :=
  match s.waitingReqs name with
  | none => s
  | some wcb => s.startLoop ⟨wcb.name, wcb.cbs, .timeout, []⟩

/-- A callback returns to the one that called `query`, or to the loop. -/
def ret (s : Dns) : Dns :=
  match s.depth with
  | 0 => s
  | 1 => { s with depth := 0 }.proceed
  | d + 1 => { s with depth := d }

/-- The event loop comes to `ans` and `on_timeout` when no callback runs. -/
def apply (R : BinStream κ) (s : Dns) : Input → Exec Dns
  | .query addr num moved resolvConf => s.query addr num moved resolvConf
  | .ans data => if s.depth = 0 then s.ans (parse R data) else .ret s
  | .timeout name => .ret (if s.depth = 0 then s.onTimeout name else s)
  | .ret => .ret s.ret

/-- Nothing follows an undefined step, nor the end of the process. -/
def step (R : BinStream κ) (e : Exec Dns) (i : Input) : Exec Dns :=
  e.andThen (fun s => s.apply R i)

end Dns

end Evel
