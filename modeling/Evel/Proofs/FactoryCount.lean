import Evel.General.Census
import Evel.General.Runs
import Evel.Model.UdpConnectionFactory

namespace Evel
open General

namespace Dtls

/-- The loop around `SSL_do_handshake` goes round. -/
def HandshakeAnswer.again (h : HandshakeAnswer) : Bool :=
  h.err = .wantWrite || h.err = .syscall .intr

/-- The error that ends the loop -/
def lastErr (hs : List HandshakeAnswer) : Option SslError :=
  (hs.find? (fun h => !h.again)).map HandshakeAnswer.err

/-- The handshake finishes in the loop. -/
def finishes : List HandshakeAnswer → Bool
  | [] => false
  | h :: hs => h.finishes || h.again && finishes hs

/-- The constructor does not return early, and leaves the handshake unfinished. -/
structure NewAnswer.Sound (n : NewAnswer) : Prop where
  made : (n.sslNew && n.inpBio && n.outBio) = true
  goesOn : n.server = false →
    ∀ err ∈ lastErr n.handshake, err.fatal = false ∧ finishes n.handshake = false

end Dtls

namespace Factory
open Dtls
variable {Addr : Type u}

def NewConn.Sound : NewConn → Prop
  | .plain => True
  | .dtls n => n.Sound

def Conn.stage : Conn Addr → Option Bool
  | .plain _ => none
  | .dtls c => some c.initFinished

/-- A new handshake is not finished. -/
def NewConn.stage : NewConn → Option Bool
  | .plain => none
  | .dtls _ => some false

/-- Fair changes end with a count that is not negative, and call `Event::close` when and only when
the last live connection of a socket to be closed goes. -/
structure Change.Fair (c : Change) : Prop where
  nonneg : 0 ≤ c.after.nbLiveConn
  prompt : c.eventClose = true ↔ c.after.over = true ∧ c.before.over = false

variable [DecidableEq Addr]

/-- The connections after a call -/
def Call.known (known : List Addr) : Call Addr → List Addr
  | .connection dst _ => if dst ∈ known then known else dst :: known
  | _ => known

/-- The constructor of a new connection is sound, and no handshake finishes in `send`. -/
def Call.Sound (known : List Addr) : Call Addr → Prop
  | .connection dst n => dst ∉ known → n.Sound
  | .send _ _ _ _ finishes => finishes = false
  | _ => True

def callsKnown (known : List Addr) : List (Call Addr) → List Addr
  | [] => known
  | k :: ks => callsKnown (k.known known) ks

def CallsSound (known : List Addr) : List (Call Addr) → Prop
  | [] => True
  | k :: ks => k.Sound known ∧ CallsSound (k.known known) ks

def ReadsSound (known : List Addr) : List (ReadAnswer Addr) → Prop
  | [] => True
  | r :: rs =>
    match r.err with
    | .none => CallsSound known r.parse ∧ ReadsSound (callsKnown known r.parse) rs
    | .wantWrite | .syscall .intr => ReadsSound known rs
    | _ => True

/-- What a parse does to a connection at this stage. A handshake that finishes ends with
SSL_ERROR_NONE. -/
def ParseAnswer.Sound (known : List Addr) (p : ParseAnswer Addr) : Option Bool → Prop
  | none => CallsSound known p.parse
  | some true => ReadsSound known p.reads
  | some false => finishes p.handshake = true →
      ∀ err ∈ lastErr p.handshake, err = .none ∧ CallsSound known p.onRdy

end Factory

namespace Endpoint
open Dtls
variable {Addr : Type u}

theorem shake_stop (h : HandshakeAnswer) (ha : h.again = false) (hs : List HandshakeAnswer) :
    finishes (h :: hs) = h.finishes ∧ lastErr (h :: hs) = some h.err := by
  simp [finishes, lastErr, ha]

theorem shake_again (h : HandshakeAnswer) (ha : h.again = true) (hs : List HandshakeAnswer) :
    finishes (h :: hs) = (h.finishes || finishes hs) ∧ lastErr (h :: hs) = lastErr hs := by
  simp [finishes, lastErr, ha]

/-- The loop ends with the last error of its answers, and with a handshake that is finished if one
of them finished it. -/
theorem handshake_spec (hs : List HandshakeAnswer) (finished : Bool) (e : Endpoint Addr) :
    (e.handshake hs finished).Split
      (fun h => h.initFinished = (finished || finishes hs) ∧ lastErr hs = some h.err)
      (fun _ => True) := by
  induction hs generalizing finished e with
  | nil => trivial
  | cons h hs ih =>
    rw [handshake]
    split
    · next he =>
      obtain ⟨hf, hl⟩ := shake_stop h (by simp [HandshakeAnswer.again, he]) hs
      rw [Exec.split_map, hf, hl, he]
      exact .all (fun _ => ⟨rfl, rfl⟩) (fun _ => trivial) _
    · next he =>
      obtain ⟨hf, hl⟩ := shake_stop h (by simp [HandshakeAnswer.again, he]) hs
      rw [Exec.split_map, hf, hl, he]
      exact .all (fun _ => ⟨rfl, rfl⟩) (fun _ => trivial) _
    · next he =>
      obtain ⟨hf, hl⟩ := shake_again h (by simp [HandshakeAnswer.again, he]) hs
      rw [hf, hl, ← Bool.or_assoc]
      exact .thenWith (.all (fun _ => trivial) (fun _ => trivial) _) (fun e _ => ih _ e)
        (fun _ _ => trivial)
    · next he =>
      obtain ⟨hf, hl⟩ := shake_again h (by simp [HandshakeAnswer.again, he]) hs
      rw [hf, hl, ← Bool.or_assoc]
      exact ih _ e
    · next hw hi =>
      obtain ⟨hf, hl⟩ := shake_stop h (by simpa [HandshakeAnswer.again] using ⟨hw, hi⟩) hs
      rw [hf, hl]
      exact ⟨rfl, rfl⟩

end Endpoint

namespace UdpConnectionFactory
open Dtls Factory
variable {Addr : Type u}

/-- Every change so far has been fair. -/
def LogFair (s : UdpConnectionFactory Addr) : Prop := ∀ c ∈ s.log, c.Fair

theorem LogFair.change {s : UdpConnectionFactory Addr} (h : s.LogFair)
    (hf : Change.Fair ⟨s.count, c, closes⟩) : (s.change c closes outq).LogFair := by
  intro c' hc
  rw [change_log] at hc
  rcases List.mem_append.mp hc with hc | hc
  · exact h c' hc
  · rw [List.mem_singleton.mp hc]
    exact hf

theorem LogFair.inc {s : UdpConnectionFactory Addr} (h : s.LogFair) (hn : 0 ≤ s.nbLiveConn) :
    s.incNbLiveConn.LogFair :=
  h.change ⟨by simp only; omega, by
    have : s.nbLiveConn + 1 ≠ 0 := by omega
    simp [Count.over, this]⟩

theorem LogFair.dec {s : UdpConnectionFactory Addr} (h : s.LogFair) (hn : 0 < s.nbLiveConn) :
    (s.decNbLiveConn outq).LogFair :=
  h.change ⟨by simp only; omega, by
    have : s.nbLiveConn ≠ 0 := by omega
    simp [Count.over, count, this, and_comm]⟩

theorem LogFair.close {s : UdpConnectionFactory Addr} (h : s.LogFair)
    (hn : 0 ≤ s.nbLiveConn) : (s.close outq).LogFair := by
  unfold UdpConnectionFactory.close
  split
  · exact h
  · next hw => exact h.change ⟨hn, by simp [Count.over, count, hw]⟩

/-- The books of a factory. `late` is a connection whose handshake has finished and that is still
counted. -/
structure Books [DecidableEq Addr] (late : Option Addr) (s : UdpConnectionFactory Addr) :
    Prop where
  nodup : s.connections.Nodup
  present : ∀ a, late = some a → a ∈ s.connections ∧ (s.conn a).handshaking = false
  settled : ∀ a ∈ s.connections,
    (s.conn a).owes = ((s.conn a).handshaking || decide (late = some a))
  count : s.nbLiveConn = census Conn.owes s.connections s.conn
  fair : s.LogFair

/-- What the books are about is the same. -/
structure Same (s s' : UdpConnectionFactory Addr) : Prop where
  connections : s'.connections = s.connections
  owes : ∀ a, (s'.conn a).owes = (s.conn a).owes
  stage : ∀ a, (s'.conn a).stage = (s.conn a).stage
  count : s'.count = s.count
  log : s'.log = s.log

theorem Same.refl (s : UdpConnectionFactory Addr) : Same s s :=
  ⟨rfl, fun _ => rfl, fun _ => rfl, rfl, rfl⟩

theorem same_setEvent (e : Event) (s : UdpConnectionFactory Addr) : Same s (s.setEvent e) :=
  ⟨rfl, fun _ => rfl, fun _ => rfl, rfl, rfl⟩

theorem same_sendRaw {s : UdpConnectionFactory Addr} (a : Addr) (data : Buffer) (allow : Bool)
    (script : List SysAnswer) :
    (s.sendRaw a data allow script).Split (Same s) (fun _ => True) := by
  rw [sendRaw, Exec.split_map]
  exact .all (fun _ => ⟨rfl, fun _ => rfl, fun _ => rfl, rfl, rfl⟩) (fun _ => trivial) _

theorem handshaking_eq (c : Conn Addr) : c.handshaking = decide (c.stage = some false) := by
  cases c with
  | plain nextDel => rfl
  | dtls c => cases h : c.initFinished <;> simp [Conn.handshaking, Conn.stage, h]

theorem Same.handshaking {s s' : UdpConnectionFactory Addr} (h : Same s s') (a : Addr) :
    (s'.conn a).handshaking = (s.conn a).handshaking := by
  rw [handshaking_eq, handshaking_eq, h.stage]

variable [DecidableEq Addr]

theorem Books.same {s s' : UdpConnectionFactory Addr} (h : Books late s) (hs : Same s s') :
    Books late s' where
  nodup := hs.connections ▸ h.nodup
  present a ha := by
    rw [hs.connections, hs.handshaking]
    exact h.present a ha
  settled a ha := by
    rw [hs.owes, hs.handshaking]
    exact h.settled a (hs.connections ▸ ha)
  count := by
    have hn : s'.nbLiveConn = s.nbLiveConn := congrArg Count.nbLiveConn hs.count
    rw [hn, hs.connections, census_congr (fun a _ => hs.owes a)]
    exact h.count
  fair c hc := h.fair c (hs.log ▸ hc)

theorem Books.nonneg {s : UdpConnectionFactory Addr} (h : Books late s) : 0 ≤ s.nbLiveConn := by
  rw [h.count]
  exact Int.natCast_nonneg _

/-- The books are right when one more connection is counted off. -/
theorem books_dec {s : UdpConnectionFactory Addr} (hnodup : s.connections.Nodup)
    (hsettled : ∀ a ∈ s.connections, (s.conn a).owes = (s.conn a).handshaking)
    (hcount : s.nbLiveConn = census Conn.owes s.connections s.conn + 1) (hfair : s.LogFair) :
    Books none (s.decNbLiveConn outq) where
  nodup := by simpa [decNbLiveConn] using hnodup
  present := by simp
  settled := by simpa [decNbLiveConn] using hsettled
  count := by
    have hdec : (s.decNbLiveConn outq).nbLiveConn = s.nbLiveConn - 1 :=
      congrArg Count.nbLiveConn (dec_count outq s)
    rw [hdec]
    simp only [decNbLiveConn, change_connections, change_conn]
    omega
  fair := hfair.dec (by omega)

section frame
variable {s : UdpConnectionFactory Addr}

theorem same_put (ho : c.owes = (s.conn a).owes) (hc : c.stage = (s.conn a).stage)
    (socket : UdpSocket Addr) : Same s (s.put a c socket) where
  connections := rfl
  owes b := by
    by_cases hb : b = a
    · subst hb
      simpa [put] using ho
    · simp [put, hb]
  stage b := by
    by_cases hb : b = a
    · subst hb
      simpa [put] using hc
    · simp [put, hb]
  count := rfl
  log := rfl

theorem same_putEndpoint (hc : s.conn a = .dtls c) (e : Endpoint Addr) :
    Same s (s.putEndpoint a c e) :=
  same_put (by rw [hc]; rfl) (by rw [hc]; rfl) _

theorem same_delConn (a : Addr) : Same s (s.delConn a) := by
  unfold delConn
  split
  · next b hc => exact same_put (by rw [hc]; rfl) (by rw [hc]; rfl) _
  · next c hc => exact same_putEndpoint hc _

theorem same_closeConn (a : Addr) : (s.closeConn a).Split (Same s) (fun _ => True) := by
  unfold closeConn
  split
  · exact same_delConn a
  · next c hc =>
    split_ifs
    · exact same_delConn a
    · exact same_put (by rw [hc]; rfl) (by rw [hc]; rfl) _
    · trivial

/-- A `send` that does not finish the handshake. -/
theorem same_send (hc : s.conn a = .dtls c) (data : Buffer) (allow : Bool)
    (script : List WriteAnswer) :
    (s.send a c data allow script false).Split (Same s) (fun _ => True) := by
  rw [send, Exec.split_map]
  refine .all (fun r => ?_) (fun _ => trivial) _
  simp only [Bool.and_false, Bool.or_false]
  exact same_putEndpoint hc r.1

theorem same_within (a : Addr) (f : Endpoint Addr → Exec (Endpoint Addr)) :
    (s.within a f).Split (Same s) (fun _ => True) := by
  unfold within
  split
  · exact .refl s
  · next c hc =>
    rw [Exec.split_map]
    exact .all (fun e => same_putEndpoint hc e) (fun _ => trivial) _

end frame

theorem Books.close {s : UdpConnectionFactory Addr} (h : Books late s) :
    Books late (s.close outq) where
  nodup := by simpa using h.nodup
  present := by simpa using h.present
  settled := by simpa using h.settled
  count := by
    have hn : (s.close outq).nbLiveConn = s.nbLiveConn :=
      congrArg Count.nbLiveConn (close_count outq s)
    simpa [hn] using h.count
  fair := h.fair.close h.nonneg

section insert
variable {s : UdpConnectionFactory Addr}

/-- A connection that is not counted. -/
theorem Books.insert (h : Books late s) (hd : dst ∉ s.connections) (ho : c.owes = false)
    (hc : c.handshaking = false) (socket : UdpSocket Addr) :
    Books late (s.insert dst c socket) where
  nodup := List.nodup_cons.mpr ⟨hd, h.nodup⟩
  present a ha := by
    obtain ⟨hm, hh⟩ := h.present a ha
    have hne : a ≠ dst := fun hne => hd (hne ▸ hm)
    exact ⟨List.mem_cons_of_mem _ hm, by simpa [UdpConnectionFactory.insert, put, hne] using hh⟩
  settled a ha := by
    by_cases hne : a = dst
    · subst hne
      have hl : late ≠ some a := fun hl => hd (h.present a hl).1
      simp [UdpConnectionFactory.insert, put, ho, hc, hl]
    · have ha : a ∈ s.connections := (List.mem_cons.mp ha).resolve_left hne
      simpa [UdpConnectionFactory.insert, put, hne] using h.settled a ha
  count := by
    simp [UdpConnectionFactory.insert, put, census_cons, census_update_of_notMem hd, ho, h.count]
  fair := h.fair

/-- A connection in its handshake is counted. -/
theorem Books.insertLive (h : Books late s) (hd : dst ∉ s.connections) (ho : c.owes = true)
    (hc : c.handshaking = true) (socket : UdpSocket Addr) :
    Books late (s.incNbLiveConn.insert dst c socket) where
  nodup := List.nodup_cons.mpr ⟨hd, h.nodup⟩
  present a ha := by
    obtain ⟨hm, hh⟩ := h.present a ha
    have hne : a ≠ dst := fun hne => hd (hne ▸ hm)
    refine ⟨List.mem_cons_of_mem _ hm, ?_⟩
    simpa [UdpConnectionFactory.insert, put, hne, incNbLiveConn, change] using hh
  settled a ha := by
    by_cases hne : a = dst
    · subst hne
      simp [UdpConnectionFactory.insert, put, ho, hc]
    · have ha : a ∈ s.connections := (List.mem_cons.mp ha).resolve_left hne
      simpa [UdpConnectionFactory.insert, put, hne, incNbLiveConn, change] using h.settled a ha
  count := by
    simp [UdpConnectionFactory.insert, put, census_cons, census_update_of_notMem hd, ho, h.count,
      incNbLiveConn, change]
  fair := h.fair.inc h.nonneg

/-- A sound constructor keeps the books, and its handshake is not finished. -/
theorem Books.construct (h : Books late s) (hd : dst ∉ s.connections) (hn : n.Sound) :
    (s.construct dst n).Split
      (fun s' => Books late s' ∧ s'.connections = dst :: s.connections ∧
        (s'.conn dst).stage = n.stage) (fun _ => True) := by
  cases n with
  | plain => exact ⟨h.insert hd rfl rfl _, rfl, by simp [UdpConnectionFactory.insert, put]; rfl⟩
  | dtls n =>
    have hn : n.Sound := hn
    unfold UdpConnectionFactory.construct
    dsimp only
    rw [if_pos hn.made]
    split_ifs with hserver
    · exact ⟨h.insertLive hd rfl rfl _, rfl, by simp [UdpConnectionFactory.insert, put]; rfl⟩
    · have hserver : n.server = false := by simpa using hserver
      refine .thenWith (Endpoint.handshake_spec n.handshake false _) (fun e he => ?_)
        (fun _ _ => trivial)
      obtain ⟨hfin, herr⟩ := he
      obtain ⟨hfatal, hnot⟩ := hn.goesOn hserver e.err herr
      have hfin : e.initFinished = false := by simpa [hnot] using hfin
      rw [if_neg (by simp [hfatal])]
      refine ⟨h.insertLive hd rfl (by simp [Conn.handshaking, hfin]) _, rfl, ?_⟩
      simp [UdpConnectionFactory.insert, put, Conn.stage, NewConn.stage, hfin]

end insert

/-- The stage of the connection that a datagram from `src` is for. -/
def stageOf (src : Addr) (n : NewConn) (s : UdpConnectionFactory Addr) : Option Bool :=
  if src ∈ s.connections then (s.conn src).stage else n.stage

theorem Books.connection {s : UdpConnectionFactory Addr} (h : Books late s)
    (hn : (Call.connection dst n).Sound s.connections) :
    (s.connection dst n).Split
      (fun s' => Books late s' ∧
        s'.connections = (Call.connection dst n).known s.connections ∧
        (s'.conn dst).stage = s.stageOf dst n) (fun _ => True) := by
  unfold UdpConnectionFactory.connection stageOf
  simp only [Call.known]
  split_ifs with hd
  · exact ⟨h, rfl, rfl⟩
  · exact h.construct hd (hn hd)

/-- What a call of the user keeps. -/
theorem Books.call {s : UdpConnectionFactory Addr} (h : Books late s) {k : Call Addr}
    (hk : k.Sound s.connections) :
    (s.call outq k).Split
      (fun s' => Books late s' ∧ s'.connections = k.known s.connections) (fun _ => True) := by
  have hsame : ∀ e : Exec (UdpConnectionFactory Addr), e.Split (Same s) (fun _ => True) →
      e.Split (fun s' => Books late s' ∧ s'.connections = s.connections) (fun _ => True) :=
    fun e he => he.mono (fun s' hs => ⟨h.same hs, hs.connections⟩) (fun _ _ => trivial)
  cases k with
  | connection dst n =>
    exact (h.connection hk).mono (fun s' hs => ⟨hs.1, hs.2.1⟩) (fun _ _ => trivial)
  | sendRaw a data allow script =>
    apply hsame
    simp only [UdpConnectionFactory.call]
    split
    · exact same_sendRaw a data allow script
    · exact .refl s
  | send a data allow script finishes =>
    apply hsame
    have hf : finishes = false := hk
    subst hf
    simp only [UdpConnectionFactory.call]
    split
    · exact .refl s
    · next c hc =>
      split
      · exact same_send hc data allow script
      · exact .refl s
  | closeConn a =>
    apply hsame
    simp only [UdpConnectionFactory.call]
    split
    · exact same_closeConn a
    · exact .refl s
  | delConn a =>
    apply hsame
    simp only [UdpConnectionFactory.call]
    split
    · exact same_delConn a
    · exact .refl s
  | close => exact ⟨h.close, close_connections outq s⟩

theorem Books.calls {s : UdpConnectionFactory Addr} (h : Books late s) {ks : List (Call Addr)}
    (hk : CallsSound s.connections ks) :
    (s.calls outq ks).Split
      (fun s' => Books late s' ∧ s'.connections = callsKnown s.connections ks)
      (fun _ => True) := by
  induction ks generalizing s with
  | nil => exact ⟨h, rfl⟩
  | cons k ks ih =>
    refine (h.call hk.1).andThen (fun s' hs => ?_)
    simp only [callsKnown, ← hs.2]
    exact ih hs.1 (hs.2 ▸ hk.2)

section parse
variable {s : UdpConnectionFactory Addr}

/-- A connection whose handshake finishes is counted until `_parse` has called `on_rdy`. -/
theorem Books.finish (h : Books none s) (ha : a ∈ s.connections) (hc : s.conn a = .dtls c)
    (hi : c.initFinished = false) (e : Endpoint Addr) :
    Books (some a) (s.putEndpoint a { c with initFinished := true } e) where
  nodup := h.nodup
  present b hb := by
    have hb := Option.some.inj hb
    subst hb
    exact ⟨ha, by simp [putEndpoint, put, Conn.handshaking]⟩
  settled b hb := by
    by_cases hne : b = a
    · subst hne
      have ho := h.settled b ha
      simp only [hc, Conn.owes, Conn.handshaking, hi] at ho
      simp [putEndpoint, put, Conn.owes, ho]
    · have hl : a ≠ b := fun hab => hne hab.symm
      have ho := h.settled b hb
      simp only [reduceCtorEq, decide_false, Bool.or_false] at ho
      simp [putEndpoint, put, hne, hl, ho]
  count := by
    simp only [putEndpoint, put]
    rw [census_update_same (by rw [hc]; rfl)]
    exact h.count
  fair := h.fair

/-- The connection that is late is counted off. -/
theorem Books.countOff {s' : UdpConnectionFactory Addr} (h : Books (some a) s) (c : Conn Addr)
    (socket : UdpSocket Addr) (hs : Same (s.put a c socket) s') (ho : c.owes = false)
    (hc : c.stage = (s.conn a).stage) :
    Books none (s'.decNbLiveConn outq) := by
  obtain ⟨ha, hh⟩ := h.present a rfl
  have howes : (s.conn a).owes = true := by simpa using h.settled a ha
  have hdrop : census Conn.owes s.connections (Function.update s.conn a c) + 1 =
      census Conn.owes s.connections s.conn := census_update_drop h.nodup ha howes ho
  have hcensus : census Conn.owes s'.connections s'.conn =
      census Conn.owes s.connections (Function.update s.conn a c) := by
    rw [hs.connections]
    exact census_congr (fun b _ => hs.owes b)
  have hn : s'.nbLiveConn = s.nbLiveConn := congrArg Count.nbLiveConn hs.count
  have hcount := h.count
  refine books_dec (hs.connections ▸ h.nodup) (fun b hb => ?_) (by omega)
    (fun c' hc' => h.fair c' (hs.log ▸ hc'))
  rw [hs.connections] at hb
  rw [hs.owes, hs.handshaking]
  by_cases hne : b = a
  · subst hne
    rw [handshaking_eq] at hh ⊢
    simpa [put, ho, hc] using hh
  · have hl : a ≠ b := fun hab => hne hab.symm
    simpa [put, hne, hl] using h.settled b hb

theorem Books.ready (h : Books (some a) s) : Books none (s.ready a outq) := by
  obtain ⟨ha, hh⟩ := h.present a rfl
  unfold UdpConnectionFactory.ready
  split
  · next b hc => simpa [hc, Conn.owes] using h.settled a ha
  · next c hc =>
    refine h.countOff (.dtls { c with doneDecWaitOut := true }) s.socket ?_ rfl
      (by rw [hc]; rfl)
    split
    · exact same_delConn a
    · exact .refl _

/-- The handshake in `_parse`: it is finished only at its end. -/
theorem Books.shake (h : Books none s) (ha : a ∈ s.connections) (hc : s.conn a = .dtls c)
    (hi : c.initFinished = false) {p : ParseAnswer Addr}
    (hp : p.Sound s.connections (some false)) :
    (s.shake a c p outq).Split (Books none) (fun _ => True) := by
  refine .thenWith (Endpoint.handshake_spec p.handshake false _) (fun e he => ?_)
    (fun _ _ => trivial)
  obtain ⟨hfin, herr⟩ := he
  simp only [Bool.false_or] at hfin
  split
  · next hdone =>
    have hlate := h.finish ha hc hi e.endpoint
    refine (same_within a _).andThen (fun s' hs => ?_)
    have hk : CallsSound s'.connections p.onRdy := by
      rw [hs.connections]
      exact (hp (hfin ▸ hdone.2) e.err herr).2
    have hs : Same (s.putEndpoint a { c with initFinished := true } e.endpoint) s' := by
      simpa only [hdone.2] using hs
    exact ((hlate.same hs).calls hk).andThen (fun s'' hs => hs.1.ready)
  · next hdone =>
    have hfin : e.initFinished = false := by
      by_contra hne
      have hne : e.initFinished = true := by simpa using hne
      exact hdone ⟨(hp (hfin ▸ hne) e.err herr).1, hne⟩
    have hsame : { c with initFinished := e.initFinished } = c := by
      rw [hfin, ← hi]
    simp only [hsame]
    exact h.same (same_putEndpoint hc e.endpoint)

theorem Books.readLoop (h : Books none s) (a : Addr) {rs : List (ReadAnswer Addr)}
    (hr : ReadsSound s.connections rs) :
    (s.readLoop a outq rs).Split (Books none) (fun _ => True) := by
  induction rs generalizing s with
  | nil => trivial
  | cons r rs ih =>
    have hwithin : (s.within a (Endpoint.flushOutBio r.flush)).Split
        (fun s' => Books none s' ∧ s'.connections = s.connections) (fun _ => True) :=
      (same_within a _).mono (fun s' hs => ⟨h.same hs, hs.connections⟩) (fun _ _ => trivial)
    unfold ReadsSound at hr
    unfold UdpConnectionFactory.readLoop
    split
    · next he =>
      simp only [he] at hr
      refine (h.calls hr.1).andThen (fun s' hs => ?_)
      refine (same_within a _).andThen (fun s'' hs' => ?_)
      split
      · exact hs.1.same hs'
      · exact ih (hs.1.same hs') (hs'.connections ▸ hs.2 ▸ hr.2)
    · exact hwithin.mono (fun _ hs => hs.1) (fun _ _ => trivial)
    · next he =>
      simp only [he] at hr
      exact hwithin.andThen (fun s' hs => ih hs.1 (hs.2 ▸ hr))
    · next he =>
      simp only [he] at hr
      exact ih h hr
    · exact h.same (same_delConn a)

theorem Books.parseConn (h : Books none s) (ha : a ∈ s.connections) {p : ParseAnswer Addr}
    (hp : p.Sound s.connections (s.conn a).stage) :
    (s.parseConn a p outq).Split (Books none) (fun _ => True) := by
  unfold UdpConnectionFactory.parseConn
  split
  · next b hc =>
    rw [hc] at hp
    exact (h.calls hp).mono (fun _ hs => hs.1) (fun _ _ => trivial)
  · next c hc =>
    rw [hc] at hp
    split_ifs with hssl hshort hi
    · trivial
    · have hp : p.Sound s.connections (some true) := by simpa only [Conn.stage, hi] using hp
      exact h.readLoop a hp
    · have hi : c.initFinished = false := by simpa using hi
      have hp : p.Sound s.connections (some false) := by simpa only [Conn.stage, hi] using hp
      exact h.shake ha hc hi hp
    · exact h

end parse

/-- The end of a connection: it is counted until its callback has returned. -/
theorem Books.endConn {s : UdpConnectionFactory Addr} (h : Books none s) (closes : Addr → Bool)
    (ha : a ∈ s.connections) : Books none (s.endConn closes outq a) := by
  have herase : census Conn.owes (s.connections.erase a) s.conn +
      (if (s.conn a).owes then 1 else 0) = census Conn.owes s.connections s.conn :=
    census_erase ha
  have hn : (s.fOnClose closes outq a).nbLiveConn = s.nbLiveConn :=
    congrArg Count.nbLiveConn (fOnClose_count closes outq s a)
  have hcount := h.count
  have hnodup : (s.fOnClose closes outq a).connections.Nodup := by
    simpa using h.nodup.erase a
  have hsettled : ∀ b ∈ (s.fOnClose closes outq a).connections,
      ((s.fOnClose closes outq a).conn b).owes =
        ((s.fOnClose closes outq a).conn b).handshaking := by
    intro b hb
    rw [fOnClose_connections] at hb
    simpa using h.settled b (List.mem_of_mem_erase hb)
  have hfair : (s.fOnClose closes outq a).LogFair := by
    unfold fOnClose
    dsimp only
    split
    · exact LogFair.close h.fair h.nonneg
    · exact h.fair
  unfold UdpConnectionFactory.endConn
  dsimp only
  split
  · next ho =>
    rw [if_pos ho] at herase
    refine books_dec hnodup hsettled ?_ hfair
    rw [fOnClose_connections, fOnClose_conn]
    omega
  · next ho =>
    rw [if_neg ho] at herase
    refine ⟨hnodup, by simp, by simpa using hsettled, ?_, hfair⟩
    rw [fOnClose_connections, fOnClose_conn]
    omega

theorem Books.workLoop (closes : Addr → Bool) (as : List Addr) {s : UdpConnectionFactory Addr}
    (h : Books none s) : (s.workLoop closes outq as).Split (Books none) (fun _ => True) := by
  induction as generalizing s with
  | nil => exact h
  | cons a as ih =>
    unfold UdpConnectionFactory.workLoop
    split
    · next ha =>
      have hpop : Same s { s with toDel := as } :=
        ⟨rfl, fun _ => rfl, fun _ => rfl, rfl, rfl⟩
      exact ih ((h.same hpop).endConn closes ha)
    · trivial

theorem Books.install {s : UdpConnectionFactory Addr} (h : Books none s) (closes : Addr → Bool)
    (outq outq' : Option Nat) :
    (s.install closes outq outq').Split (Books none) (fun _ => True) := by
  unfold UdpConnectionFactory.install
  dsimp only
  split
  · exact h
  · have hloop := h.same (same_setEvent { s.socket.event with evLoop := true } s)
    refine Exec.Split.andThen (P := Books none) ?_ (fun s' hs => ?_)
    · split
      · exact hloop.workLoop closes _
      · exact hloop
    · split
      · exact hs.same (same_setEvent _ s')
      · exact hs

/-- What the condition says of an input in the state that receives it. -/
def InputSound (s : UdpConnectionFactory Addr) : Input Addr → Prop
  | .call k _ => k.Sound s.connections
  | .parse src n p _ => s.socket.event.nextDel = false →
      (Call.connection src n).Sound s.connections ∧
        p.Sound ((Call.connection src n).known s.connections) (s.stageOf src n)
  | _ => True

theorem Books.apply {s : UdpConnectionFactory Addr} (h : Books none s) {i : Input Addr}
    (hi : InputSound s i) : (s.apply i).Split (Books none) (fun _ => True) := by
  cases i with
  | call k outq => exact (h.call hi).mono (fun _ hs => hs.1) (fun _ _ => trivial)
  | parse src n p outq =>
    simp only [UdpConnectionFactory.apply, parse]
    split
    · exact h
    · next hd =>
      obtain ⟨hn, hp⟩ := hi (by simpa using hd)
      refine (h.connection hn).andThen (fun s' hs => ?_)
      obtain ⟨hb, hk, hst⟩ := hs
      refine hb.parseConn ?_ (by rwa [hk, hst])
      rw [hk, Call.known]
      split
      · assumption
      · exact List.mem_cons_self
  | work closes outq =>
    simp only [UdpConnectionFactory.apply]
    split
    · exact (h.same (same_setEvent _ s)).workLoop closes _
    · exact h
  | install closes outq outq' => exact h.install closes outq outq'
  | onOut script =>
    simp only [UdpConnectionFactory.apply, Exec.split_map]
    have hsocket : ∀ socket, Books none { s with socket := socket } := fun _ =>
      h.same ⟨rfl, fun _ => rfl, fun _ => rfl, rfl, rfl⟩
    exact .all hsocket (fun _ => trivial) _
  | fail => exact h.same (same_setEvent _ s)

/-- The condition on a step of a run. Nothing follows a call that does not return. -/
def Sound (e : Exec (UdpConnectionFactory Addr)) (i : Input Addr) : Prop :=
  e.Split (fun s => InputSound s i) (fun _ => True)

/-- `nb_live_conn` is the number of connections whose handshake has not finished. It has never been
negative, and `Event::close` was called when and only when it reached 0 with `want_close_fact`
set. -/
structure Accounted (s : UdpConnectionFactory Addr) : Prop where
  count : s.nbLiveConn = s.connections.countP (fun a => (s.conn a).handshaking)
  nonneg : 0 ≤ s.nbLiveConn
  fair : ∀ c ∈ s.log, c.Fair

theorem Books.accounted {s : UdpConnectionFactory Addr} (h : Books none s) : Accounted s where
  count := by
    rw [h.count]
    have hall : ∀ a ∈ s.connections, (s.conn a).owes = (s.conn a).handshaking := fun a ha => by
      simpa using h.settled a ha
    exact congrArg Nat.cast (List.countP_congr fun a ha => by rw [hall a ha])
  nonneg := h.nonneg
  fair := h.fair

theorem books_new (fd : Int) (needWait : Bool) :
    Books none (new fd needWait : UdpConnectionFactory Addr) where
  nodup := List.nodup_nil
  present := by simp
  settled := by simp [new]
  count := rfl
  fair := by simp [LogFair, new]

/-- In a run in which every new connection is counted with an unfinished handshake, and a handshake
finishes only where `_parse` sees it, the count is right in every state that is reached. -/
theorem live_conn_accounted (fd : Int) (needWait : Bool) (inputs : List (Input Addr))
    (hs : Along step Sound (.ret (new fd needWait)) inputs) {s : UdpConnectionFactory Addr}
    (hr : run step (.ret (new fd needWait)) inputs = .ret s) : Accounted s := by
  have hstep : ∀ (e : Exec (UdpConnectionFactory Addr)) (i : Input Addr),
      e.Split (Books none) (fun _ => True) → Sound e i →
        (step e i).Split (Books none) (fun _ => True) := by
    intro e i he hi
    cases e with
    | ret s => exact Books.apply he hi
    | hang s => trivial
    | undef s => trivial
  have hnew : (Exec.ret (new fd needWait : UdpConnectionFactory Addr)).Split (Books none)
      (fun _ => True) := books_new fd needWait
  have h := run_invariant (fun e => e.Split (Books none) (fun _ => True)) hstep hnew hs
  rw [hr] at h
  exact Books.accounted h

/-- A client whose handshake finishes in `_parse` after the factory was told to close -/
theorem live_conn_accounted_handshake :
    let n : NewConn := .dtls ⟨false, true, true, true, [⟨.wantRead, false, [⟨[], .wantRead, []⟩]⟩],
      true⟩
    let p : ParseAnswer Nat := ⟨[], false, [⟨.none, true, [⟨[], .wantRead, []⟩]⟩], [],
      [.closeConn 1], []⟩
    Accounted (run step (.ret (new 5 true)) [.call (.connection 1 n) none,
      .call .close none, .install (fun _ => false) none none, .parse 1 n p none,
      .work (fun _ => true) none]).state := by
  intro n p
  have hn : n.Sound := ⟨rfl, fun _ err he => by
    cases he
    exact ⟨rfl, rfl⟩⟩
  have hs : Along step Sound (.ret (new 5 true)) [.call (.connection 1 n) none, .call .close none,
      .install (fun _ => false) none none, .parse 1 n p none, .work (fun _ => true) none] := by
    refine ⟨fun _ => hn, trivial, trivial, fun _ => ⟨fun _ => hn, fun _ err he => ?_⟩, trivial,
      trivial⟩
    cases he
    exact ⟨rfl, trivial, trivial⟩
  exact live_conn_accounted 5 true _ hs rfl

/-- A connection without an SSL object is never counted, and it is counted off if
`done_dec_wait_out` happens to be false. -/
theorem counted_off_uncounted :
    ¬ Accounted (run step (.ret (new 5 true : UdpConnectionFactory Nat))
      [.call (.connection 1 (.dtls ⟨true, false, true, true, [], false⟩)) none,
        .call (.delConn 1) none, .install (fun _ => false) none none]).state := fun h =>
  absurd h.nonneg (by decide)

end UdpConnectionFactory

end Evel
