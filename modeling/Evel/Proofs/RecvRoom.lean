import Evel.General.Runs
import Evel.Model.OnInp

namespace Evel
open General

/-- The length is not zero, and the bytes find their place in the buffer. -/
def Tcp.Recv.Fits (offsetParse : Nat) (r : Tcp.Recv) : Prop :=
  1 ≤ r.length ∧ offsetParse + r.length ≤ r.allocated

/-- The stream has ended, or it has failed for good. -/
def SysAnswer.Ends (a : SysAnswer) : Prop :=
  a.count = 0 ∨ a.count < 0 ∧ a.intr = false ∧ a.again = false

namespace TcpInput
open Tcp
variable {c : TcpInput}

/-- Each `recv` got a real buffer, and `on_hup` was called at the end of the stream only. -/
structure Sound (c : TcpInput) : Prop where
  recvs : ∀ r ∈ c.recvs, r.Fits c.offsetParse
  hups : ∀ a ∈ c.hups, a.Ends

/-- What `recv` would get fits the buffer. -/
def Room (c : TcpInput) : Prop :=
  ∀ n ∈ c.inpBuffer, (Recv.mk c.inpBufferSize n).Fits c.offsetParse

/-- A turn that finds no buffer is told of input, unless rounding makes room, and no allocation
goes past the end of the address space. -/
def Supplied (r : Round) (c : TcpInput) : Prop :=
  ∀ size ∈ buffSize r.ioctls, (c.inpBuffer = none → 1 ≤ size ∨ c.offsetParse % 8 ≠ 0) ∧
    (c.allocates size = true → c.offsetParse + size + 7 < 2 ^ 64)

theorem buffSize_le (h : size ∈ buffSize ioctls) : size ≤ maxBuffSize := by
  induction ioctls with
  | nil => simp [buffSize] at h
  | cons a as ih =>
    cases a with
    | size n =>
      simp only [buffSize, Option.mem_some_iff] at h
      split at h <;> omega
    | fails errno =>
      simp only [buffSize] at h
      split at h
      · exact ih h
      · obtain rfl := Option.mem_some_iff.mp h
        decide

/-- A new buffer has room exactly if the sum does not wrap around, and something is left of it
past the offset. -/
theorem allocate_room (hsize : size ≤ maxBuffSize) :
    (c.allocate size).Room ↔
      (1 ≤ size ∨ c.offsetParse % 8 ≠ 0) ∧ c.offsetParse + size + 7 < 2 ^ 64 := by
  simp only [maxBuffSize] at hsize
  simp only [Room, allocate, msgAllocSize, Recv.Fits, Option.mem_some_iff, forall_eq']
  by_cases hwrap : c.offsetParse + size + 7 < 2 ^ 64
  · have hsum : (c.offsetParse + size) % 2 ^ 64 = c.offsetParse + size := by omega
    have hround : (c.offsetParse + size + 7) % 2 ^ 64 = c.offsetParse + size + 7 := by omega
    rw [hsum, hround]
    omega
  · refine iff_of_false ?_ (fun h => hwrap h.2)
    -- the rounded sum starts again from 0, before the offset
    have hround : ((c.offsetParse + size) % 2 ^ 64 + 7) % 2 ^ 64 / 8 * 8 < c.offsetParse + 1 := by
      omega
    omega

@[simp] theorem reserve_offsetParse : (c.reserve size).offsetParse = c.offsetParse := by
  unfold reserve
  split <;> rfl

@[simp] theorem reserve_recvs : (c.reserve size).recvs = c.recvs := by
  unfold reserve
  split <;> rfl

@[simp] theorem reserve_hups : (c.reserve size).hups = c.hups := by
  unfold reserve
  split <;> rfl

theorem reserve_isSome (size : Nat) (c : TcpInput) : ∃ n, (c.reserve size).inpBuffer = some n := by
  by_cases h : c.allocates size = true
  · exact ⟨_, by rw [reserve, if_pos h]; rfl⟩
  · cases hb : c.inpBuffer with
    | none => simp [allocates, hb] at h
    | some n => exact ⟨n, by rw [reserve, if_neg h, hb]⟩

/-- `on_inp` comes to `recv` with room in its buffer exactly if the turn is supplied. -/
theorem reserve_room (hc : c.Room) (hsize : size ≤ maxBuffSize) :
    (c.reserve size).Room ↔ (c.inpBuffer = none → 1 ≤ size ∨ c.offsetParse % 8 ≠ 0) ∧
      (c.allocates size = true → c.offsetParse + size + 7 < 2 ^ 64) := by
  by_cases ha : c.allocates size = true
  · rw [reserve, if_pos ha, allocate_room hsize]
    cases hb : c.inpBuffer with
    | none => simp [ha]
    | some n =>
      have hlt : c.inpBufferSize < size := by simpa [allocates, hb] using ha
      have hpos : 1 ≤ size := Nat.lt_of_le_of_lt (Nat.zero_le _) hlt
      simp [ha, hpos]
  · have hb : c.inpBuffer ≠ none := by
      intro hb
      simp [allocates, hb] at ha
    rw [reserve, if_neg ha]
    simp [hc, ha, hb]

/-- The connection before the answer of `recv` is looked at. -/
def received (size : Nat) (c : TcpInput) : TcpInput :=
  { c.reserve size with
    recvs := (c.reserve size).recvs ++
      [⟨(c.reserve size).inpBufferSize, (c.reserve size).inpBuffer.getD 0⟩] }

@[simp] theorem received_offsetParse : (c.received size).offsetParse = c.offsetParse :=
  reserve_offsetParse

@[simp] theorem received_recvs : (c.received size).recvs = c.recvs ++
    [⟨(c.reserve size).inpBufferSize, (c.reserve size).inpBuffer.getD 0⟩] := by
  simp [received]

@[simp] theorem received_hups : (c.received size).hups = c.hups := reserve_hups

/-- All that a turn can do. -/
theorem turn_cases (r : Round) (c : TcpInput) :
    (buffSize r.ioctls = none ∧ turn r c = .hang c) ∨
      ∃ size, buffSize r.ioctls = some size ∧
        (turn r c = .next (c.received size) ∨ turn r c = .done (c.received size) ∨
          (∃ e, ((c.reserve size).inpBufferSize ≠ 0 → r.recv.Ends) ∧
            turn r c = .done { c.received size with
              event := e
              hups := (c.received size).hups ++ [r.recv] }) ∨
          ∃ e, turn r c = .next { c.received size with
            event := e
            inpBuffer := if r.takesBuffer then none else (c.reserve size).inpBuffer }) := by
  cases hs : buffSize r.ioctls with
  | none => exact .inl ⟨rfl, by simp [turn, hs]⟩
  | some size =>
    refine .inr ⟨size, rfl, ?_⟩
    simp only [turn, hs]
    split
    · next hle =>
      split
      · exact .inl rfl
      · next hi =>
        split
        · exact .inr (.inl rfl)
        · next hag =>
          refine .inr (.inr (.inl ⟨_, fun hpos => ?_, rfl⟩))
          have hi : r.recv.intr = false := by simpa using hi
          cases ha : r.recv.again with
          | true =>
            simp only [SysAnswer.real, ha, and_true, Classical.not_not] at hle hag
            exact .inl (by omega)
          | false =>
            simp only [SysAnswer.real] at hle
            rcases Int.lt_or_eq_of_le (show r.recv.count ≤ 0 by omega) with hc | hc
            · exact .inr ⟨hc, hi, ha⟩
            · exact .inl hc
    · exact .inr (.inr (.inr ⟨_, rfl⟩))

/-- A call of `recv` with room in its buffer is all that a turn needs to be sound. -/
theorem sound_iff_room {c' : TcpInput} (hc : c.Sound) (hoff : c'.offsetParse = c.offsetParse)
    (hrecvs : c'.recvs = c.recvs ++ [r])
    (hhups : ∀ a ∈ c'.hups, a ∈ c.hups ∨ (1 ≤ r.length → a.Ends)) :
    c'.Sound ↔ r.Fits c.offsetParse := by
  constructor
  · intro h
    rw [← hoff]
    exact h.recvs r (by simp [hrecvs])
  · intro h
    refine ⟨fun q hq => ?_, fun a ha => ?_⟩
    · rw [hrecvs] at hq
      rw [hoff]
      rcases List.mem_append.mp hq with hq | hq
      · exact hc.recvs q hq
      · rwa [List.mem_singleton.mp hq]
    · rcases hhups a ha with ha | ha
      · exact hc.hups a ha
      · exact ha h.1

theorem turn_sound_iff (hc : c.Sound) (hr : c.Room) (r : Round) :
    (turn r c).state.Sound ↔ Supplied r c := by
  rcases turn_cases r c with ⟨hs, he⟩ | ⟨size, hs, he⟩
  · rw [he]
    exact iff_of_true hc (by simp [Supplied, hs])
  · obtain ⟨n, hn⟩ := reserve_isSome size c
    have hroom : (c.reserve size).Room ↔ Supplied r c := by
      rw [reserve_room hr (buffSize_le hs)]
      simp [Supplied, hs]
    rw [← hroom]
    have hfits : (c.reserve size).Room ↔
        (Recv.mk (c.reserve size).inpBufferSize ((c.reserve size).inpBuffer.getD 0)).Fits
          c.offsetParse := by
      simp [Room, hn]
    rw [hfits]
    rcases he with he | he | ⟨e, hends, he⟩ | ⟨e, he⟩ <;> rw [he]
    · exact sound_iff_room hc received_offsetParse received_recvs
        (fun a ha => .inl (by simpa [Turn.state] using ha))
    · exact sound_iff_room hc received_offsetParse received_recvs
        (fun a ha => .inl (by simpa [Turn.state] using ha))
    · refine sound_iff_room hc received_offsetParse received_recvs (fun a ha => ?_)
      simp only [Turn.state, received_hups] at ha
      rcases List.mem_append.mp ha with ha | ha
      · exact .inl ha
      · rw [List.mem_singleton.mp ha]
        exact .inr (fun hpos => hends (Nat.ne_of_gt hpos))
    · exact sound_iff_room hc received_offsetParse received_recvs
        (fun a ha => .inl (by simpa [Turn.state] using ha))

/-- A supplied turn leaves room in the buffer, if it leaves the buffer. -/
theorem turn_room (hr : c.Room) (h : Supplied r c) : (turn r c).state.Room := by
  rcases turn_cases r c with ⟨hs, he⟩ | ⟨size, hs, he⟩
  · rwa [he]
  · have hroom : (c.reserve size).Room := (reserve_room hr (buffSize_le hs)).mpr (h size hs)
    have hreceived : (c.received size).Room := hroom
    rcases he with he | he | ⟨e, -, he⟩ | ⟨e, he⟩ <;> rw [he]
    · exact hreceived
    · exact hreceived
    · exact hreceived
    · intro n hn
      simp only [Turn.state] at hn ⊢
      split at hn
      · cases hn
      · exact hroom n hn

/-- What has been recorded stays. -/
theorem turn_back (h : (turn r c).state.Sound) : c.Sound := by
  have hlog : ∃ rs as, (turn r c).state.offsetParse = c.offsetParse ∧
      (turn r c).state.recvs = c.recvs ++ rs ∧ (turn r c).state.hups = c.hups ++ as := by
    rcases turn_cases r c with ⟨-, he⟩ | ⟨size, -, he | he | ⟨e, -, he⟩ | ⟨e, he⟩⟩ <;> rw [he]
    · exact ⟨[], [], rfl, (List.append_nil _).symm, (List.append_nil _).symm⟩
    · exact ⟨_, [], received_offsetParse, received_recvs, by simp [Turn.state]⟩
    · exact ⟨_, [], received_offsetParse, received_recvs, by simp [Turn.state]⟩
    · exact ⟨_, [r.recv], received_offsetParse, received_recvs, by simp [Turn.state]⟩
    · exact ⟨_, [], received_offsetParse, received_recvs, by simp [Turn.state]⟩
  obtain ⟨rs, as, hoff, hrecvs, hhups⟩ := hlog
  refine ⟨fun r hr => ?_, fun a ha => ?_⟩
  · rw [← hoff]
    exact h.recvs r (by simp [hrecvs, hr])
  · exact h.hups a (by simp [hhups, ha])

/-- What happens while all turns are supplied. -/
def Call.Supplied (c : TcpInput) : Call → Prop
  | .onInp script =>
    Each (fun c => !c.event.wantCloseFd && !c.event.nextDel) turn TcpInput.Supplied script c
  | .act _ => True

theorem call_sound (hs : c.Sound) (hr : c.Room) (k : Call) :
    ((c.call k).state.Sound ↔ k.Supplied c) ∧ (k.Supplied c → (c.call k).state.Room) := by
  cases k with
  | onInp script =>
    have hstep : ∀ r c, Sound c ∧ Room c → Supplied r c →
        Sound (turn r c).state ∧ Room (turn r c).state := fun r c hc hsup =>
      ⟨(turn_sound_iff hc.1 hc.2 r).mpr hsup, turn_room hc.2 hsup⟩
    refine ⟨?_, fun hsup => ?_⟩
    · exact loop_observed_iff (fun r c hc _ => turn_sound_iff hc.1 hc.2 r)
        (fun r c hc _ hsup => hstep r c hc hsup) (fun _ _ h => turn_back h) ⟨hs, hr⟩ hs script
    · exact (loop_keeps (fun r c hc _ hsup => hstep r c hc hsup) ⟨hs, hr⟩ hsup).2
  | act a => exact ⟨iff_of_true ⟨hs.recvs, hs.hups⟩ trivial, fun _ => hr⟩

/-- `recv` always gets a real buffer, and `on_hup` is only called when the stream is over, if and
only if every turn is supplied. -/
theorem recv_fits_iff (fd : Int) (offsetParse inpBufferSize : Nat) (calls : List Call) :
    (∀ n, (run step (.ret (new fd offsetParse inpBufferSize)) (calls.take n)).state.Sound) ↔
      Along step (fun e k => e.Split (fun c => k.Supplied c) (fun _ => True))
        (.ret (new fd offsetParse inpBufferSize)) calls := by
  have hnew : (new fd offsetParse inpBufferSize).Sound := ⟨nofun, nofun⟩
  refine along_observed_iff (fun e : Exec TcpInput => e.state.Sound ∧ e.state.Room)
    (fun e : Exec TcpInput => e.state.Sound) ?_ ?_ ⟨hnew, nofun⟩ hnew
  · intro e k he _
    cases e with
    | ret c => exact (call_sound he.1 he.2 k).1
    | hang c => exact iff_of_true he.1 trivial
    | undef c => exact iff_of_true he.1 trivial
  · intro e k he _ hsup
    cases e with
    | ret c => exact ⟨(call_sound he.1 he.2 k).1.mpr hsup, (call_sound he.1 he.2 k).2 hsup⟩
    | hang c => exact he
    | undef c => exact he

/-- No input was there when the size of the buffer was asked for, and a byte comes before `recv`
is called: a healthy connection is hung up. -/
theorem empty_buffer_hangs_up :
    let c := new 5 0 0
    let r : Round := ⟨[.size 0], ⟨1, .again⟩, false, []⟩
    (c.onInp [r]).state.recvs = [⟨0, 0⟩] ∧ (c.onInp [r]).state.hups = [⟨1, .again⟩] ∧
      ¬ (run step (.ret c) [.onInp [r]]).state.Sound := by
  refine ⟨by decide, by decide, fun h => ?_⟩
  exact absurd (h.recvs ⟨0, 0⟩ (by decide)).1 (by decide)

end TcpInput

end Evel
