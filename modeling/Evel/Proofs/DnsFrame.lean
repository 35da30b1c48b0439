import Evel.Proofs.DnsCallbacks

namespace Evel.Dns
open General
variable {s s₀ : Dns} {l : Loop} {m n : Name}

/-- Callbacks are told apart: none is registered for two names, nor before it is given. -/
structure Registered (s : Dns) : Prop where
  apart : ∀ m n, ∀ c ∈ s.cbsOf m, c ∈ s.cbsOf n → m = n
  old : ∀ n, ∀ c ∈ s.cbsOf n, c < s.nextCb

/-- No callback runs. -/
structure Idle (s : Dns) : Prop extends Registered s where
  depth : s.depth = 0
  loop : s.loop = none

/-- What becomes of a name that a datagram does not concern. -/
structure Spared (s s' : Dns) (n : Name) : Prop where
  entry : s'.cachedEntries n = s.cachedEntries n
  request : s'.waitingReqs n = s.waitingReqs n
  calls : ∃ calls, s'.calls = s.calls ++ calls ∧ ∀ c ∈ calls, c.cb ∉ s.cbsOf n

/-- All that has happened since `s₀` concerns the name `m`, as does the loop that waits. -/
structure Confined (m : Name) (s₀ s : Dns) : Prop where
  entry : ∀ n, n ≠ m → s.cachedEntries n = s₀.cachedEntries n
  request : ∀ n, n ≠ m → s.waitingReqs n = s₀.waitingReqs n
  calls : ∃ calls, s.calls = s₀.calls ++ calls ∧ ∀ c ∈ calls, c.cb ∈ s₀.cbsOf m
  loop : ∀ l, s.loop = some l → l.name = m ∧ ∀ c ∈ l.left, c ∈ s₀.cbsOf m

section frame

theorem Confined.refl (h : s.loop = none) (m : Name) : Confined m s s := by
  refine ⟨fun _ _ => rfl, fun _ _ => rfl, ⟨[], (List.append_nil _).symm, nofun⟩, ?_⟩
  intro l hl
  rw [h] at hl
  cases hl

theorem Confined.setEntry (h : Confined m s₀ s) : Confined m s₀ (s.setEntry m e) where
  entry n hn := by
    rw [setEntry_cachedEntries, Function.update_of_ne hn]
    exact h.entry n hn
  request := h.request
  calls := h.calls
  loop := h.loop

@[simp] theorem erase_cachedEntries : (erase n s).cachedEntries = s.cachedEntries := by
  unfold erase
  split <;> rfl

@[simp] theorem erase_calls : (erase n s).calls = s.calls := by
  unfold erase
  split <;> rfl

/-- The loop calls a callback of its own name, or erases the request of that name. -/
theorem Confined.proceed (h : Confined m s₀ s) : Confined m s₀ s.proceed := by
  obtain ⟨-, he⟩ | ⟨l, hl, -, he⟩ | ⟨l, c, left, hl, hleft, he⟩ := proceed_cases s
  · rwa [he]
  · obtain ⟨rfl, -⟩ := h.loop l hl
    rw [he]
    refine ⟨?_, ?_, ?_, ?_⟩
    · simpa using h.entry
    · intro n hn
      rw [erase_waitingReqs, Function.update_of_ne hn]
      exact h.request n hn
    · simpa using h.calls
    · simp
  · obtain ⟨rfl, hmem⟩ := h.loop l hl
    obtain ⟨calls, hcalls, hcb⟩ := h.calls
    have hc : ∀ c' ∈ c :: left, c' ∈ s₀.cbsOf l.name := hleft ▸ hmem
    rw [he]
    refine ⟨h.entry, h.request, ⟨calls ++ [⟨c, l.err, l.ipAddrs⟩], ?_, ?_⟩, ?_⟩
    · simp [call, hcalls]
    · intro c' hc'
      rcases List.mem_append.mp hc' with hc' | hc'
      · exact hcb c' hc'
      · rw [List.mem_singleton.mp hc']
        exact hc c List.mem_cons_self
    · intro l' hl'
      obtain rfl : { l with left := left } = l' := by simpa [call] using hl'
      exact ⟨rfl, fun c' hc' => hc c' (List.mem_cons_of_mem c hc')⟩

theorem Confined.ret (h : Confined m s₀ s) : Confined m s₀ s.ret := by
  unfold Dns.ret
  split
  · exact h
  · exact Confined.proceed { h with }
  · exact { h with }

/-- A loop over the callbacks of one request concerns its name. -/
theorem Confined.startLoop (h : Confined m s₀ s) (hcbs : ∀ c ∈ cbs, c ∈ s₀.cbsOf m) :
    Confined m s₀ (s.startLoop ⟨m, cbs, err, ips⟩) := by
  refine Confined.proceed { h with loop := ?_ }
  intro l hl
  obtain rfl : ⟨m, cbs, err, ips⟩ = l := by simpa using hl
  exact ⟨rfl, hcbs⟩

/-- The callbacks that were called are those of one name: all others are spared. -/
theorem Confined.spared (h : Confined m s₀ s) (hs : s₀.Registered) (hn : n ≠ m) :
    Spared s₀ s n := by
  obtain ⟨calls, hcalls, hcb⟩ := h.calls
  refine ⟨h.entry n hn, h.request n hn, calls, hcalls, ?_⟩
  intro c hc hmem
  exact hn (hs.apart n m c.cb hmem (hcb c hc))

end frame

section registered

theorem registered_new : Registered new := ⟨nofun, nofun⟩

theorem Registered.erase (h : Registered s) (n : Name) : Registered (s.erase n) := by
  refine ⟨fun j k c hj hk => h.apart j k c (mem_cbsOf_erase hj).2 (mem_cbsOf_erase hk).2, ?_⟩
  intro m c hc
  rw [erase_nextCb]
  exact h.old m c (mem_cbsOf_erase hc).2

theorem Registered.proceed (h : Registered s) : Registered s.proceed := by
  obtain ⟨-, he⟩ | ⟨l, -, -, he⟩ | ⟨l, c, left, -, -, he⟩ := proceed_cases s
  · rwa [he]
  · have hs : Registered { s with loop := none } := { h with }
    rw [he]
    exact hs.erase l.name
  · rw [he]
    exact { h with }

/-- A callback that was never seen is registered for one name. -/
theorem Registered.push (h : Registered s)
    (hcbs : ∀ c ∈ w.cbs, c ∈ s.cbsOf n ∨ c = s.nextCb) :
    Registered ({ s with nextCb := s.nextCb + 1 }.setWcb n w) := by
  have hnew : ∀ m, ∀ c ∈ ({ s with nextCb := s.nextCb + 1 }.setWcb n w).cbsOf m,
      c ∈ s.cbsOf m ∨ (m = n ∧ c = s.nextCb) := by
    intro m c hc
    obtain ⟨rfl, hmem⟩ | ⟨-, hmem⟩ := mem_cbsOf_setWcb hc
    · exact (hcbs c hmem).imp_right (fun he => ⟨rfl, he⟩)
    · exact .inl hmem
  refine ⟨?_, ?_⟩
  · intro j k c hj hk
    rcases hnew j c hj with hcj | ⟨hjn, hcj⟩ <;> rcases hnew k c hk with hck | ⟨hkn, hck⟩
    · exact h.apart j k c hcj hck
    · exact absurd (h.old j c hcj) (hck ▸ Nat.lt_irrefl c)
    · exact absurd (h.old k c hck) (hcj ▸ Nat.lt_irrefl c)
    · exact hjn.trans hkn.symm
  · intro m c hc
    rcases hnew m c hc with hc | ⟨-, rfl⟩
    · exact Nat.lt_succ_of_lt (h.old m c hc)
    · exact Nat.lt_succ_self _

theorem Registered.send (h : Registered s) : (s.send c conf).Split Registered Registered := by
  have hfinish : ∀ t : Dns, Registered t →
      Registered (if t.serverIps.isEmpty then t.call c .noResolvEntry [] else t) := by
    intro t ht
    split
    · exact { ht with }
    · exact ht
  simp only [Dns.send]
  by_cases hread : (s.serverIps.isEmpty && !s.usedResolv) = true
  · rw [if_pos hread]
    cases conf with
    | none => exact { h with }
    | some lines => exact hfinish { s with usedResolv := true, serverIps := _ } { h with }
  · rw [if_neg hread]
    exact hfinish s h

theorem Registered.query (h : Registered s) :
    (s.query addr num moved conf).Split Registered Registered := by
  have hnext : Registered { s with nextCb := s.nextCb + 1 } :=
    ⟨h.apart, fun n c hc => Nat.lt_succ_of_lt (h.old n c hc)⟩
  simp only [Dns.query]
  split
  · exact { hnext with }
  split
  · next w hw =>
    have hpush : Registered ({ s with nextCb := s.nextCb + 1 }.setWcb addr
        { w with cbs := w.cbs ++ [s.nextCb] }) := by
      refine h.push (fun c hc => ?_)
      simpa [cbsOf, hw] using hc
    split
    · exact hpush
    · exact hpush
  · next hw =>
    have hpush : Registered ({ s with nextCb := s.nextCb + 1 }.setWcb addr
        { name := addr, cbs := [s.nextCb], num := num }) := by
      refine h.push (fun c hc => .inr ?_)
      simpa using hc
    split
    · exact hpush
    · exact hpush.send

theorem Registered.apply (R : BinStream κ) (h : Registered s) (i : Input) :
    (s.apply R i).Split Registered Registered := by
  cases i with
  | query addr num moved conf => exact h.query
  | ans data =>
    simp only [Dns.apply]
    split
    · obtain he | he | ⟨n, e, -, -, he | ⟨w, ips, -, he⟩⟩ := ans_cases (parse R data) s <;> rw [he]
      · exact h
      · exact h
      · exact { h with }
      · exact Registered.proceed { h with }
    · exact h
  | timeout name =>
    simp only [Dns.apply, Dns.onTimeout]
    split
    · split
      · exact h
      · exact Registered.proceed { h with }
    · exact h
  | ret =>
    simp only [Dns.apply, Dns.ret]
    split
    · exact h
    · exact Registered.proceed { h with }
    · exact { h with }

/-- Callbacks are told apart in every run. -/
theorem run_registered (R : BinStream κ) (inputs : List Input) :
    Registered (run (step R) (.ret new) inputs).state := by
  have hnew : (Exec.ret new).Split Registered Registered := registered_new
  have hrun : (run (step R) (.ret new) inputs).Split Registered Registered := by
    refine run_invariant_all (Exec.Split Registered Registered) ?_ hnew inputs
    intro e i he
    cases e with
    | ret s => exact Registered.apply R he i
    | hang s => exact he
    | undef s => exact he
  exact hrun.state

end registered

/-- The callbacks of `ans` return one after the other. -/
theorem Confined.returns (R : BinStream κ) (k : Nat) {e : Exec Dns} (h : Confined m s₀ e.state) :
    Confined m s₀ (run (step R) e (List.replicate k .ret)).state := by
  induction k generalizing e with
  | zero => exact h
  | succ k ih =>
    rw [List.replicate_succ, run_cons]
    refine ih ?_
    cases e with
    | ret s => exact h.ret
    | hang s => exact h
    | undef s => exact h

/-- The state after `ans` and the returns of its first `k` callbacks. -/
def answered (R : BinStream κ) (data : List Byte) (k : Nat) (s : Dns) : Dns :=
  (run (step R) (.ret s) (.ans data :: List.replicate k .ret)).state

/-- What a datagram does concerns one name at most. The datagram holds that name, and the number
of its pending request. -/
theorem ans_confined (R : BinStream κ) (hd : s.depth = 0) (hl : s.loop = none) (data : List Byte)
    (k : Nat) :
    (∀ m, Confined m s (s.answered R data k)) ∨
      ∃ m, (∃ i ∈ (parse R data).items, i.owner = some m) ∧
        s.accepts (parse R data).num m = true ∧ Confined m s (s.answered R data k) := by
  have hans : s.apply R (.ans data) = s.ans (parse R data) := by
    simp only [Dns.apply, hd, if_true]
  have hreturns : ∀ m, Confined m s (s.ans (parse R data)).state →
      Confined m s (s.answered R data k) := by
    intro m h
    refine Confined.returns R k ?_
    rw [step, Exec.andThen, hans]
    exact h
  obtain he | he | ⟨m, e, hm, ha, he | ⟨w, ips, hw, he⟩⟩ := ans_cases (parse R data) s
  · exact .inl (fun m => hreturns m (by rw [he]; exact Confined.refl hl m))
  · exact .inl (fun m => hreturns m (by rw [he]; exact Confined.refl hl m))
  · refine .inr ⟨m, hm, ha, hreturns m ?_⟩
    rw [he]
    exact (Confined.refl hl m).setEntry
  · refine .inr ⟨m, hm, ha, hreturns m ?_⟩
    rw [he]
    refine (Confined.refl hl m).setEntry.startLoop (fun c hc => ?_)
    simpa [cbsOf, hw] using hc

/-- A datagram spares every name without a pending request of its number, whatever else it
holds, and all names but one. -/
theorem only_numbered_name_touched (R : BinStream κ) (s : Dns) (hs : s.Idle) (data : List Byte)
    (k : Nat) :
    (∀ n, s.accepts (parse R data).num n = false → Spared s (s.answered R data k) n) ∧
      ∃ m, ∀ n, n ≠ m → Spared s (s.answered R data k) n := by
  rcases ans_confined R hs.depth hs.loop data k with h | ⟨m, -, ha, h⟩
  · have hall : ∀ n, Spared s (s.answered R data k) n := by
      intro n
      have hne : n ≠ 0 :: n := fun he => absurd (congrArg List.length he) (by simp)
      exact (h (0 :: n)).spared hs.toRegistered hne
    exact ⟨fun n _ => hall n, [], fun n _ => hall n⟩
  · refine ⟨fun n hn => h.spared hs.toRegistered ?_, m, fun n hn => h.spared hs.toRegistered hn⟩
    rintro rfl
    rw [ha] at hn
    cases hn

/-- Two requests wait, and the datagram has the number of one of them. -/
theorem only_numbered_name_touched_two :
    let s := (run (step .inOrder) (.ret new) [.query [97] 7 false (some oneServer),
      .query [98] 8 false none]).state
    (∀ n, s.accepts (parse .inOrder cnameAnswer).num n = false →
        Spared s (s.answered .inOrder cnameAnswer 2) n) ∧
      ∃ m, ∀ n, n ≠ m → Spared s (s.answered .inOrder cnameAnswer 2) n :=
  only_numbered_name_touched .inOrder _
    ⟨run_registered .inOrder _, by decide, by decide⟩ cnameAnswer 2

end Evel.Dns
