import Evel.Model.Event

namespace Evel.Event

section frame
variable (m s : Bool) (q : Option Nat) (t : DelTarget) (e : Event)

@[simp] theorem register_evLoop : (e.register t).evLoop = e.evLoop := by cases t <;> rfl
@[simp] theorem register_hasError : (e.register t).hasError = e.hasError := by cases t <;> rfl
@[simp] theorem register_wantCloseFd : (e.register t).wantCloseFd = e.wantCloseFd := by
  cases t <;> rfl

@[simp] theorem del_evLoop : (e.del m q).evLoop = e.evLoop := register_evLoop _ e
@[simp] theorem del_hasError : (e.del m q).hasError = e.hasError := register_hasError _ e
@[simp] theorem del_wantCloseFd : (e.del m q).wantCloseFd = e.wantCloseFd :=
  register_wantCloseFd _ e

/-- All that `close_fd` can do. -/
theorem closeFd_cases :
    (e.hasError = true ∧ e.closeFd m s q = e.del m q) ∨
    (e.wantCloseFd = true ∧ e.closeFd m s q = e) ∨
    (e.hasError = false ∧ (e.closeFd m s q = { e with wantCloseFd := true } ∨
      e.closeFd m s q = { e with wantCloseFd := true }.del m q)) := by
  simp only [closeFd, closeFdFlags]
  split_ifs with he hw <;> simp_all

@[simp] theorem closeFd_evLoop : (e.closeFd m s q).evLoop = e.evLoop := by
  obtain ⟨-, h⟩ | ⟨-, h⟩ | ⟨-, h | h⟩ := closeFd_cases m s q e <;> simp [h]

@[simp] theorem closeFd_hasError : (e.closeFd m s q).hasError = e.hasError := by
  obtain ⟨-, h⟩ | ⟨-, h⟩ | ⟨-, h | h⟩ := closeFd_cases m s q e <;> simp [h]

theorem closeFd_shuts :
    (e.closeFd m s q).hasError = true ∨ (e.closeFd m s q).wantCloseFd = true := by
  obtain ⟨he, h⟩ | ⟨hw, h⟩ | ⟨-, h | h⟩ := closeFd_cases m s q e <;> simp [*]

theorem closeFd_wantCloseFd (h : e.wantCloseFd = true) :
    (e.closeFd m s q).wantCloseFd = true := by
  obtain ⟨-, h'⟩ | ⟨-, h'⟩ | ⟨-, h' | h'⟩ := closeFd_cases m s q e <;> simp [h, h']

@[simp] theorem fail_evLoop : e.fail.evLoop = e.evLoop := by simp [fail]
@[simp] theorem fail_hasError : e.fail.hasError = true := by simp [fail]

end frame

/-- With an error, the event is to be deleted: by its loop, or by the one it is added to. -/
def Doomed (e : Event) : Prop :=
  e.hasError = true → if e.evLoop then e.nextDel = true else e.delOnInstall = true

theorem doomed_del (m : Bool) (q : Option Nat) (e : Event) : (e.del m q).Doomed := by
  intro he
  have he : e.hasError = true := by simpa using he
  cases hl : e.evLoop <;> simp [del, delTarget, register, hl, he]

theorem Doomed.closeFd {e : Event} (h : e.Doomed) : (e.closeFd m s q).Doomed := by
  obtain ⟨-, h'⟩ | ⟨-, h'⟩ | ⟨he, h' | h'⟩ := closeFd_cases m s q e
  · rw [h']
    exact doomed_del m q e
  · rwa [h']
  · rw [h']
    exact h
  · rw [h']
    exact doomed_del m q _

theorem doomed_fail (e : Event) : e.fail.Doomed := doomed_del true none _

end Evel.Event
