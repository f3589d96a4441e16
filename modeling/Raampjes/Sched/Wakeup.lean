import Raampjes.Sched.Wait

/-!
# Lost wake-ups

A task that sleeps in `do_read` is to be woken when there is input, one that sleeps in `do_wait` when a child has
stopped. The keyboard and `do_exit` do so; `do_write` on descriptor 0 puts characters in `input_buf` and wakes nobody.
`no_lost_wakeup`: in a run without such a write over a sleeping reader no wake-up is lost.
-/

namespace Raampjes.Sched

open Runs Tty

variable {k : Kernel} {xs : List (Step Kernel Act Event)}

/-! ## The buffers stay well formed -/

def BuffersWf (k : Kernel) : Prop := Wf k.terminal.inputBuf ∧ Wf k.terminal.lineBuf

theorem enqueueAll_wf (bytes : List UInt8) {buf : TtyBuffer} (h : Wf buf) : Wf (enqueueAll buf bytes) := by
  induction bytes generalizing buf with
  | nil => exact h
  | cons c bytes ih => exact ih (bufEnqueue_wf h c)

theorem dequeueMany_wf (n : Nat) {buf : TtyBuffer} (h : Wf buf) : Wf (dequeueMany n buf).2 := by
  induction n generalizing buf with
  | zero => exact h
  | succ n ih => exact ih (bufDequeue_wf h)

theorem taken_wf (h : Wf k.terminal.inputBuf) (nbytes : Nat) : Wf (taken k nbytes).2 := by
  unfold taken
  exact dequeueMany_wf _ h

theorem BuffersWf.setLine (h : BuffersWf k) {buf : TtyBuffer} (hb : Wf buf) : BuffersWf (setLine k buf) := ⟨h.1, hb⟩

theorem BuffersWf.setInput (h : BuffersWf k) {buf : TtyBuffer} (hb : Wf buf) : BuffersWf (setInput k buf) := ⟨hb, h.2⟩

theorem keyed_wf (h : BuffersWf k) (c : UInt8) : BuffersWf (keyed k c) := by
  unfold keyed
  split
  · exact h.setLine (bufRestore_wf h.2)
  · split
    · have hmoved := moveQueue_wf (bufEnqueue_wf h.2 c) h.1
      exact (h.setLine hmoved.1).setInput hmoved.2
    · exact h.setLine (bufEnqueue_wf h.2 c)

theorem buffersWf_step {t : Kernel} {a : Act} {es : List Event} (h : Outcome k a t es) (hw : BuffersWf k) :
    BuffersWf t := by
  cases h with
  | fork _ _ _ _ _ => exact hw
  | sleep _ _ => exact hw
  | tick _ _ => exact hw
  | exit _ _ _ _ =>
    unfold BuffersWf
    rwa [exitWoken_terminal]
  | reap _ _ => exact hw
  | got _ _ => exact BuffersWf.setInput (k := back k) hw (taken_wf hw.1 _)
  | writeInput _ => exact hw.setInput (enqueueAll_wf _ hw.1)
  | report _ _ => exact hw
  | key _ => exact keyed_wf hw _

theorem buffersWf_boot : BuffersWf boot := ⟨emptyAt_wf (by decide) _, emptyAt_wf (by decide) _⟩

/-! ## Sleepers -/

/-- `u` is in the table and waits, to go on at `c`. -/
def Blocked (k : Kernel) (u : TaskId) (c : Cont) : Prop :=
  ∃ i, k.tasks i = some u ∧ (k.page u).state = .waiting ∧ (k.page u).cont = c

/-- No task sleeps although what it sleeps for is there. -/
structure NoLostWakeup (k : Kernel) : Prop where
  reader : ∀ u nbytes, Blocked k u (.read nbytes) → contents k.terminal.inputBuf = []
  waiter : ∀ u statLoc, Blocked k u (.wait statLoc) → ∀ i c, k.tasks i = some c → (k.page c).ppid = (k.page u).pid →
    (k.page c).state ≠ .stopped

/-- The step is not a write of characters to `input_buf` while a task sleeps in `do_read`. -/
def NoSilentWrite (k : Kernel) (a : Act) : Prop :=
  ∀ bytes, a = .write 0 bytes → 2 ≤ bytes.length → ∀ u nbytes, ¬Blocked k u (.read nbytes)

/-- Who is blocked after a step was blocked before, or has just gone to sleep. -/
theorem Outcome.blocked {t : Kernel} {a : Act} {es : List Event} (hk : Inv k) (h : Outcome k a t es) {u : TaskId}
    {c : Cont} (hb : Blocked t u c) (hc : c ≠ .user) :
    Blocked k u c ∨ u = k.current ∧ ∃ a' es', Sleeps k a' c es' := by
  obtain ⟨i, hi, hst, rfl⟩ := hb
  rcases h.origin hi with ho | ⟨_, he⟩
  · have hchange := h.change (hk.slot_fresh ho)
    generalize t.page u = x at hst hc hchange ⊢
    cases hchange with
    | same => exact Or.inl ⟨i, ho, hst, rfl⟩
    | woken _ => cases hst
    | slept hu hs => exact Or.inr ⟨hu, _, _, hs⟩
    | back _ => exact absurd rfl hc
    | stopped _ _ => cases hst
  · exact absurd (h.forked hk he).2.2.2.1 hc

/-- Nobody is blocked after `wake_up_all`. -/
theorem not_blocked_awake (hk : Inv k) (u : TaskId) (c : Cont) : ¬Blocked (awakeBelow k MAX_TASKS) u c := by
  rintro ⟨i, hi, hst, _⟩
  by_cases hw : (k.page u).state = .waiting
  · have h : (k.page u).pid < MAX_TASKS ∧ k.tasks (k.page u).pid = some u ∧ (k.page u).state = .waiting := by
      rw [hk.slot_pid hi]
      exact ⟨hk.slot_lt hi, hi, hw⟩
    rw [awakeBelow_page_wake h] at hst
    cases hst
  · rw [awakeBelow_page_eq fun h => hw h.2.2] at hst
    exact hw hst

/-- **`do_exit` wakes the parent.** -/
theorem Outcome.exit_wakes {t : Kernel} {a : Act} {es : List Event} (h : Outcome k a t es) {c u : TaskId}
    {status : Int} (he : .exited c status ∈ es) (hu : k.tasks (k.page c).ppid = some u) :
    (t.page u).state ≠ .waiting := by
  cases h with
  | fork _ _ _ _ _ => cases List.mem_singleton.mp he
  | sleep hs _ =>
    rcases List.mem_append.mp he with he | he
    · obtain ⟨i, _, hi⟩ := hs.events _ he
      cases hi
    · cases List.mem_singleton.mp he
  | tick _ _ => cases List.mem_singleton.mp he
  | exit _ _ _ _ =>
    rename_i status' _ _ _ _ _
    simp only [List.mem_cons, Event.exited.injEq, reduceCtorEq, List.not_mem_nil, or_false] at he
    obtain ⟨rfl, rfl⟩ := he
    show ((exitWoken k status).page u).state ≠ .waiting
    have hslot : (exitStopped k status).tasks (exitStopped k status).cur.ppid = some u := by
      simpa [exitStopped, Kernel.cur] using hu
    by_cases hw : ((exitStopped k status).page u).state = .waiting
    · have hp : waitingParent (exitStopped k status) = some u := by simp [waitingParent, hslot, hw]
      simp [exitWoken, hp]
    · rcases exitWoken_page k status u with hp | ⟨_, hp⟩ <;> rw [hp]
      · exact hw
      · simp
  | reap _ _ =>
    rcases List.mem_append.mp he with he | he
    · obtain ⟨i, _, he | ⟨_, _, he⟩⟩ := mem_scanEvents.mp he <;> cases he
    · cases List.mem_singleton.mp he
  | got _ _ => cases List.mem_singleton.mp he
  | writeInput _ => cases List.mem_singleton.mp he
  | report _ hr => exact (hr.quiet _ he).elim
  | key _ => exact (keyEvents_quiet _ _ he).elim

/-! ## The two kinds of sleepers -/

/-- While a task sleeps in `do_read` no input comes in. -/
theorem Outcome.input_empty {t : Kernel} {a : Act} {es : List Event} (hk : Inv k) (hw : BuffersWf k)
    (h : Outcome k a t es) (hq : NoSilentWrite k a) {u : TaskId} {nbytes : Nat} (hb : Blocked t u (.read nbytes))
    (hin : contents k.terminal.inputBuf = []) : contents t.terminal.inputBuf = [] := by
  cases h with
  | fork _ _ _ _ _ => exact hin
  | sleep _ _ => exact hin
  | tick _ _ => exact hin
  | exit _ _ _ _ =>
    rw [exitWoken_terminal]
    exact hin
  | reap _ _ => exact hin
  | got _ hl =>
    rw [bufQueueLength_eq hw.1, hin] at hl
    exact absurd rfl hl
  | writeInput _ =>
    rename_i bytes _
    have hlen : bytes.length < 2 := by
      by_contra hlen
      exact hq bytes rfl (by omega) u nbytes hb
    rw [List.drop_eq_nil_of_le (by omega), setInput_inputBuf]
    exact hin
  | report _ _ => exact hin
  | key _ =>
    rename_i c _
    by_cases hc : c = backspace
    · rw [keyed, if_pos hc]
      exact hin
    · by_cases hn : c = newline
      · -- the newline wakes everybody
        rw [keyed, if_neg hc, if_pos hn] at hb
        exact absurd hb (not_blocked_awake (setInput_inv (setLine_inv hk _) _) u _)
      · rw [keyed, if_neg hc, if_neg hn]
        exact hin

theorem reader_step {t : Kernel} {a : Act} {es : List Event} (hk : Inv k) (hw : BuffersWf k) (h : Outcome k a t es)
    (hq : NoSilentWrite k a) (hl : NoLostWakeup k) {u : TaskId} {nbytes : Nat} (hb : Blocked t u (.read nbytes)) :
    contents t.terminal.inputBuf = [] := by
  refine h.input_empty hk hw hq hb ?_
  rcases h.blocked hk hb (by simp) with hold | ⟨_, a', es', hs⟩
  · exact hl.reader u nbytes hold
  · cases hs with
    | read _ hlen => rwa [bufQueueLength_eq hw.1, List.length_eq_zero_iff] at hlen

theorem waiter_step {t : Kernel} {a : Act} {es : List Event} (hk : Inv k) (ht : Inv t) (h : Outcome k a t es)
    (hl : NoLostWakeup k) {u : TaskId} {statLoc : Bool} (hb : Blocked t u (.wait statLoc)) {i : Nat} {c : TaskId}
    (hi : t.tasks i = some c) (hppid : (t.page c).ppid = (t.page u).pid) : (t.page c).state ≠ .stopped := by
  intro hst
  have hblocked := h.blocked hk hb (by simp)
  have hu : k.tasks (k.page u).pid = some u := by
    rcases hblocked with ⟨j, hj, _⟩ | ⟨rfl, _⟩
    · rwa [hk.slot_pid hj]
    · exact hk.cur_slot
  have hpid : (t.page u).pid = (k.page u).pid := (h.change (hk.slot_fresh hu)).pid
  rcases h.origin hi with ho | ⟨_, he⟩
  · have hchange := h.change (hk.slot_fresh ho)
    rw [hchange.ppid, hpid] at hppid
    rcases hchange.of_stopped hk.cur_state hst with hx | he
    · -- it was stopped already
      rw [hx] at hst
      rcases hblocked with hold | ⟨rfl, a', es', hs⟩
      · exact hl.waiter u statLoc hold i c ho hppid hst
      · cases hs with
        | wait _ hf =>
          have hr := reapAt_eq_some.mpr ⟨ho, hppid, hst⟩
          rw [lastFound_eq_none.mp hf i (hk.slot_lt ho)] at hr
          cases hr
    · -- it has just exited, and woke its parent
      rw [← hppid] at hu
      obtain ⟨_, _, hw, _⟩ := hb
      exact h.exit_wakes he hu hw
  · obtain ⟨_, _, rfl, _⟩ := h.forked hk he
    exact ht.cur_state hst

/-! ## Runs -/

theorem noLostWakeup_boot : NoLostWakeup boot := by
  have hno : ∀ u c, ¬Blocked boot u c := by
    rintro u c ⟨_, _, hst, _⟩
    cases hst
  exact ⟨fun u nbytes hb => absurd hb (hno _ _), fun u statLoc hb => absurd hb (hno _ _)⟩

/-- **No lost wake-up**, as long as nothing is written to `input_buf` over a task that sleeps in `do_read`. -/
theorem no_lost_wakeup (h : Run step boot xs k) (hq : ∀ x ∈ xs, NoSilentWrite x.before x.act) : NoLostWakeup k := by
  suffices hP : Inv k ∧ BuffersWf k ∧ NoLostWakeup k from hP.2.2
  refine h.inv (C := NoSilentWrite) (fun k => Inv k ∧ BuffersWf k ∧ NoLostWakeup k)
    ⟨inv_boot, buffersWf_boot, noLostWakeup_boot⟩ ?_ hq
  intro s a t es ⟨hs, hw, hl⟩ hq hst
  have ht := inv_step hs hst
  have ho := step_outcome hs hst
  exact ⟨ht, buffersWf_step ho hw, fun _ _ hb => reader_step hs hw ho hq hl hb,
    fun _ _ hb _ _ hi => waiter_step hs ht ho hl hb hi⟩

/-- A reader sleeps, a line comes in, and the reader gets it. -/
theorem no_lost_wakeup_line : ∃ xs k, Run step boot xs k ∧
    acts xs = [.fork, .pause, .read 0 4, .key 97, .key newline, .tick, .resume] ∧ NoLostWakeup k := by
  obtain ⟨xs, k, h, ha, _⟩ : ∃ xs k, Run step boot xs k ∧
      acts xs = [.fork, .pause, .read 0 4, .key 97, .key newline, .tick, .resume] ∧ true = true :=
    Run.of_replay _ (fun _ _ => true) (by decide +kernel)
  refine ⟨xs, k, h, ha, no_lost_wakeup h fun x hx bytes hb => ?_⟩
  have hact : x.act ∈ acts xs := List.mem_map_of_mem hx
  rw [ha, hb] at hact
  simp at hact

/-- One task sleeps in `do_read`, another writes to descriptor 0: the reader sleeps on. -/
theorem reader_not_woken : ∃ xs k, Run step boot xs k ∧
    acts xs = [.fork, .pause, .fork, .read 0 4, .write 0 [65, 66]] ∧ ¬NoLostWakeup k := by
  obtain ⟨xs, k, h, ha, hp⟩ : ∃ xs k, Run step boot xs k ∧
      acts xs = [.fork, .pause, .fork, .read 0 4, .write 0 [65, 66]] ∧
      decide ((k.tasks 2 = some 2 ∧ (k.page 2).state = .waiting ∧ (k.page 2).cont = .read 4) ∧
        contents k.terminal.inputBuf = [66]) = true :=
    Run.of_replay _ (fun _ (k : Kernel) => decide ((k.tasks 2 = some 2 ∧ (k.page 2).state = .waiting ∧
      (k.page 2).cont = .read 4) ∧ contents k.terminal.inputBuf = [66])) (by decide +kernel)
  obtain ⟨hb, hin⟩ := of_decide_eq_true hp
  refine ⟨xs, k, h, ha, fun hno => ?_⟩
  rw [hno.reader 2 4 ⟨2, hb⟩] at hin
  cases hin

end Raampjes.Sched
