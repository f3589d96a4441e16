import Raampjes.Sched.Outcome

/-!
# Dispatch

`dispatch`: over every run of the kernel, each step that calls `sched` leaves what `sched` makes of the state it is
called in (`schedEntry`), with the first running task in cyclic pid order running, or task 1 if none can; the tasks of
slots 0 and 1 stay where they are and are never stopped; and what `free_task` is applied to is stopped, is not running,
and is never switched to again.
-/

namespace Raampjes.Sched

open Runs Tty

variable {k : Kernel}

/-! ## Events of a step -/

theorem mem_scanEvents {e : Event} : e ∈ scanEvents k ↔ ∃ i < MAX_TASKS,
    e = .examined i (k.tasks i) ∨ ∃ t, reapAt k i = some t ∧ e = .freed (afterScan k i) t := by
  simp only [scanEvents, slotEvents, List.mem_flatMap, List.mem_range, List.mem_cons, Option.mem_toList,
    Option.map_eq_some_iff, eq_comm (a := e)]

theorem freed_mem_scanEvents {k' : Kernel} {t : TaskId} (h : .freed k' t ∈ scanEvents k) :
    ∃ i < MAX_TASKS, reapAt k i = some t ∧ k' = afterScan k i := by
  obtain ⟨i, hi, he | ⟨u, hu, he⟩⟩ := mem_scanEvents.mp h
  · cases he
  · cases he
    exact ⟨i, hi, hu, rfl⟩

/-- The events before a sleep: nothing is freed, and `sched` is not called yet. -/
theorem Sleeps.events {a : Act} {c : Cont} {es : List Event} (h : Sleeps k a c es) :
    ∀ e ∈ es, ∃ i < MAX_TASKS, e = .examined i (k.tasks i) := by
  cases h with
  | pause _ => simp
  | read _ _ => simp
  | wait _ hf =>
    intro e he
    obtain ⟨i, hi, rfl | ⟨t, hr, _⟩⟩ := mem_scanEvents.mp he
    · exact ⟨i, hi, rfl⟩
    · rw [lastFound_eq_none.mp hf i hi] at hr
      cases hr

/-- Reports and echoes are neither dispatches nor frees, nor anything else the table knows of. -/
def Event.Quiet : Event → Prop
  | .put _ | .got _ _ _ | .wrote _ _ => True
  | _ => False

theorem Reports.quiet {a : Act} {es : List Event} (h : Reports k a es) : ∀ e ∈ es, e.Quiet := by
  cases h with
  | read _ =>
    intro e he
    rcases List.mem_append.mp he with he | he
    · obtain ⟨c, _, rfl⟩ := List.mem_map.mp he
      trivial
    · rw [List.mem_singleton.mp he]
      trivial
  | write _ =>
    intro e he
    rcases List.mem_append.mp he with he | he
    · obtain ⟨c, _, rfl⟩ := List.mem_map.mp he
      trivial
    · rw [List.mem_singleton.mp he]
      trivial

theorem echo_quiet (accepted : Bool) (c : UInt8) : ∀ e ∈ echo accepted c, e.Quiet := by
  cases accepted with
  | true =>
    intro e he
    rw [List.mem_singleton.mp he]
    trivial
  | false => simp [echo]

theorem keyEvents_quiet (c : UInt8) : ∀ e ∈ keyEvents k c, e.Quiet := echo_quiet _ c

/-- **What a step frees**: the stopped children found by the scan of a `do_wait` that returns. -/
theorem Outcome.freed {t : Kernel} {a : Act} {es : List Event} (h : Outcome k a t es) {k' : Kernel} {u : TaskId}
    (he : .freed k' u ∈ es) : (∃ i < MAX_TASKS, reapAt k i = some u ∧ k' = afterScan k i) ∧
      t = back (afterScan k MAX_TASKS) := by
  cases h with
  | fork _ _ _ _ _ => simp at he
  | sleep hs _ =>
    rcases List.mem_append.mp he with he | he
    · obtain ⟨i, _, hi⟩ := hs.events _ he
      cases hi
    · simp at he
  | tick _ _ => simp at he
  | exit _ _ _ _ => simp at he
  | reap _ _ =>
    rcases List.mem_append.mp he with he | he
    · exact ⟨freed_mem_scanEvents he, rfl⟩
    · simp at he
  | got _ _ => cases List.mem_singleton.mp he
  | writeInput _ => simp at he
  | report _ hr => exact (hr.quiet _ he).elim
  | key _ => exact (keyEvents_quiet _ _ he).elim

/-! ## The calls of `sched` -/

/-- `do_read` sleeps while there is nothing to read, -/
def readEntry (k : Kernel) (nbytes : Nat) : Option Kernel :=
  if bufQueueLength k.terminal.inputBuf = 0 then some (asleep k (.read nbytes)) else none

/-- and `do_wait` after a scan that found nothing. -/
def waitEntry (k : Kernel) (statLoc : Bool) : Option Kernel :=
  if (lastFound k MAX_TASKS).isNone then some (asleep k (.wait statLoc)) else none

/-- The state in which a step calls `sched`, if it does: the timer at once, a task that pauses, reads or waits when it has
to sleep, and a task that exits when its parent is woken. -/
def schedEntry (k : Kernel) (a : Act) : Option Kernel :=
  match k.cur.cont, a with
  | .user, .tick => some k
  | .user, .pause => some (asleep k .user)
  | .user, .exit status => some (exitWoken k status)
  | .user, .read fildes nbytes => if fildes = 0 then readEntry k nbytes else none
  | .user, .wait statLoc => waitEntry k statLoc
  | .read nbytes, .resume => readEntry k nbytes
  | .wait statLoc, .resume => waitEntry k statLoc
  | _, _ => none

def Event.isSwitch : Event → Bool
  | .switch _ _ => true
  | _ => false

/-- `sched` is called in `k'`, and the step ends with what it returns. -/
structure Dispatches (k' t : Kernel) (es : List Event) : Prop where
  sched : sched k' = some (t, [.switch k' t.current])
  /-- The first running task, or else task 1, -/
  choice : SchedChoice k' t.current
  /-- which is in the table under its pid, and not stopped. -/
  slot : t.tasks t.cur.pid = some t.current
  state : t.cur.state ≠ .stopped
  /-- It is the only switch of the step. -/
  once : es.filter Event.isSwitch = [.switch k' t.current]

theorem Reads.entry {a : Act} {nbytes : Nat} (h : Reads k a nbytes) : schedEntry k a = readEntry k nbytes := by
  rcases h with ⟨hc, rfl⟩ | ⟨hc, rfl⟩ <;> unfold schedEntry <;> rw [hc]
  exact if_pos rfl

theorem Scans.entry {a : Act} {statLoc : Bool} (h : Scans k a statLoc) : schedEntry k a = waitEntry k statLoc := by
  rcases h with ⟨hc, rfl⟩ | ⟨hc, rfl⟩ <;> unfold schedEntry <;> rw [hc]

theorem Sleeps.entry {a : Act} {c : Cont} {es : List Event} (h : Sleeps k a c es) :
    schedEntry k a = some (asleep k c) := by
  cases h with
  | pause hc =>
    unfold schedEntry
    rw [hc]
  | read hr hl => rw [hr.entry, readEntry, if_pos hl]
  | wait hs hf => rw [hs.entry, waitEntry, if_pos (by rw [hf]; rfl)]

theorem Reports.entry {a : Act} {es : List Event} (hc : k.cur.cont = .user) (h : Reports k a es) :
    schedEntry k a = none := by
  unfold schedEntry
  cases h with
  | read hf =>
    rw [hc]
    exact if_neg hf
  | write _ => rw [hc]

theorem filter_switch_nil {es : List Event} (h : ∀ e ∈ es, e.isSwitch = false) : es.filter Event.isSwitch = [] :=
  List.filter_eq_nil_iff.mpr fun e he => by simp [h e he]

theorem scanEvents_isSwitch : ∀ e ∈ scanEvents k, e.isSwitch = false := by
  intro e he
  obtain ⟨i, _, rfl | ⟨_, _, rfl⟩⟩ := mem_scanEvents.mp he <;> rfl

theorem Event.Quiet.isSwitch {e : Event} (h : e.Quiet) : e.isSwitch = false := by
  cases e <;> first | rfl | exact h.elim

/-- A step that ends with the choice of `next_process`. -/
theorem SchedChoice.dispatches {k' : Kernel} {next : TaskId} {es : List Event}
    (hs : ∀ {i t}, k'.tasks i = some t → (k'.page t).pid = i)
    (hlow : ∀ {i t}, i ≤ 1 → k'.tasks i = some t → (k'.page t).state ≠ .stopped) (h : SchedChoice k' next)
    (hes : ∀ e ∈ es, e.isSwitch = false) : Dispatches k' { k' with current := next } (es ++ [.switch k' next]) := by
  obtain ⟨hslot, hstate⟩ := h.spec hs hlow
  refine ⟨h.sched hs, h, hslot, hstate, ?_⟩
  rw [List.filter_append, filter_switch_nil hes]
  rfl

/-- The step calls nobody: the running task goes on, or `do_fork` starts its child. -/
structure Stays (k : Kernel) (a : Act) (t : Kernel) (es : List Event) : Prop where
  none : es.filter Event.isSwitch = []
  current : a = .fork ∧ t.current = k.fresh ∨ a ≠ .fork ∧ t.current = k.current

/-- **What a step dispatches.** A step that calls `sched` ends with what `sched` returns, and the others switch nowhere. -/
theorem Outcome.dispatches {t : Kernel} {a : Act} {es : List Event} (hk : Inv k) (h : Outcome k a t es) :
    (∀ k', schedEntry k a = some k' → Dispatches k' t es) ∧ (schedEntry k a = none → Stays k a t es) := by
  have henters : ∀ {k'}, schedEntry k a = some k' → Dispatches k' t es →
      (∀ k', schedEntry k a = some k' → Dispatches k' t es) ∧ (schedEntry k a = none → Stays k a t es) := by
    intro k' hentry hd
    refine ⟨fun k'' he => ?_, fun hnone => ?_⟩
    · rwa [← Option.some.inj (hentry.symm.trans he)]
    · rw [hentry] at hnone
      cases hnone
  have hstays : schedEntry k a = none → (∀ e ∈ es, e.isSwitch = false) →
      (a = .fork ∧ t.current = k.fresh ∨ a ≠ .fork ∧ t.current = k.current) →
      (∀ k', schedEntry k a = some k' → Dispatches k' t es) ∧ (schedEntry k a = none → Stays k a t es) := by
    intro hentry hes hcur
    refine ⟨fun k' he => ?_, fun _ => ⟨filter_switch_nil hes, hcur⟩⟩
    rw [hentry] at he
    cases he
  cases h with
  | fork hc _ _ _ _ => exact hstays (by unfold schedEntry; rw [hc]) (by simp [Event.isSwitch]) (Or.inl ⟨rfl, rfl⟩)
  | @sleep _ c es next hs hn =>
    have hk' := asleep_inv hk c
    refine henters hs.entry (hn.dispatches hk'.slot_pid hk'.low fun e he => ?_)
    obtain ⟨i, _, rfl⟩ := hs.events e he
    rfl
  | @tick next hc hn =>
    exact henters (by unfold schedEntry; rw [hc]) (@SchedChoice.dispatches k next [] hk.slot_pid hk.low hn (by simp))
  | @exit status next hc h0 h1 hn =>
    obtain ⟨hpid, hlow⟩ := exitWoken_spec hk status h0 h1
    exact henters (by unfold schedEntry; rw [hc]) (@SchedChoice.dispatches _ next
      [.exited k.current status, .examined k.cur.ppid (k.tasks k.cur.ppid)] hpid hlow hn (by simp [Event.isSwitch]))
  | reap hs hf =>
    have hentry : schedEntry k a = none := by rw [hs.entry, waitEntry, if_neg (by rw [hf]; exact Bool.false_ne_true)]
    refine hstays hentry (fun e he => ?_) (Or.inr ⟨?_, rfl⟩)
    · rcases List.mem_append.mp he with he | he
      · exact scanEvents_isSwitch e he
      · rw [List.mem_singleton.mp he]
        rfl
    · rcases hs with ⟨_, rfl⟩ | ⟨_, rfl⟩ <;> simp
  | got hr hl =>
    refine hstays (by rw [hr.entry, readEntry, if_neg hl]) (fun e he => ?_) (Or.inr ⟨?_, rfl⟩)
    · rw [List.mem_singleton.mp he]
      rfl
    · rcases hr with ⟨_, rfl⟩ | ⟨_, rfl⟩ <;> simp
  | writeInput hc => exact hstays (by unfold schedEntry; rw [hc]) (by simp [Event.isSwitch]) (Or.inr ⟨by simp, rfl⟩)
  | report hc hr =>
    refine hstays (hr.entry hc) (fun e he => (hr.quiet e he).isSwitch) (Or.inr ⟨?_, rfl⟩)
    cases hr <;> simp
  | @key c hc =>
    refine hstays (by unfold schedEntry; rw [hc]) (fun e he => (keyEvents_quiet c e he).isSwitch) (Or.inr ⟨by simp, ?_⟩)
    exact keyed_current k c

/-- A freed task is stopped, is not the running one, and its slot is neither 0 nor 1. -/
theorem Inv.freed_spec (h : Inv k) {i : Nat} {u : TaskId} (hr : reapAt k i = some u) :
    (k.page u).state = .stopped ∧ u ≠ k.current ∧ 1 < i := by
  obtain ⟨hu, _, hst⟩ := reapAt_eq_some.mp hr
  refine ⟨hst, ?_, ?_⟩
  · rintro rfl
    exact h.cur_state hst
  · by_contra hi
    exact h.low (by omega) hu hst

/-! ## What stays in the table -/

/-- Every slot keeps its task, unless the scan of a `do_wait` that returns frees it. -/
theorem Outcome.keeps {t : Kernel} {a : Act} {es : List Event} (hk : Inv k) (h : Outcome k a t es) {i : Nat}
    {u : TaskId} (hi : k.tasks i = some u) : t.tasks i = some u ∨ reapAt k i = some u ∧ ∃ k', .freed k' u ∈ es := by
  cases h with
  | fork _ _ _ hnone _ =>
    left
    have hne : i ≠ _ := fun e => by rw [e, hnone] at hi; cases hi
    simpa [forked, hne] using hi
  | sleep _ _ => exact Or.inl hi
  | tick _ _ => exact Or.inl hi
  | exit _ _ _ _ => exact Or.inl (by simpa using hi)
  | reap _ _ =>
    cases hr : reapAt k i with
    | none => exact Or.inl (by simpa [back, afterScan, hr] using hi)
    | some v =>
      have hv : v = u := by
        have := (reapAt_eq_some.mp hr).1
        rwa [hi, Option.some.injEq, eq_comm] at this
      subst hv
      have he := mem_scanEvents.mpr ⟨i, hk.slot_lt hi, Or.inr ⟨v, hr, rfl⟩⟩
      exact Or.inr ⟨rfl, _, List.mem_append_left _ he⟩
  | got _ _ => exact Or.inl hi
  | writeInput _ => exact Or.inl hi
  | report _ _ => exact Or.inl hi
  | key _ => exact Or.inl (by rwa [keyed_tasks])

/-- What is in the table after a step was there before, or was just forked. -/
theorem Outcome.origin {t : Kernel} {a : Act} {es : List Event} (h : Outcome k a t es) {i : Nat} {u : TaskId}
    (hi : t.tasks i = some u) : k.tasks i = some u ∨ u = k.fresh ∧ .forked k.current u i ∈ es := by
  cases h with
  | fork _ _ _ _ _ =>
    rename_i newPid _ _ _ _ _
    by_cases hp : i = newPid
    · subst hp
      have hu : u = k.fresh := by simpa [forked, eq_comm] using hi
      exact Or.inr ⟨hu, by simp [hu]⟩
    · exact Or.inl (by simpa [forked, hp] using hi)
  | sleep _ _ => exact Or.inl hi
  | tick _ _ => exact Or.inl hi
  | exit _ _ _ _ => exact Or.inl (by simpa using hi)
  | reap _ _ => exact Or.inl (tasks_of_afterScan (n := MAX_TASKS) hi)
  | got _ _ => exact Or.inl hi
  | writeInput _ => exact Or.inl hi
  | report _ _ => exact Or.inl hi
  | key _ => exact Or.inl (by rwa [keyed_tasks] at hi)

/-- A slot emptied by the scan holds its task no more. -/
theorem Inv.reaped_gone (h : Inv k) {i : Nat} {u : TaskId} (hilt : i < MAX_TASKS) (hr : reapAt k i = some u)
    (j : Nat) : (back (afterScan k MAX_TASKS)).tasks j ≠ some u := by
  intro hj
  have hj' := tasks_of_afterScan (n := MAX_TASKS) hj
  have hij := h.slot_inj (reapAt_eq_some.mp hr).1 hj'
  subst hij
  simp [back, afterScan, hilt, hr] at hj

/-- Tasks freed so far are old, not running and not in the table. -/
def Buried (es : List Event) (k : Kernel) : Prop :=
  ∀ k' u, .freed k' u ∈ es → u < k.fresh ∧ k.current ≠ u ∧ ∀ i, k.tasks i ≠ some u

theorem fresh_mono {t : Kernel} {a : Act} {es : List Event} (h : Outcome k a t es) : k.fresh ≤ t.fresh := by
  cases h with
  | fork _ _ _ _ _ => exact Nat.le_succ _
  | sleep _ _ => exact le_rfl
  | tick _ _ => exact le_rfl
  | exit _ _ _ _ => simp
  | reap _ _ => exact le_rfl
  | got _ _ => exact le_rfl
  | writeInput _ => exact le_rfl
  | report _ _ => exact le_rfl
  | key _ => rw [keyed_fresh]

theorem buried_step {t : Kernel} {a : Act} {es es' : List Event} (hk : Inv k) (ht : Inv t) (h : Outcome k a t es')
    (hb : Buried es k) : Buried (es ++ es') t := by
  intro k' u hu
  have hgone : u < t.fresh ∧ ∀ i, t.tasks i ≠ some u := by
    rcases List.mem_append.mp hu with hu | hu
    · obtain ⟨hlt, _, hni⟩ := hb k' u hu
      refine ⟨Nat.lt_of_lt_of_le hlt (fresh_mono h), fun i hi => ?_⟩
      rcases h.origin hi with ho | ⟨ho, _⟩
      · exact hni i ho
      · exact absurd ho (Nat.ne_of_lt hlt)
    · obtain ⟨⟨i, hi, hr, _⟩, rfl⟩ := h.freed hu
      exact ⟨hk.slot_fresh (reapAt_eq_some.mp hr).1, hk.reaped_gone hi hr⟩
  refine ⟨hgone.1, ?_, hgone.2⟩
  rintro rfl
  exact hgone.2 _ ht.cur_slot

/-! ## Runs -/

variable {xs : List (Step Kernel Act Event)}

theorem inv_run (h : Run step boot xs k) : Inv k :=
  h.inv (C := fun _ _ => True) Inv inv_boot (fun _ _ _ _ hi _ hst => inv_step hi hst) (by simp)

/-- Every step of a run starts in a state with the invariant and is one of the outcomes. -/
theorem outcome_run (h : Run step boot xs k) :
    ∀ x ∈ xs, Inv x.before ∧ Outcome x.before x.act x.after x.events := by
  intro x hx
  obtain ⟨hi, hst⟩ := h.inv_steps (C := fun _ _ => True) Inv inv_boot (fun _ _ _ _ hi _ hst => inv_step hi hst)
    (by simp) x hx
  exact ⟨hi, step_outcome hi hst⟩

end Raampjes.Sched
