import Raampjes.Lib.CyclicScan
import Raampjes.Sched.Step

/-!
# What the steps of the kernel do

`Inv` is what every reachable state has: slot `i` holds a task with pid `i`, the running task is in the table and not
stopped, slot 0 is taken, and the tasks of slots 0 and 1 are not stopped. Under `Inv` every function of `sched.c` is
described in one equation or one choice (`nextProcess_choice`, `findEmptyTask_spec`, `wakeUpAll_eq`, `scanTo_eq`), and
`step_outcome` lists what a step can be. `inv_step` follows.
-/

namespace Raampjes.Sched

open Tty

structure Inv (k : Kernel) : Prop where
  slot_pid : ∀ {i t}, k.tasks i = some t → (k.page t).pid = i
  slot_lt : ∀ {i t}, k.tasks i = some t → i < MAX_TASKS
  slot_fresh : ∀ {i t}, k.tasks i = some t → t < k.fresh
  cur_slot : k.tasks k.cur.pid = some k.current
  cur_state : k.cur.state ≠ .stopped
  init : k.tasks 0 ≠ none
  low : ∀ {i t}, i ≤ 1 → k.tasks i = some t → (k.page t).state ≠ .stopped

variable {k : Kernel}

/-- A task is in one slot only. -/
theorem Inv.slot_inj (h : Inv k) {i j : Nat} {t : TaskId} (hi : k.tasks i = some t) (hj : k.tasks j = some t) :
    i = j := by
  rw [← h.slot_pid hi, h.slot_pid hj]

/-! ## The choice of the next task -/

/-- Slot `i` holds `t`, which is running. -/
def Running (k : Kernel) (i : Nat) (t : TaskId) : Prop := k.tasks i = some t ∧ (k.page t).state = .running

/-- The first running task in cyclic pid order after the pid of the current task, the current task itself last. -/
def FirstRunning (k : Kernel) (next : TaskId) : Prop :=
  ∃ i < MAX_TASKS, Running k ((i + (k.cur.pid + 1)) % MAX_TASKS) next ∧
    ∀ j < i, ∀ t, ¬Running k ((j + (k.cur.pid + 1)) % MAX_TASKS) t

def NoneRunning (k : Kernel) : Prop := ∀ i < MAX_TASKS, ∀ t, ¬Running k i t

/-- The first running task, or the task of slot 1 if there is none. -/
def SchedChoice (k : Kernel) (next : TaskId) : Prop :=
  FirstRunning k next ∨ NoneRunning k ∧ k.tasks 1 = some next

/-- One round of the loop of `next_process`. -/
theorem nextRunning_round (k : Kernel) (i p : Nat) :
    (match k.tasks i with
      | some t => if (k.page t).state = .running then some (k.page t).pid else none
      | none => none) = some p ↔ ∃ t, Running k i t ∧ (k.page t).pid = p := by
  unfold Running
  cases k.tasks i with
  | none => simp
  | some t => simp

theorem nextRunning_round_none (k : Kernel) (i : Nat) :
    (match k.tasks i with
      | some t => if (k.page t).state = .running then some (k.page t).pid else none
      | none => none) = none ↔ ∀ t, ¬Running k i t := by
  unfold Running
  cases k.tasks i with
  | none => simp
  | some t => simp

theorem nextRunning_some {p : Nat} (hs : ∀ {i t}, k.tasks i = some t → (k.page t).pid = i)
    (hn : nextRunning k (k.cur.pid + 1) = some p) : ∃ t, k.tasks p = some t ∧ FirstRunning k t := by
  obtain ⟨i, hi, hp, hj⟩ := CyclicScan.findSome_range_eq_some.mp hn
  obtain ⟨t, hr, hpid⟩ := (nextRunning_round _ _ _).mp hp
  refine ⟨t, ?_, i, hi, hr, fun j hji => (nextRunning_round_none _ _).mp (hj j hji)⟩
  rw [← hpid, hs hr.1]
  exact hr.1

theorem nextRunning_none (hn : nextRunning k (k.cur.pid + 1) = none) : NoneRunning k := by
  intro j hj
  obtain ⟨i, hi, rfl⟩ := CyclicScan.exists_offset (k.cur.pid + 1) hj
  exact (nextRunning_round_none _ _).mp (CyclicScan.findSome_range_eq_none.mp hn i hi)

/-- **`next_process`.** If every slot holds its own pid, the choice is the first running task or else slot 1. -/
theorem nextProcess_choice {next : TaskId} (hs : ∀ {i t}, k.tasks i = some t → (k.page t).pid = i)
    (hn : nextProcess k = some next) : SchedChoice k next := by
  unfold nextProcess at hn
  cases hr : nextRunning k (k.cur.pid + 1) with
  | some p =>
    obtain ⟨t, ht, hf⟩ := nextRunning_some hs hr
    rw [hr, Option.getD_some, ht, Option.some.injEq] at hn
    exact Or.inl (hn ▸ hf)
  | none =>
    rw [hr, Option.getD_none] at hn
    exact Or.inr ⟨nextRunning_none hr, hn⟩

/-- There is no other choice. -/
theorem SchedChoice.nextProcess {next : TaskId} (hs : ∀ {i t}, k.tasks i = some t → (k.page t).pid = i)
    (h : SchedChoice k next) : nextProcess k = some next := by
  rcases h with ⟨i, hi, hr, hfirst⟩ | ⟨hnone, h1⟩
  · have hround := (nextRunning_round k _ _).mpr ⟨next, hr, rfl⟩
    have hscan : nextRunning k (k.cur.pid + 1) = some (k.page next).pid := by
      refine CyclicScan.findSome_range_eq_some.mpr ⟨i, hi, hround, fun j hj => ?_⟩
      exact (nextRunning_round_none k _).mpr (hfirst j hj)
    rw [Sched.nextProcess, hscan, Option.getD_some, hs hr.1, hr.1]
  · have hscan : nextRunning k (k.cur.pid + 1) = none := by
      refine CyclicScan.findSome_range_eq_none.mpr fun i _ => ?_
      exact (nextRunning_round_none k _).mpr (hnone _ (Nat.mod_lt _ (by decide)))
    rw [Sched.nextProcess, hscan, Option.getD_none, h1]

theorem SchedChoice.sched {next : TaskId} (hs : ∀ {i t}, k.tasks i = some t → (k.page t).pid = i)
    (h : SchedChoice k next) : sched k = some ({ k with current := next }, [.switch k next]) := by
  rw [Sched.sched, h.nextProcess hs]
  rfl

theorem sched_choice {t : Kernel} {es : List Event} (hs : ∀ {i t}, k.tasks i = some t → (k.page t).pid = i)
    (h : sched k = some (t, es)) :
    ∃ next, SchedChoice k next ∧ t = { k with current := next } ∧ es = [.switch k next] := by
  simp only [sched, Option.map_eq_some_iff, Prod.mk.injEq] at h
  obtain ⟨next, hn, rfl, rfl⟩ := h
  exact ⟨next, nextProcess_choice hs hn, rfl, rfl⟩

/-! ## The empty slot -/

/-- **`find_empty_task`** finds the first empty slot, and 0 if there is none. -/
theorem findEmptyTask_spec (hne : findEmptyTask k ≠ 0) : findEmptyTask k < MAX_TASKS ∧
    k.tasks (findEmptyTask k) = none ∧ ∀ j < findEmptyTask k, k.tasks j ≠ none := by
  unfold findEmptyTask at hne ⊢
  cases hf : (List.range MAX_TASKS).find? fun i => (k.tasks i).isNone with
  | none => simp [hf] at hne
  | some i =>
    have hi := List.mem_range.mp (List.mem_of_find?_eq_some hf)
    have hp := List.find?_some hf
    rw [Option.getD_some]
    refine ⟨hi, by simpa using hp, fun j hj => ?_⟩
    have := (List.find?_range_eq_some.mp hf).2.2 j hj
    simpa [← Option.isSome_iff_ne_none] using this

/-! ## Waking -/

/-- The tasks of slots below `n` that wait are made running. -/
def awakeBelow (k : Kernel) (n : Nat) : Kernel :=
  { k with page := fun t =>
      if (k.page t).pid < n ∧ k.tasks (k.page t).pid = some t ∧ (k.page t).state = .waiting then
        { k.page t with state := .running }
      else k.page t }

@[simp] theorem awakeBelow_tasks (n : Nat) : (awakeBelow k n).tasks = k.tasks := rfl

@[simp] theorem awakeBelow_fresh (n : Nat) : (awakeBelow k n).fresh = k.fresh := rfl

@[simp] theorem awakeBelow_terminal (n : Nat) : (awakeBelow k n).terminal = k.terminal := rfl

theorem awakeBelow_page_eq {n : Nat} {t : TaskId} (h : ¬((k.page t).pid < n ∧ k.tasks (k.page t).pid = some t ∧
    (k.page t).state = .waiting)) : (awakeBelow k n).page t = k.page t := if_neg h

theorem awakeBelow_page_wake {n : Nat} {t : TaskId} (h : (k.page t).pid < n ∧ k.tasks (k.page t).pid = some t ∧
    (k.page t).state = .waiting) : (awakeBelow k n).page t = { k.page t with state := .running } := if_pos h

/-- One more slot: nothing changes but the task in it. -/
theorem awakeBelow_succ_of_ne {n : Nat} {t : TaskId} (hne : k.tasks n ≠ some t) : (awakeBelow k (n + 1)).page t = (awakeBelow k n).page t := by
  by_cases h : (k.page t).pid < n ∧ k.tasks (k.page t).pid = some t ∧ (k.page t).state = .waiting
  · rw [awakeBelow_page_wake h, awakeBelow_page_wake ⟨by omega, h.2⟩]
  · rw [awakeBelow_page_eq h, awakeBelow_page_eq]
    rintro ⟨hlt, hslot, hw⟩
    have hn : (k.page t).pid = n := by
      by_contra hn
      exact h ⟨by omega, hslot, hw⟩
    exact hne (hn ▸ hslot)

theorem wakeSlot_awakeBelow (hs : ∀ {i t}, k.tasks i = some t → (k.page t).pid = i) (n : Nat) :
    wakeSlot (awakeBelow k n) n = some (awakeBelow k (n + 1)) := by
  unfold wakeSlot
  rw [awakeBelow_tasks]
  cases hn : k.tasks n with
  | none =>
    have hp : (awakeBelow k n).page = (awakeBelow k (n + 1)).page :=
      funext fun t => (awakeBelow_succ_of_ne (by simp [hn])).symm
    simp only [awakeBelow] at hp ⊢
    rw [hp]
  | some t =>
    have hpid := hs hn
    have hold : (awakeBelow k n).page t = k.page t := awakeBelow_page_eq (by omega)
    have hrest : ∀ u, u ≠ t → (awakeBelow k (n + 1)).page u = (awakeBelow k n).page u := fun u hu =>
      awakeBelow_succ_of_ne (by rw [hn]; simpa using Ne.symm hu)
    have hkernel : ∀ x, x = (awakeBelow k (n + 1)).page t → (awakeBelow k n).setTask t x = awakeBelow k (n + 1) := by
      intro x hx
      have hp : Function.update (awakeBelow k n).page t x = (awakeBelow k (n + 1)).page := by
        funext u
        by_cases hu : u = t
        · rw [hu, Function.update_self, hx]
        · rw [Function.update_of_ne hu, hrest u hu]
      simp only [Kernel.setTask, awakeBelow] at hp ⊢
      rw [hp]
    simp only [hold]
    split
    · rename_i hw
      rw [wakeUp, hold, if_neg (by simp [hw]), hkernel _ (awakeBelow_page_wake ⟨by omega, hpid ▸ hn, hw⟩).symm]
    · rename_i hw
      rw [← hkernel ((awakeBelow k n).page t) (by rw [hold, awakeBelow_page_eq (fun h => hw h.2.2)])]
      rw [Kernel.setTask_self]

/-- **`wake_up_all`** wakes all waiting tasks of the table and never meets a running one. -/
theorem wakeUpAll_eq (hs : ∀ {i t}, k.tasks i = some t → (k.page t).pid = i) :
    wakeUpAll k = some (awakeBelow k MAX_TASKS) := by
  have hmain : ∀ n, (List.range n).foldlM wakeSlot k = some (awakeBelow k n) := by
    intro n
    induction n with
    | zero => simp [awakeBelow]
    | succ n ih =>
      rw [List.range_succ, List.foldlM_append, ih]
      simpa using wakeSlot_awakeBelow hs n
  exact hmain MAX_TASKS

/-! ## The scan of `do_wait` -/

/-- The stopped child that the scan finds in slot `i`. -/
def reapAt (k : Kernel) (i : Nat) : Option TaskId := (k.tasks i).filter (stoppedChild k)

theorem reapAt_eq_some {i : Nat} {t : TaskId} : reapAt k i = some t ↔ k.tasks i = some t ∧
    (k.page t).ppid = k.cur.pid ∧ (k.page t).state = .stopped := by
  simp [reapAt, Option.filter_eq_some_iff, stoppedChild]

/-- The table after `n` rounds. -/
def afterScan (k : Kernel) (n : Nat) : Kernel :=
  { k with tasks := fun i => if i < n ∧ (reapAt k i).isSome then none else k.tasks i }

/-- The last stopped child in the slots below `n`. -/
def lastFound (k : Kernel) : Nat → Option TaskId
  | 0 => none
  | n + 1 => (reapAt k n).or (lastFound k n)

/-- What the scan does at slot `i`. -/
def slotEvents (k : Kernel) (i : Nat) : List Event :=
  .examined i (k.tasks i) :: ((reapAt k i).map fun t => .freed (afterScan k i) t).toList

def scanEvents (k : Kernel) : List Event := (List.range MAX_TASKS).flatMap (slotEvents k)

theorem afterScan_zero (k : Kernel) : afterScan k 0 = k := by simp [afterScan]

theorem afterScan_succ_of_none {n : Nat} (h : reapAt k n = none) : afterScan k (n + 1) = afterScan k n := by
  have ht : (afterScan k (n + 1)).tasks = (afterScan k n).tasks := by
    funext i
    rcases Nat.lt_trichotomy i n with hi | rfl | hi
    · simp [afterScan, hi, hi.le]
    · simp [afterScan, h]
    · simp [afterScan, hi.not_gt, hi.not_ge]
  simp only [afterScan] at ht ⊢
  rw [ht]

theorem freeTask_afterScan {n : Nat} {t : TaskId} (hs : ∀ {i t}, k.tasks i = some t → (k.page t).pid = i)
    (h : reapAt k n = some t) : freeTask (afterScan k n) t = afterScan k (n + 1) := by
  have hpid : (k.page t).pid = n := hs (reapAt_eq_some.mp h).1
  have ht : Function.update (afterScan k n).tasks n none = (afterScan k (n + 1)).tasks := by
    funext i
    rcases Nat.lt_trichotomy i n with hi | rfl | hi
    · simp [afterScan, hi, hi.le, hi.ne]
    · simp [afterScan, h]
    · simp [afterScan, hi.not_gt, hi.not_ge, hi.ne']
  simp only [freeTask, afterScan, hpid] at ht ⊢
  rw [ht]

/-- **The scan**: which slots are emptied, what is found last, and what is recorded. -/
theorem scanTo_eq (hs : ∀ {i t}, k.tasks i = some t → (k.page t).pid = i) (n : Nat) :
    scanTo k n = ⟨afterScan k n, (lastFound k n).elim 0 fun t => (k.page t).pid,
      (lastFound k n).elim 0 fun t => (k.page t).exitStatus, (List.range n).flatMap (slotEvents k)⟩ := by
  induction n with
  | zero => simp [scanTo, afterScan_zero, lastFound]
  | succ n ih =>
    have hround : scanTo k (n + 1) = scanSlot (scanTo k n) n := by
      simp [scanTo, List.range_succ]
    have htasks : (afterScan k n).tasks n = k.tasks n := by simp [afterScan]
    rw [hround, ih, scanSlot, List.range_succ, List.flatMap_append, List.flatMap_singleton, htasks]
    cases hn : k.tasks n with
    | none =>
      have hr : reapAt k n = none := by simp [reapAt, hn]
      simp [afterScan_succ_of_none hr, lastFound, hr, slotEvents, hn]
    | some t =>
      by_cases hc : stoppedChild k t = true
      · have hr : reapAt k n = some t := by simp [reapAt, hn, hc]
        have hc' : stoppedChild (afterScan k n) t = true := hc
        simp only [hc', ↓reduceIte, freeTask_afterScan hs hr, lastFound, hr, slotEvents, hn]
        rfl
      · have hr : reapAt k n = none := by simp [reapAt, hn, hc]
        have hc' : ¬stoppedChild (afterScan k n) t = true := hc
        simp [hc', afterScan_succ_of_none hr, lastFound, hr, slotEvents, hn]

theorem lastFound_eq_none {n : Nat} : lastFound k n = none ↔ ∀ i < n, reapAt k i = none := by
  induction n with
  | zero => simp [lastFound]
  | succ n ih =>
    rw [lastFound, Option.or_eq_none_iff, ih]
    constructor
    · rintro ⟨hn, h⟩ i hi
      rcases Nat.lt_succ_iff_lt_or_eq.mp hi with hi | rfl
      · exact h i hi
      · exact hn
    · exact fun h => ⟨h n n.lt_succ_self, fun i hi => h i (Nat.lt_succ_of_lt hi)⟩

theorem lastFound_some {n : Nat} {t : TaskId} (h : lastFound k n = some t) : ∃ i < n, reapAt k i = some t := by
  induction n with
  | zero => simp [lastFound] at h
  | succ n ih =>
    rw [lastFound, Option.or_eq_some_iff] at h
    rcases h with h | ⟨_, h⟩
    · exact ⟨n, n.lt_succ_self, h⟩
    · obtain ⟨i, hi, hr⟩ := ih h
      exact ⟨i, Nat.lt_succ_of_lt hi, hr⟩

/-- A scan that finds nothing leaves the table alone. -/
theorem afterScan_of_none {n : Nat} (h : lastFound k n = none) : afterScan k n = k := by
  have ht : (fun i => if i < n ∧ (reapAt k i).isSome then none else k.tasks i) = k.tasks := by
    funext i
    by_cases hi : i < n
    · simp [lastFound_eq_none.mp h i hi]
    · simp [hi]
  simp only [afterScan]
  rw [ht]

end Raampjes.Sched
