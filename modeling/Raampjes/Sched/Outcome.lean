import Raampjes.Sched.Invariant

/-!
# The outcomes of a step

`Outcome k a t es` lists what a step of the kernel can be, with the state after written out; `step_outcome` says that
there is nothing else. All invariants of the kernel are proved by a case analysis of `Outcome`, the first of them being
`Inv` itself (`inv_step`).
-/

namespace Raampjes.Sched

open Tty

variable {k : Kernel}

/-! ## The states after -/

/-- The running task waits and will go on at `c`. -/
def asleep (k : Kernel) (c : Cont) : Kernel := k.setTask k.current { k.cur with state := .waiting, cont := c }

/-- The running task returns to user mode. -/
def back (k : Kernel) : Kernel := k.setTask k.current { k.cur with cont := .user }

def forked (k : Kernel) (newPid : Nat) : Kernel :=
  { k with
    page := Function.update k.page k.fresh (forkTask k newPid)
    tasks := Function.update k.tasks newPid (some k.fresh)
    current := k.fresh
    fresh := k.fresh + 1 }

def exitStopped (k : Kernel) (status : Int) : Kernel :=
  k.setTask k.current { k.cur with exitStatus := status, state := .stopped }

/-- The parent of the running task, if its slot is taken and it waits. -/
def waitingParent (k : Kernel) : Option TaskId :=
  (k.tasks k.cur.ppid).filter fun p => (k.page p).state == .waiting

def exitWoken (k : Kernel) (status : Int) : Kernel :=
  match waitingParent (exitStopped k status) with
  | some p => (exitStopped k status).setTask p { (exitStopped k status).page p with state := .running }
  | none => exitStopped k status

/-- `tty_input`: the state after. -/
def keyed (k : Kernel) (c : UInt8) : Kernel :=
  if c = backspace then setLine k (bufRestore k.terminal.lineBuf).2
  else if c = newline then
    let moved := moveQueue (bufEnqueue k.terminal.lineBuf c).2 k.terminal.inputBuf
    awakeBelow (setInput (setLine k moved.1) moved.2) MAX_TASKS
  else setLine k (bufEnqueue k.terminal.lineBuf c).2

@[simp] theorem keyed_tasks (k : Kernel) (c : UInt8) : (keyed k c).tasks = k.tasks := by
  unfold keyed
  split_ifs <;> simp

@[simp] theorem keyed_fresh (k : Kernel) (c : UInt8) : (keyed k c).fresh = k.fresh := by
  unfold keyed
  split_ifs <;> simp

theorem keyed_current (k : Kernel) (c : UInt8) : (keyed k c).current = k.current := by
  unfold keyed
  split_ifs <;> simp [awakeBelow]

def keyEvents (k : Kernel) (c : UInt8) : List Event :=
  echo (if c = backspace then (bufRestore k.terminal.lineBuf).1 ≠ 0 else (bufEnqueue k.terminal.lineBuf c).1 ≠ 0) c

/-! ## The cases -/

/-- The step is a scan of `do_wait`, entered or gone on with. -/
def Scans (k : Kernel) (a : Act) (statLoc : Bool) : Prop :=
  k.cur.cont = .user ∧ a = .wait statLoc ∨ k.cur.cont = .wait statLoc ∧ a = .resume

/-- The step is a look at `input_buf` by `do_read`, entered or gone on with. -/
def Reads (k : Kernel) (a : Act) (nbytes : Nat) : Prop :=
  k.cur.cont = .user ∧ a = .read 0 nbytes ∨ k.cur.cont = .read nbytes ∧ a = .resume

/-- The step ends in `do_pause`, after the events `es`, and the task will go on at `c`. -/
inductive Sleeps (k : Kernel) : Act → Cont → List Event → Prop
  | pause : k.cur.cont = .user → Sleeps k .pause .user []
  | read {a : Act} {nbytes : Nat} : Reads k a nbytes → bufQueueLength k.terminal.inputBuf = 0 →
      Sleeps k a (.read nbytes) []
  | wait {a : Act} {statLoc : Bool} : Scans k a statLoc → lastFound k MAX_TASKS = none →
      Sleeps k a (.wait statLoc) (scanEvents k)

/-- What a read of `nbytes` takes from `input_buf`. -/
def taken (k : Kernel) (nbytes : Nat) : List UInt8 × TtyBuffer :=
  let bufLen := bufQueueLength k.terminal.inputBuf
  dequeueMany (if bufLen > nbytes then nbytes else bufLen) k.terminal.inputBuf

/-- Steps that only report: reads and writes of other descriptors than 0. -/
inductive Reports (k : Kernel) : Act → List Event → Prop
  | read {fildes : Int} {nbytes : Nat} {s : String} {ret : Int} : fildes ≠ 0 →
      Reports k (.read fildes nbytes) (kprintf s ++ [.got k.current [] ret])
  | write {fildes : Int} {bytes out : List UInt8} {ret : Int} : fildes ≠ 0 →
      Reports k (.write fildes bytes) (out.map .put ++ [.wrote k.current ret])

inductive Outcome (k : Kernel) : Act → Kernel → List Event → Prop
  | fork {newPid : Nat} : k.cur.cont = .user → newPid ≠ 0 → newPid < MAX_TASKS → k.tasks newPid = none →
      newPid = findEmptyTask k → Outcome k .fork (forked k newPid) [.forked k.current k.fresh newPid]
  | sleep {a : Act} {c : Cont} {es : List Event} {next : TaskId} : Sleeps k a c es → SchedChoice (asleep k c) next →
      Outcome k a { asleep k c with current := next } (es ++ [.switch (asleep k c) next])
  | tick {next : TaskId} : k.cur.cont = .user → SchedChoice k next →
      Outcome k .tick { k with current := next } [.switch k next]
  | exit {status : Int} {next : TaskId} : k.cur.cont = .user → k.cur.pid ≠ 0 → k.cur.pid ≠ 1 →
      SchedChoice (exitWoken k status) next →
      Outcome k (.exit status) { exitWoken k status with current := next }
        [.exited k.current status, .examined k.cur.ppid (k.tasks k.cur.ppid), .switch (exitWoken k status) next]
  | reap {a : Act} {statLoc : Bool} {c : TaskId} : Scans k a statLoc → lastFound k MAX_TASKS = some c →
      Outcome k a (back (afterScan k MAX_TASKS)) (scanEvents k ++
        [.waited k.current (k.page c).pid (if statLoc then some (k.page c).exitStatus else none)])
  | got {a : Act} {nbytes : Nat} : Reads k a nbytes → bufQueueLength k.terminal.inputBuf ≠ 0 →
      Outcome k a (setInput (back k) (taken k nbytes).2)
        [.got k.current (taken k nbytes).1 (taken k nbytes).1.length]
  | writeInput {bytes : List UInt8} : k.cur.cont = .user →
      Outcome k (.write 0 bytes) (setInput k (enqueueAll k.terminal.inputBuf (bytes.drop 1)))
        [.wrote k.current (ssize (max 1 bytes.length + 1))]
  | report {a : Act} {es : List Event} : k.cur.cont = .user → Reports k a es → Outcome k a k es
  | key {c : UInt8} : k.cur.cont = .user → Outcome k (.key c) (keyed k c) (keyEvents k c)

theorem Inv.asleep_pid (h : Inv k) (c : Cont) {i : Nat} {t : TaskId} (hi : (asleep k c).tasks i = some t) :
    ((asleep k c).page t).pid = i := by
  by_cases ht : t = k.current
  · subst ht
    simpa [asleep, Kernel.cur] using h.slot_pid hi
  · rw [asleep, Kernel.setTask_page_of_ne _ _ _ ht]
    exact h.slot_pid hi

theorem Inv.exitStopped_pid (h : Inv k) (status : Int) {i : Nat} {t : TaskId}
    (hi : (exitStopped k status).tasks i = some t) : ((exitStopped k status).page t).pid = i := by
  by_cases ht : t = k.current
  · subst ht
    simpa [exitStopped, Kernel.cur] using h.slot_pid hi
  · rw [exitStopped, Kernel.setTask_page_of_ne _ _ _ ht]
    exact h.slot_pid hi

@[simp] theorem exitWoken_tasks (k : Kernel) (status : Int) : (exitWoken k status).tasks = k.tasks := by
  unfold exitWoken
  split <;> rfl

@[simp] theorem exitWoken_fresh (k : Kernel) (status : Int) : (exitWoken k status).fresh = k.fresh := by
  unfold exitWoken
  split <;> rfl

@[simp] theorem exitWoken_terminal (k : Kernel) (status : Int) : (exitWoken k status).terminal = k.terminal := by
  unfold exitWoken
  split <;> rfl

/-- Waking changes no pid and no parent, and only what waits. -/
theorem exitWoken_page (k : Kernel) (status : Int) (t : TaskId) :
    (exitWoken k status).page t = (exitStopped k status).page t ∨
      ((exitStopped k status).page t).state = .waiting ∧
        (exitWoken k status).page t = { (exitStopped k status).page t with state := .running } := by
  unfold exitWoken
  cases hp : waitingParent (exitStopped k status) with
  | none => exact Or.inl rfl
  | some p =>
    by_cases ht : t = p
    · subst ht
      simp only [waitingParent, Option.filter_eq_some_iff, beq_iff_eq] at hp
      exact Or.inr ⟨hp.2, by simp⟩
    · exact Or.inl (Kernel.setTask_page_of_ne _ _ _ ht)

theorem exitWoken_pid (k : Kernel) (status : Int) (t : TaskId) :
    ((exitWoken k status).page t).pid = ((exitStopped k status).page t).pid := by
  rcases exitWoken_page k status t with h | ⟨_, h⟩ <;> rw [h]

/-- The parent's side of `do_exit`. -/
theorem wakeParent_eq (k : Kernel) (status : Int) :
    wakeParent (exitStopped k status) = some (exitWoken k status) := by
  unfold wakeParent exitWoken waitingParent
  cases (exitStopped k status).tasks (exitStopped k status).cur.ppid with
  | none => simp
  | some p =>
    by_cases hw : ((exitStopped k status).page p).state = .waiting
    · simp [hw, wakeUp, Option.filter]
    · simp [hw, Option.filter]

/-! ## Nothing else can happen -/

/-- A stopped child of the running task is not in slot 0. -/
theorem Inv.found_pid (h : Inv k) {c : TaskId} (hc : lastFound k MAX_TASKS = some c) : (k.page c).pid ≠ 0 := by
  obtain ⟨i, _, hr⟩ := lastFound_some hc
  obtain ⟨hi, _, hst⟩ := reapAt_eq_some.mp hr
  intro h0
  rw [h.slot_pid hi] at h0
  exact h.low (by omega) hi hst

theorem doPause_outcome {t : Kernel} {c : Cont} {es : List Event} (h : Inv k) (hst : doPause k c = some (t, es)) :
    ∃ next, SchedChoice (asleep k c) next ∧ t = { asleep k c with current := next } ∧
      es = [.switch (asleep k c) next] :=
  sched_choice (fun hi => h.asleep_pid c hi) hst

theorem doWait_outcome {t : Kernel} {a : Act} {statLoc : Bool} {es : List Event} (h : Inv k)
    (ha : Scans k a statLoc) (hst : doWait k statLoc = some (t, es)) : Outcome k a t es := by
  simp only [doWait, scanTo_eq h.slot_pid] at hst
  cases hf : lastFound k MAX_TASKS with
  | none =>
    simp only [hf, Option.elim_none, ne_eq, not_true_eq_false, ↓reduceIte, afterScan_of_none hf,
      Option.map_eq_some_iff, Prod.mk.injEq, Prod.exists] at hst
    obtain ⟨t', es', hp, rfl, rfl⟩ := hst
    obtain ⟨next, hn, rfl, rfl⟩ := doPause_outcome h hp
    exact .sleep (.wait ha hf) hn
  | some c =>
    have hpid := h.found_pid hf
    simp only [hf, Option.elim_some, ne_eq, hpid, not_false_eq_true, ↓reduceIte, Option.some.injEq,
      Prod.mk.injEq] at hst
    obtain ⟨rfl, rfl⟩ := hst
    exact .reap ha hf

theorem readInput_outcome {t : Kernel} {a : Act} {nbytes : Nat} {es : List Event} (h : Inv k)
    (ha : Reads k a nbytes) (hst : readInput k nbytes = some (t, es)) : Outcome k a t es := by
  by_cases hl : bufQueueLength k.terminal.inputBuf = 0
  · rw [readInput, if_pos hl] at hst
    obtain ⟨next, hn, rfl, rfl⟩ := doPause_outcome h hst
    exact .sleep (.read ha hl) hn
  · rw [readInput, if_neg hl, Option.some.injEq, Prod.mk.injEq] at hst
    obtain ⟨rfl, rfl⟩ := hst
    simpa only [taken, back] using Outcome.got ha hl

theorem doFork_outcome {t : Kernel} {es : List Event} (hc : k.cur.cont = .user) (hst : doFork k = some (t, es)) :
    Outcome k .fork t es := by
  by_cases hp : findEmptyTask k = 0
  · simp [doFork, hp] at hst
  · simp only [doFork, hp, ↓reduceIte, Option.some.injEq, Prod.mk.injEq] at hst
    obtain ⟨rfl, rfl⟩ := hst
    obtain ⟨hlt, hnone, _⟩ := findEmptyTask_spec hp
    exact .fork hc hp hlt hnone rfl

theorem doExit_outcome {t : Kernel} {status : Int} {es : List Event} (h : Inv k) (hc : k.cur.cont = .user)
    (hst : doExit k status = some (t, es)) : Outcome k (.exit status) t es := by
  by_cases hp : k.cur.pid = 0 ∨ k.cur.pid = 1
  · simp [doExit, hp] at hst
  · have hw : wakeParent (k.setTask k.current { k.cur with exitStatus := status, state := .stopped }) =
        some (exitWoken k status) := wakeParent_eq k status
    simp only [doExit, hp, ↓reduceIte, hw, Option.bind_eq_bind, Option.bind_some, Option.bind_eq_some_iff,
      Option.some.injEq, Prod.mk.injEq, Prod.exists] at hst
    obtain ⟨t', es', hs, rfl, rfl⟩ := hst
    have hpid : ∀ {i u}, (exitWoken k status).tasks i = some u → ((exitWoken k status).page u).pid = i := by
      intro i u hi
      rw [exitWoken_pid]
      rw [exitWoken_tasks] at hi
      exact h.exitStopped_pid status hi
    obtain ⟨next, hn, rfl, rfl⟩ := sched_choice hpid hs
    exact .exit hc (fun h0 => hp (Or.inl h0)) (fun h1 => hp (Or.inr h1)) hn

theorem ttyInput_eq (h : Inv k) (c : UInt8) : ttyInput k c = some (keyed k c, keyEvents k c) := by
  by_cases hb : c = backspace
  · simp [ttyInput, keyed, keyEvents, hb]
  · by_cases hn : c = newline
    · subst hn
      have hw : ∀ line input, wakeUpAll (setInput (setLine k line) input) =
          some (awakeBelow (setInput (setLine k line) input) MAX_TASKS) :=
        fun line input => wakeUpAll_eq h.slot_pid
      simp [ttyInput, keyed, keyEvents, hb, hw]
    · simp [ttyInput, keyed, keyEvents, hb, hn]

theorem kprintf_eq (text : String) : ∃ out : List UInt8, kprintf text = out.map .put :=
  ⟨text.toList.map fun c => UInt8.ofNat c.toNat, by simp [kprintf]⟩

theorem doWrite_outcome {t : Kernel} {fildes : Int} {bytes : List UInt8} {es : List Event}
    (hc : k.cur.cont = .user) (hst : doWrite k fildes bytes = some (t, es)) :
    Outcome k (.write fildes bytes) t es := by
  unfold doWrite at hst
  split at hst
  · rename_i h0
    subst h0
    simp only [Option.some.injEq, Prod.mk.injEq] at hst
    obtain ⟨rfl, rfl⟩ := hst
    exact .writeInput hc
  · rename_i h0
    split at hst <;> simp only [Option.some.injEq, Prod.mk.injEq] at hst <;> obtain ⟨rfl, rfl⟩ := hst
    · exact .report hc (.write h0)
    · obtain ⟨out, ho⟩ := kprintf_eq "Writing to files is not (yet) supported..."
      rw [ho]
      exact .report hc (.write h0)

theorem doRead_outcome {t : Kernel} {fildes : Int} {nbytes : Nat} {es : List Event} (h : Inv k)
    (hc : k.cur.cont = .user) (hst : doRead k fildes nbytes = some (t, es)) :
    Outcome k (.read fildes nbytes) t es := by
  unfold doRead at hst
  split at hst
  · rename_i h0
    subst h0
    exact readInput_outcome h (Or.inl ⟨hc, rfl⟩) hst
  · rename_i h0
    split at hst <;> simp only [Option.some.injEq, Prod.mk.injEq] at hst <;> obtain ⟨rfl, rfl⟩ := hst
    · exact .report hc (Reports.read (s := "") h0)
    · exact .report hc (.read h0)

/-- **Every step is one of the outcomes.** -/
theorem step_outcome {t : Kernel} {a : Act} {es : List Event} (h : Inv k) (hst : step k a = some (t, es)) :
    Outcome k a t es := by
  unfold step at hst
  split at hst
  case h_1 hc => exact doFork_outcome hc hst
  case h_2 hc =>
    obtain ⟨next, hn, rfl, rfl⟩ := doPause_outcome h hst
    exact .sleep (.pause hc) hn
  case h_3 hc => exact doExit_outcome h hc hst
  case h_4 hc => exact doWait_outcome h (Or.inl ⟨hc, rfl⟩) hst
  case h_5 hc => exact doRead_outcome h hc hst
  case h_6 hc => exact doWrite_outcome hc hst
  case h_7 hc =>
    obtain ⟨next, hn, rfl, rfl⟩ := sched_choice h.slot_pid hst
    exact .tick hc hn
  case h_8 hc =>
    simp only [ttyInput_eq h, Option.some.injEq, Prod.mk.injEq] at hst
    obtain ⟨rfl, rfl⟩ := hst
    exact .key hc
  case h_9 hc => exact readInput_outcome h (Or.inr ⟨hc, rfl⟩) hst
  case h_10 hc => exact doWait_outcome h (Or.inr ⟨hc, rfl⟩) hst
  case h_11 => cases hst

/-! ## The invariant -/

/-- A change of the running task's page that keeps its pid and does not stop it. -/
theorem Inv.setCur {k' : Kernel} (h : Inv k) {x : TaskStruct} (hk : k' = k.setTask k.current x)
    (hpid : x.pid = k.cur.pid) (hst : x.state ≠ .stopped) : Inv k' := by
  subst hk
  have hpage : ∀ u, ((k.setTask k.current x).page u).pid = (k.page u).pid := by
    intro u
    by_cases hu : u = k.current
    · rw [hu, Kernel.setTask_page, hpid]
      rfl
    · rw [Kernel.setTask_page_of_ne _ _ _ hu]
  refine ⟨fun hi => ?_, h.slot_lt, h.slot_fresh, ?_, ?_, h.init, fun {i t} hi ht => ?_⟩
  · rw [hpage]
    exact h.slot_pid hi
  · simpa [Kernel.cur, hpid] using h.cur_slot
  · simpa [Kernel.cur] using hst
  · by_cases hu : t = k.current
    · rw [hu, Kernel.setTask_page]
      exact hst
    · rw [Kernel.setTask_page_of_ne _ _ _ hu]
      exact h.low hi ht

theorem asleep_inv (h : Inv k) (c : Cont) : Inv (asleep k c) := h.setCur rfl rfl (by simp)

theorem back_inv (h : Inv k) : Inv (back k) := h.setCur rfl rfl h.cur_state

/-- The chosen task is in the table under its pid, and not stopped. -/
theorem SchedChoice.spec (hs : ∀ {i t}, k.tasks i = some t → (k.page t).pid = i)
    (hlow : ∀ {i t}, i ≤ 1 → k.tasks i = some t → (k.page t).state ≠ .stopped) {next : TaskId}
    (hn : SchedChoice k next) : k.tasks (k.page next).pid = some next ∧ (k.page next).state ≠ .stopped := by
  rcases hn with ⟨i, _, ⟨ht, hr⟩, _⟩ | ⟨_, h1⟩
  · rw [hs ht]
    exact ⟨ht, by simp [hr]⟩
  · rw [hs h1]
    exact ⟨h1, hlow le_rfl h1⟩

theorem sched_inv (h : Inv k) {next : TaskId} (hn : SchedChoice k next) : Inv { k with current := next } :=
  have hspec := hn.spec h.slot_pid h.low
  ⟨h.slot_pid, h.slot_lt, h.slot_fresh, hspec.1, hspec.2, h.init, h.low⟩

theorem forked_inv (h : Inv k) {newPid : Nat} (h0 : newPid ≠ 0) (hlt : newPid < MAX_TASKS)
    (hnone : k.tasks newPid = none) : Inv (forked k newPid) := by
  have hold : ∀ {i t}, (forked k newPid).tasks i = some t →
      i = newPid ∧ t = k.fresh ∨ i ≠ newPid ∧ k.tasks i = some t ∧ (forked k newPid).page t = k.page t := by
    intro i t hi
    by_cases hp : i = newPid
    · subst hp
      refine Or.inl ⟨rfl, ?_⟩
      simpa [forked, eq_comm] using hi
    · have hi : k.tasks i = some t := by simpa [forked, hp] using hi
      exact Or.inr ⟨hp, hi, Function.update_of_ne (Nat.ne_of_lt (h.slot_fresh hi)) _ _⟩
  have hchild : (forked k newPid).page k.fresh = forkTask k newPid := Function.update_self ..
  refine ⟨fun hi => ?_, fun hi => ?_, fun hi => ?_, ?_, ?_, ?_, fun hi ht => ?_⟩
  · rcases hold hi with ⟨rfl, rfl⟩ | ⟨_, ht, hpage⟩
    · rw [hchild]
      rfl
    · rw [hpage]
      exact h.slot_pid ht
  · rcases hold hi with ⟨rfl, rfl⟩ | ⟨_, ht, _⟩
    · exact hlt
    · exact h.slot_lt ht
  · rcases hold hi with ⟨rfl, rfl⟩ | ⟨_, ht, _⟩
    · exact Nat.lt_succ_self _
    · exact Nat.lt_succ_of_lt (h.slot_fresh ht)
  · show (forked k newPid).tasks ((forked k newPid).page k.fresh).pid = some k.fresh
    rw [hchild]
    exact Function.update_self ..
  · show ((forked k newPid).page k.fresh).state ≠ .stopped
    rw [hchild]
    exact h.cur_state
  · have := h.init
    simpa [forked, Ne.symm h0] using this
  · rcases hold ht with ⟨rfl, rfl⟩ | ⟨_, ht, hpage⟩
    · rw [hchild]
      exact h.cur_state
    · rw [hpage]
      exact h.low hi ht

/-- The slots emptied by a scan hold stopped tasks. -/
theorem afterScan_tasks {n i : Nat} {t : TaskId} (hi : k.tasks i = some t)
    (hst : (k.page t).state ≠ .stopped) : (afterScan k n).tasks i = some t := by
  have hr : reapAt k i = none := by
    cases hr : reapAt k i with
    | none => rfl
    | some u =>
      obtain ⟨hu, _, hs⟩ := reapAt_eq_some.mp hr
      rw [hi, Option.some.injEq] at hu
      exact absurd (hu ▸ hs) hst
  simpa [afterScan, hr] using hi

theorem tasks_of_afterScan {n i : Nat} {t : TaskId} (hi : (afterScan k n).tasks i = some t) :
    k.tasks i = some t := by
  simp only [afterScan] at hi
  split at hi
  · cases hi
  · exact hi

theorem afterScan_inv (h : Inv k) (n : Nat) : Inv (afterScan k n) := by
  refine ⟨fun hi => h.slot_pid (tasks_of_afterScan hi), fun hi => h.slot_lt (tasks_of_afterScan hi),
    fun hi => h.slot_fresh (tasks_of_afterScan hi), afterScan_tasks h.cur_slot h.cur_state, h.cur_state, ?_,
    fun hi ht => h.low hi (tasks_of_afterScan ht)⟩
  obtain ⟨t, ht⟩ := Option.ne_none_iff_exists'.mp h.init
  rw [afterScan_tasks ht (h.low (Nat.zero_le _) ht)]
  simp

/-- What `do_exit` leaves, before it calls `sched`: the invariant but for the running task being stopped. -/
theorem exitWoken_spec (h : Inv k) (status : Int) (h0 : k.cur.pid ≠ 0) (h1 : k.cur.pid ≠ 1) :
    (∀ {i t}, (exitWoken k status).tasks i = some t → ((exitWoken k status).page t).pid = i) ∧
      (∀ {i t}, i ≤ 1 → (exitWoken k status).tasks i = some t →
        ((exitWoken k status).page t).state ≠ .stopped) := by
  constructor
  · intro i t hi
    rw [exitWoken_pid]
    exact h.exitStopped_pid status (by rwa [exitWoken_tasks] at hi)
  · intro i t hi ht
    rw [exitWoken_tasks] at ht
    have hne : t ≠ k.current := by
      rintro rfl
      have := h.slot_pid ht
      simp only [Kernel.cur] at h0 h1
      omega
    rcases exitWoken_page k status t with hp | ⟨_, hp⟩ <;> rw [hp]
    · rw [exitStopped, Kernel.setTask_page_of_ne _ _ _ hne]
      exact h.low hi ht
    · simp

theorem exit_inv (h : Inv k) {status : Int} {next : TaskId} (h0 : k.cur.pid ≠ 0) (h1 : k.cur.pid ≠ 1)
    (hn : SchedChoice (exitWoken k status) next) : Inv { exitWoken k status with current := next } := by
  obtain ⟨hpid, hlow⟩ := exitWoken_spec h status h0 h1
  have hspec := hn.spec hpid hlow
  refine ⟨hpid, fun hi => h.slot_lt (by rwa [exitWoken_tasks] at hi), fun hi => ?_, hspec.1, hspec.2, ?_, hlow⟩
  · rw [exitWoken_fresh]
    exact h.slot_fresh (by rwa [exitWoken_tasks] at hi)
  · rw [exitWoken_tasks]
    exact h.init

theorem awakeBelow_inv (h : Inv k) (n : Nat) : Inv (awakeBelow k n) := by
  have hpage : ∀ u, ((awakeBelow k n).page u).pid = (k.page u).pid ∧
      ((k.page u).state ≠ .stopped → ((awakeBelow k n).page u).state ≠ .stopped) := by
    intro u
    unfold awakeBelow
    dsimp only
    split <;> simp
  have hcur : (awakeBelow k n).cur.pid = k.cur.pid := (hpage k.current).1
  refine ⟨fun hi => ?_, h.slot_lt, h.slot_fresh, ?_, (hpage k.current).2 h.cur_state, h.init, fun hi ht => ?_⟩
  · rw [(hpage _).1]
    exact h.slot_pid hi
  · rw [hcur]
    exact h.cur_slot
  · exact (hpage _).2 (h.low hi ht)

theorem setInput_inv (h : Inv k) (buf : TtyBuffer) : Inv (setInput k buf) :=
  ⟨h.slot_pid, h.slot_lt, h.slot_fresh, h.cur_slot, h.cur_state, h.init, h.low⟩

theorem setLine_inv (h : Inv k) (buf : TtyBuffer) : Inv (setLine k buf) :=
  ⟨h.slot_pid, h.slot_lt, h.slot_fresh, h.cur_slot, h.cur_state, h.init, h.low⟩

theorem keyed_inv (h : Inv k) (c : UInt8) : Inv (keyed k c) := by
  unfold keyed
  split
  · exact setLine_inv h _
  · split
    · exact awakeBelow_inv (setInput_inv (setLine_inv h _) _) _
    · exact setLine_inv h _

/-- **The invariant is kept.** -/
theorem inv_step {t : Kernel} {a : Act} {es : List Event} (h : Inv k) (hst : step k a = some (t, es)) : Inv t := by
  cases step_outcome h hst with
  | fork _ h0 hlt hnone _ => exact forked_inv h h0 hlt hnone
  | sleep _ hn => exact sched_inv (asleep_inv h _) hn
  | tick _ hn => exact sched_inv h hn
  | exit _ h0 h1 hn => exact exit_inv h h0 h1 hn
  | reap _ _ => exact back_inv (afterScan_inv h _)
  | got _ _ => exact setInput_inv (back_inv h) _
  | writeInput _ => exact setInput_inv h _
  | report _ _ => exact h
  | key _ => exact keyed_inv h _

theorem inv_boot : Inv boot := by
  have hslot : ∀ {i t}, boot.tasks i = some t → i = 0 ∧ t = 0 := by
    intro i t hi
    simp only [boot] at hi
    split at hi <;> simp_all
  refine ⟨fun hi => (hslot hi).1.symm, fun hi => ?_, fun hi => ?_, rfl, by decide, by simp [boot], fun _ _ => ?_⟩
  · rw [(hslot hi).1]
    decide
  · rw [(hslot hi).2]
    decide
  · simp [boot]

end Raampjes.Sched
