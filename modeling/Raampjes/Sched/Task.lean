import Raampjes.Tty.Buffer

/-!
# Tasks and the scheduler

The task table of `sched.c`. A task's page holds its `TaskStruct` and its kernel stack; pages are named by numbers that
are never used twice (`TaskId`), so a pid that is handed out again does not make two tasks one. Of the kernel stack only
the place where the task goes on is kept (`Cont`): back in user mode, or inside the loop of `do_read` or `do_wait` that
called `do_pause`.

Every function returns the new state and the events it gives rise to. `none` is a halted machine: a `panic`, or a
dispatch of the empty slot 1. The scan of `do_wait` and the look at the parent in `do_exit` pass over an empty slot; the
event `examined` records the slot, so that the pointer the code follows there can be spoken of.
-/

namespace Raampjes.Sched

open Tty

def MAX_TASKS : Nat := 64

inductive TaskState
  | running
  | stopped
  | waiting
  deriving DecidableEq, Repr

/-- Where a task goes on when it is switched to. -/
inductive Cont
  | user
  | read (nbytes : Nat)
  | wait (statLoc : Bool)
  deriving DecidableEq, Repr

abbrev TaskId := Nat

structure TaskStruct where
  pid : Nat
  ppid : Nat
  state : TaskState
  exitStatus : Int
  cont : Cont
  deriving DecidableEq, Repr

structure TtyStruct where
  inputBuf : TtyBuffer
  lineBuf : TtyBuffer

/-- The state shared by `sched.c` and `tty.c`. `fresh` is the page the next task will get. -/
structure Kernel where
  page : TaskId → TaskStruct
  tasks : Nat → Option TaskId
  current : TaskId
  fresh : TaskId
  terminal : TtyStruct

inductive Event
  /-- `vga_putchar`. -/
  | put (c : UInt8)
  /-- `sched`, called in state `k`, switches to `next`. -/
  | switch (k : Kernel) (next : TaskId)
  /-- `do_fork` of `parent` makes `child` and gives it `pid`. -/
  | forked (parent child : TaskId) (pid : Nat)
  | exited (task : TaskId) (status : Int)
  /-- The code follows the pointer in `slot`. -/
  | examined (slot : Nat) (task : Option TaskId)
  /-- `free_task`, called in state `k`. -/
  | freed (k : Kernel) (task : TaskId)
  /-- `do_wait` of `task` returns `pid`, with `stat` stored through a non-null `stat_loc`. -/
  | waited (task : TaskId) (pid : Nat) (stat : Option Int)
  /-- `do_read` of `task` returns `ret`, with these bytes in its buffer. -/
  | got (task : TaskId) (bytes : List UInt8) (ret : Int)
  /-- `do_write` of `task` returns `ret`. -/
  | wrote (task : TaskId) (ret : Int)

namespace Kernel

/-- The `TaskStruct` that `current` points to. -/
def cur (k : Kernel) : TaskStruct := k.page k.current

def setTask (k : Kernel) (t : TaskId) (x : TaskStruct) : Kernel := { k with page := Function.update k.page t x }

section SetTask

variable (k : Kernel) (t : TaskId) (x : TaskStruct)

@[simp] theorem setTask_tasks : (k.setTask t x).tasks = k.tasks := rfl

@[simp] theorem setTask_current : (k.setTask t x).current = k.current := rfl

@[simp] theorem setTask_fresh : (k.setTask t x).fresh = k.fresh := rfl

@[simp] theorem setTask_terminal : (k.setTask t x).terminal = k.terminal := rfl

@[simp] theorem setTask_page : (k.setTask t x).page t = x := Function.update_self ..

theorem setTask_page_of_ne {u : TaskId} (h : u ≠ t) : (k.setTask t x).page u = k.page u :=
  Function.update_of_ne h ..

@[simp] theorem setTask_self : k.setTask t (k.page t) = k := by simp [setTask]

end SetTask

end Kernel

/-! ## Dispatch -/

/-- The loop of `next_process`: the pid of the first running task after `prev - 1`, in cyclic order. -/
def nextRunning (k : Kernel) (prev : Nat) : Option Nat :=
  (List.range MAX_TASKS).findSome? fun i =>
    match k.tasks ((i + prev) % MAX_TASKS) with
    | some t => if (k.page t).state = .running then some (k.page t).pid else none
    | none => none

def nextProcess (k : Kernel) : Option TaskId := k.tasks ((nextRunning k (k.cur.pid + 1)).getD 1)

def sched (k : Kernel) : Option (Kernel × List Event) :=
  (nextProcess k).map fun next => ({ k with current := next }, [.switch k next])

/-- `do_pause`; the caller goes on at `c` when it is switched to again. -/
def doPause (k : Kernel) (c : Cont) : Option (Kernel × List Event) :=
  sched (k.setTask k.current { k.cur with state := .waiting, cont := c })

/-! ## Waking -/

def wakeUp (k : Kernel) (p : TaskId) : Option Kernel :=
  if (k.page p).state = .running then none
  else some (k.setTask p { k.page p with state := .running })

/-- One round of `wake_up_all`. -/
def wakeSlot (k : Kernel) (i : Nat) : Option Kernel :=
  match k.tasks i with
  | some t => if (k.page t).state = .waiting then wakeUp k t else some k
  | none => some k

def wakeUpAll (k : Kernel) : Option Kernel := (List.range MAX_TASKS).foldlM wakeSlot k

/-! ## Fork, exit, wait -/

def findEmptyTask (k : Kernel) : Nat := ((List.range MAX_TASKS).find? fun i => (k.tasks i).isNone).getD 0

/-- The copy of the running task that `do_fork` makes: it will return to user mode from `do_fork`. -/
def forkTask (k : Kernel) (newPid : Nat) : TaskStruct :=
  { k.cur with pid := newPid, ppid := k.cur.pid, cont := .user }

/-- `do_fork`. `wake_up_new` switches to the child at once. -/
def doFork (k : Kernel) : Option (Kernel × List Event) :=
  let newPid := findEmptyTask k
  if newPid = 0 then none
  else some ({ k with
      page := Function.update k.page k.fresh (forkTask k newPid)
      tasks := Function.update k.tasks newPid (some k.fresh)
      current := k.fresh
      fresh := k.fresh + 1 },
    [.forked k.current k.fresh newPid])

/-- The parent's side of `do_exit`: a waiting parent is woken. -/
def wakeParent (k : Kernel) : Option Kernel :=
  match k.tasks k.cur.ppid with
  | some p => if (k.page p).state = .waiting then wakeUp k p else some k
  | none => some k

def doExit (k : Kernel) (status : Int) : Option (Kernel × List Event) :=
  if k.cur.pid = 0 ∨ k.cur.pid = 1 then none
  else do
    let stopped := k.setTask k.current { k.cur with exitStatus := status, state := .stopped }
    let woken ← wakeParent stopped
    let (k', es) ← sched woken
    some (k', .exited k.current status :: .examined k.cur.ppid (stopped.tasks k.cur.ppid) :: es)

def freeTask (k : Kernel) (p : TaskId) : Kernel := { k with tasks := Function.update k.tasks (k.page p).pid none }

/-- A stopped task whose `ppid` is the pid of the running task. -/
def stoppedChild (k : Kernel) (t : TaskId) : Bool :=
  (k.page t).ppid == k.cur.pid && (k.page t).state == .stopped

/-- The locals of `do_wait` during a scan: `child_found`, what `*stat_loc` was set to, and the events so far. -/
structure Scan where
  kernel : Kernel
  childFound : Nat
  stat : Int
  events : List Event

/-- One round of the scan. -/
def scanSlot (s : Scan) (i : Nat) : Scan :=
  match s.kernel.tasks i with
  | none => { s with events := s.events ++ [.examined i none] }
  | some t =>
    if stoppedChild s.kernel t then
      { kernel := freeTask s.kernel t
        childFound := (s.kernel.page t).pid
        stat := (s.kernel.page t).exitStatus
        events := s.events ++ [.examined i (some t), .freed s.kernel t] }
    else { s with events := s.events ++ [.examined i (some t)] }

/-- The first `n` rounds of the scan. -/
def scanTo (k : Kernel) (n : Nat) : Scan := (List.range n).foldl scanSlot ⟨k, 0, 0, []⟩

/-- The rounds of `do_wait` up to its return or to the next sleep. -/
def doWait (k : Kernel) (statLoc : Bool) : Option (Kernel × List Event) :=
  let s := scanTo k MAX_TASKS
  if s.childFound ≠ 0 then
    some (s.kernel.setTask k.current { s.kernel.cur with cont := .user },
      s.events ++ [.waited k.current s.childFound (if statLoc then some s.stat else none)])
  else (doPause s.kernel (.wait statLoc)).map fun (k', es) => (k', s.events ++ es)

end Raampjes.Sched
