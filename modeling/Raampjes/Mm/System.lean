import Raampjes.Lib.Runs
import Raampjes.Mm.Exec

/-!
# Processes and their memory

The memory side of `do_fork`, `do_exit`, `do_wait` and `do_read`, the accesses of user mode, and the steps of the
whole: one access of the running process or one system call of it, or a switch to another process. Which process runs
next is left open. An access that is not permitted runs the page-fault handler; its retry is a step of its own. A call
of `do_wait` is one scan of the task table, after which the caller may be waiting.

Where `do_exit` and `do_wait` come to an empty slot of the table, the source reads through `NULL`; here such a slot is
passed over (`wakeParent`, `waitSlot`).
-/

namespace Raampjes.Mm

open Progs Sched

/-- `switch_task`: `current` is set first, so `page_frame` reads the directory of the next task. -/
def switchTask (next : Nat) : Kernel Unit := do
  update fun m => { m with current := next }
  let t ← gets Machine.cur
  let frame ← pageFrame t.pageDirectory
  update fun m => { m with cr3 := frame }

/-- `find_empty_task`. -/
def emptySlot (m : Machine) : Nat := ((List.range MAX_TASKS).find? fun i => (m.tasks i).isNone).getD 0

section Alloc

variable (alloc : Kernel Nat)

/-! ## Fork, exit, wait -/

/-- `do_fork`. The child runs first. -/
def doFork : Kernel Unit := do
  let newTask ← allocPage alloc KERNEL_MEMORY (PG_KERN ||| PG_RW)
  onlyIf (newTask < KERNEL_MEMORY) (stop .panic)
  let t ← gets Machine.cur
  let pageDirectory ← forkMem alloc t.pageDirectory
  let newPid ← gets emptySlot
  onlyIf (newPid = 0) (stop .panic)
  let child : TaskStruct :=
    { t with addr := newTask, esp0 := newTask + PAGE_SIZE, pageDirectory := pageDirectory, pid := newPid, ppid := t.pid }
  update fun m => { m with tasks := Function.update m.tasks newPid (some child) }
  switchTask newPid

/-- A waiting parent is woken. -/
def wakeParent (m : Machine) : Machine :=
  match m.tasks m.cur.ppid with
  | some p =>
    if p.state = .waiting then { m with tasks := Function.update m.tasks m.cur.ppid (some { p with state := .running }) }
    else m
  | none => m

/-- `do_exit` up to its call of `sched`. -/
def doExit (status : Int) : Kernel Unit := do
  let t ← gets Machine.cur
  onlyIf (t.pid = 0 ∨ t.pid = 1) (stop .panic)
  update fun m => m.setCur { m.cur with exitStatus := status, state := .stopped }
  freeMemUsr alloc
  update wakeParent

def freeTask (t : TaskStruct) : Kernel Unit := do
  update fun m => { m with tasks := Function.update m.tasks t.pid none }
  freePage alloc t.pageDirectory
  freePage alloc t.addr

/-- Byte `i` of an `int`. -/
def intByte (n : Int) (i : Nat) : UInt8 := UInt8.ofNat ((n % 2 ^ 32).toNat / 2 ^ (8 * i) % 256)

/-- One round of the scan of `do_wait`. -/
def waitSlot (statLoc i : Nat) : Kernel Unit := do
  let cur ← gets Machine.cur
  let slot ← gets fun m => m.tasks i
  match slot with
  | some t =>
    onlyIf (t.ppid = cur.pid ∧ t.state = .stopped) (do
      onlyIf (statLoc ≠ NULL) (storeBytes alloc statLoc (intByte t.exitStatus) 4)
      freeTask alloc t)
  | none => pure ()

/-- The round finds a stopped child. -/
def findsChild (m : Machine) : Bool :=
  (List.range MAX_TASKS).any fun i =>
    (m.tasks i).any fun t => t.ppid == m.cur.pid && decide (t.state = .stopped)

/-- One scan of `do_wait`, and the pause after a scan that found nothing. -/
def doWait (statLoc : Nat) : Kernel Unit := do
  let found ← gets findsChild
  loop (waitSlot alloc statLoc) MAX_TASKS
  onlyIf (!found) (update fun m => m.setCur { m.cur with state := .waiting })

/-! ## User mode -/

/-- The access is permitted to user mode. -/
def permits (m : Machine) (addr : Nat) (write : Bool) : Bool :=
  let pde := m.ram m.cr3 (dirIndex addr)
  let pte := m.ram (frameOf pde) (pageTableIndex addr)
  present pde && present pte && user pde && user pte && (!write || writable pde && writable pte)

/-- The page fault of a user access that is not permitted. -/
def userFault (addr : Nat) : Kernel Unit := do
  let here ← gets fun m => (walk m.ram m.cr3 addr).isSome
  pageFault alloc addr here

def userStore (addr : Nat) (b : UInt8) : Kernel Unit := do
  let ok ← gets fun m => permits m addr true
  if ok then pokeByte addr b else userFault alloc addr

def userLoad (addr : Nat) : Kernel Unit := do
  let ok ← gets fun m => permits m addr false
  onlyIf (!ok) (userFault alloc addr)

/-! ## Steps -/

inductive Act
  /-- The scheduler switches to the task in a slot. -/
  | switch (next : Nat)
  | fork
  | exit (status : Int)
  | wait (statLoc : Nat)
  | execve (file : Option File)
  | sbrk (incr : Int)
  /-- `do_read` stores these bytes of the input queue. -/
  | read (buf : Nat) (bytes : List UInt8)
  | store (addr : Nat) (b : UInt8)
  | load (addr : Nat)

/-- The program of an action. -/
def Act.run : Act → Kernel Unit
  | .switch next => switchTask next
  | .fork => doFork alloc
  | .exit status => doExit alloc status
  | .wait statLoc => doWait alloc statLoc
  | .execve file => do
    let _ ← doExecve alloc file
    pure ()
  | .sbrk incr => do
    let _ ← doSbrk incr
    pure ()
  | .read buf bytes => storeBytes alloc buf (fun i => bytes.getD i 0) bytes.length
  | .store addr b => userStore alloc addr b
  | .load addr => userLoad alloc addr

/-- A switch goes to a task that is not stopped; everything else is done by a running task, at 32-bit addresses. -/
def Act.enabled (m : Machine) : Act → Bool
  | .switch next => (m.tasks next).any fun t => decide (t.state ≠ .stopped)
  | .store addr _ => decide (m.cur.state = .running) && decide (addr < 2 ^ 32)
  | .load addr => decide (m.cur.state = .running) && decide (addr < 2 ^ 32)
  | _ => decide (m.cur.state = .running)

def step (m : Machine) (a : Act) : Option (Machine × List Empty) :=
  if a.enabled m then
    match a.run alloc m with
    | .ok (_, m') => some (m', [])
    | .error _ => none
  else none

end Alloc

/-! ## Boot -/

/-- Where the linker put the page directory, the first page table and the first task; all of the kernel lies in the
first 4 MiB of physical memory. -/
structure Image where
  directory : Nat
  table : Nat
  task : Nat
  directory_lt : directory < 1024
  table_lt : table < 1024
  ne : directory ≠ table
  task_ge : KERNEL_MEMORY ≤ task
  task_le : task + PAGE_SIZE ≤ KERNEL_MEMORY + 2 ^ 22

/-- The tables that `bootstrap.asm` sets up, in memory with any other contents. -/
def bootRam (img : Image) (ram : Nat → Nat → Word) (f i : Nat) : Word :=
  if f = img.table then mkEntry i 3#32
  else if f = img.directory then if i = 0 ∨ i = 768 then mkEntry img.table 3#32 else 0#32
  else ram f i

/-- The first task, after `init_sched`. -/
def initTask (img : Image) : TaskStruct :=
  { noTask with
    addr := img.task
    esp0 := img.task + PAGE_SIZE
    pageDirectory := KERNEL_MEMORY + img.directory * PAGE_SIZE
    state := .running }

/-- `init_mm`, with the frame table that `init_phys_mm` leaves. -/
def initMm (img : Image) (m : Machine) : Machine :=
  let m := m.setWord img.directory 1023 (mkEntry img.directory 3#32)
  m.setWord img.directory 0 (absent (m.ram img.directory 0))

/-- The state after `init_mm` and `init_sched`. -/
def boot (img : Image) (tag : MmapTag) (table : FrameTable) (ram : Nat → Nat → Word) : Machine :=
  initMm img {
    ram := bootRam img ram
    bitmap := fun f => (initPhysMm tag table).counter f
    cr3 := img.directory
    tasks := fun i => if i = 0 then some (initTask img) else none
    current := 0 }

end Raampjes.Mm
