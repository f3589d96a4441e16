import Raampjes.Sched.Task

/-!
# The terminal, and the steps of the kernel

`tty_input`, `do_write` and `do_read` of `tty.c`, and the step function of the whole. Interrupts are off inside the
kernel, so a step is one entry of the kernel (a system call, the timer, a key) up to its return or to the point where it
calls `sched`, or, when a task is switched to inside `do_read` or `do_wait`, the rest of that call up to the same
points (`resume`).
-/

namespace Raampjes.Sched

open Tty

/-- The character codes that `tty_input` tells apart. -/
def backspace : UInt8 := 8

def newline : UInt8 := 10

def setLine (k : Kernel) (buf : TtyBuffer) : Kernel := { k with terminal := { k.terminal with lineBuf := buf } }

def setInput (k : Kernel) (buf : TtyBuffer) : Kernel := { k with terminal := { k.terminal with inputBuf := buf } }

section Buffers

variable (k : Kernel) (buf : TtyBuffer)

@[simp] theorem setLine_page : (setLine k buf).page = k.page := rfl

@[simp] theorem setLine_tasks : (setLine k buf).tasks = k.tasks := rfl

@[simp] theorem setLine_current : (setLine k buf).current = k.current := rfl

@[simp] theorem setLine_fresh : (setLine k buf).fresh = k.fresh := rfl

@[simp] theorem setLine_lineBuf : (setLine k buf).terminal.lineBuf = buf := rfl

@[simp] theorem setLine_inputBuf : (setLine k buf).terminal.inputBuf = k.terminal.inputBuf := rfl

@[simp] theorem setInput_page : (setInput k buf).page = k.page := rfl

@[simp] theorem setInput_tasks : (setInput k buf).tasks = k.tasks := rfl

@[simp] theorem setInput_current : (setInput k buf).current = k.current := rfl

@[simp] theorem setInput_fresh : (setInput k buf).fresh = k.fresh := rfl

@[simp] theorem setInput_lineBuf : (setInput k buf).terminal.lineBuf = k.terminal.lineBuf := rfl

@[simp] theorem setInput_inputBuf : (setInput k buf).terminal.inputBuf = buf := rfl

end Buffers

/-- The character is shown if `line_buf` took it. -/
def echo (accepted : Bool) (c : UInt8) : List Event := if accepted then [.put c] else []

def ttyInput (k : Kernel) (c : UInt8) : Option (Kernel × List Event) :=
  if c = backspace then
    let (r, line) := bufRestore k.terminal.lineBuf
    some (setLine k line, echo (r ≠ 0) c)
  else if c = newline then do
    let (r, line) := bufEnqueue k.terminal.lineBuf c
    let (line, input) := moveQueue line k.terminal.inputBuf
    let k' ← wakeUpAll (setInput (setLine k line) input)
    some (k', echo (r ≠ 0) c)
  else
    let (r, line) := bufEnqueue k.terminal.lineBuf c
    some (setLine k line, echo (r ≠ 0) c)

/-- `kprintf` of a text without conversions. -/
def kprintf (text : String) : List Event := text.toList.map fun c => .put (UInt8.ofNat c.toNat)

/-- The loop of `do_write` on descriptor 0. -/
def enqueueAll (buf : TtyBuffer) (bytes : List UInt8) : TtyBuffer :=
  bytes.foldl (fun b c => (bufEnqueue b c).2) buf

/-- An `unsigned int` returned as `ssize_t`. -/
def ssize (i : Nat) : Int := (i : Int).bmod 0x100000000

/-- `do_write` of all of `bytes`. On descriptor 0 the loop starts at 1 and `i + 1` is returned. -/
def doWrite (k : Kernel) (fildes : Int) (bytes : List UInt8) : Option (Kernel × List Event) :=
  if fildes = 0 then
    let i := max 1 bytes.length
    some (setInput k (enqueueAll k.terminal.inputBuf (bytes.drop 1)), [.wrote k.current (ssize (i + 1))])
  else if fildes = 1 ∨ fildes = 2 then
    some (k, bytes.map .put ++ [.wrote k.current (ssize bytes.length)])
  else some (k, kprintf "Writing to files is not (yet) supported..." ++ [.wrote k.current (-1)])

/-- The loop of `do_read`: `n` characters, one after the other. -/
def dequeueMany : Nat → TtyBuffer → List UInt8 × TtyBuffer
  | 0, buf => ([], buf)
  | n + 1, buf =>
    let (c, buf') := bufDequeue buf
    let (cs, buf'') := dequeueMany n buf'
    (c :: cs, buf'')

/-- The rounds of `do_read` on descriptor 0 up to its return or to the next sleep. -/
def readInput (k : Kernel) (nbytes : Nat) : Option (Kernel × List Event) :=
  let bufLen := bufQueueLength k.terminal.inputBuf
  if bufLen = 0 then doPause k (.read nbytes)
  else
    let r := dequeueMany (if bufLen > nbytes then nbytes else bufLen) k.terminal.inputBuf
    some (setInput (k.setTask k.current { k.cur with cont := .user }) r.2, [.got k.current r.1 r.1.length])

def doRead (k : Kernel) (fildes : Int) (nbytes : Nat) : Option (Kernel × List Event) :=
  if fildes = 0 then readInput k nbytes
  else if fildes = 1 ∨ fildes = 2 then some (k, [.got k.current [] 0])
  else some (k, kprintf "Reading from files is not (yet) supported..." ++ [.got k.current [] (-1)])

inductive Act
  | fork
  | pause
  | exit (status : Int)
  | wait (statLoc : Bool)
  | read (fildes : Int) (nbytes : Nat)
  | write (fildes : Int) (bytes : List UInt8)
  /-- The timer calls `sched`. -/
  | tick
  /-- The keyboard calls `tty_input`. -/
  | key (c : UInt8)
  /-- The running task goes on inside the call it slept in. -/
  | resume

def step (k : Kernel) (a : Act) : Option (Kernel × List Event) :=
  match k.cur.cont, a with
  | .user, .fork => doFork k
  | .user, .pause => doPause k .user
  | .user, .exit status => doExit k status
  | .user, .wait statLoc => doWait k statLoc
  | .user, .read fildes nbytes => doRead k fildes nbytes
  | .user, .write fildes bytes => doWrite k fildes bytes
  | .user, .tick => sched k
  | .user, .key c => ttyInput k c
  | .read nbytes, .resume => readInput k nbytes
  | .wait statLoc, .resume => doWait k statLoc
  | _, _ => none

/-- The state after `init_sched`: the initial task in slot 0, running, its parent pid 0. -/
def boot : Kernel where
  page _ := ⟨0, 0, .running, 0, .user⟩
  tasks i := if i = 0 then some 0 else none
  current := 0
  fresh := 1
  terminal := ⟨emptyAt 0 fun _ => 0, emptyAt 0 fun _ => 0⟩

end Raampjes.Sched
