import Raampjes.Entry.Waiting

/-!
# Entering and leaving the kernel

What the processor does for an interrupt, and the assembly around the functions that serve it. Every word that is pushed
is popped into the register that it came from, so the code that was stopped goes on as if nothing had happened.

- `deliver_pushes`, `iret_returns`: the processor, with code of a user and of the kernel;
- `enterHandler_pushes`, `leaveHandler_returns`: the two halves of `handler`; `handlers_agree`: its second argument;
- `Serves`: a function that leaves its caller's stack alone; `compiled_serves`;
- **`interrupt_returns`**, **`syscall_returns`**: the whole way, and what the functions find as their arguments.
-/

namespace Raampjes.Entry

open Progs Flat

def SEG_KERNEL_DATA : Nat := 0x10

/-- The code that an interrupt stops: where it is, its flags, and the segment of its stack. -/
structure Context where
  eip : Nat
  cs : Nat
  eflags : Nat
  ss : Nat

/-- The code runs at privilege level 3. -/
def Context.user (ctx : Context) : Bool := ctx.cs % 4 == 3

/-- The exceptions for which the processor pushes an error code. -/
def hasErrorCode (n : Nat) : Bool := decide (n ∈ [8, 10, 11, 12, 13, 14, 17])

def interruptFlag (eflags : Nat) : Bool := eflags.testBit 9

/-! ## The code -/

/-- `pop`, of a word that the processor keeps. -/
def take : OnCpu Nat := do
  let v ← load Cpu.esp
  drop 4
  pure v

/-- What the processor does before the first instruction of handler `n`. The gates are trap gates: the interrupt flag
stays. -/
def deliver (link : Link) (n errorCode : Nat) (ctx : Context) : OnCpu Unit := do
  let esp ← gets Cpu.esp
  onlyIf ctx.user (do
    loadTo (fun v s => { s with esp := v }) fun _ => link.tssEsp0
    push fun _ => ctx.ss
    push fun _ => esp)
  push fun _ => ctx.eflags
  push fun _ => ctx.cs
  push fun _ => ctx.eip
  onlyIf (hasErrorCode n) (push fun _ => errorCode)

def cli : OnCpu Unit := update fun s => { s with interruptible := false }

def sti : OnCpu Unit := update fun s => { s with interruptible := true }

/-- `iret`: the code that goes on. Only code of a user has left its stack. -/
def iret : OnCpu Context := do
  let eip ← take
  let cs ← take
  let eflags ← take
  update fun s => { s with interruptible := interruptFlag eflags }
  if cs % 4 = 3 then do
    let esp ← take
    let ss ← take
    update fun s => { s with esp := esp }
    pure ⟨eip, cs, eflags, ss⟩
  else pure ⟨eip, cs, eflags, SEG_KERNEL_DATA⟩

/-- `handler n, code` up to its call. -/
def enterHandler (n : Nat) (code : Bool) : OnCpu Unit := do
  cli
  onlyIf (!code) (push fun _ => 0)
  pusha
  push fun _ => n

def leaveHandler : OnCpu Context := do
  drop 4
  popa
  drop 4
  sti
  iret

/-- `handler n, code`. -/
def handler (n : Nat) (code : Bool) (behind : Nat) (mainIntrHandler : OnCpu Nat) : OnCpu Context := do
  enterHandler n code
  call behind mainIntrHandler
  leaveHandler

def handlers : List (Nat × Bool) :=
  [(0, false), (1, false), (2, false), (3, false), (4, false), (5, false), (6, false), (7, false), (8, true),
    (9, false), (10, true), (11, true), (12, true), (13, true), (14, true), (16, false), (17, true), (18, false),
    (19, false), (20, false), (32, false), (33, false), (34, false), (35, false), (36, false), (37, false),
    (38, false), (39, false), (40, false), (41, false), (42, false), (43, false), (44, false), (45, false),
    (46, false), (47, false)]

/-- An interrupt, from the code that it stops to the code that goes on. -/
def interrupt (link : Link) (n errorCode : Nat) (ctx : Context) (code : Bool) (behind : Nat)
    (mainIntrHandler : OnCpu Nat) : OnCpu Context := do
  deliver link n errorCode ctx
  handler n code behind mainIntrHandler

/-- The numbers of the system calls in `unistd.h`. -/
inductive Syscall
  | fork
  | write
  | read
  | execve
  | exit
  | wait
  | pause
  | sbrk
  | ps

def Syscall.number : Syscall → Nat
  | fork => 0
  | write => 1
  | read => 2
  | execve => 3
  | exit => 4
  | wait => 5
  | pause => 6
  | sbrk => 7
  | ps => 8

/-- `sys_table`, by the calls that its functions are for. -/
def sysTable : List Syscall := [.fork, .write, .read, .execve, .exit, .wait, .pause, .sbrk, .ps]

/-- `syscall_handler` up to its call. -/
def enterSyscall (table : Nat) : OnCpu Unit := do
  cli
  push Cpu.ebp
  push Cpu.edi
  push Cpu.esi
  push Cpu.edx
  push Cpu.ecx
  push Cpu.ebx
  loadTo (fun v s => { s with eax := v }) fun s => plus (s.eax * 4) table

/-- From `pop ebx` to `pop ebp`. -/
def popArguments : OnCpu Unit := do
  pop fun v s => { s with ebx := v }
  pop fun v s => { s with ecx := v }
  pop fun v s => { s with edx := v }
  pop fun v s => { s with esi := v }
  pop fun v s => { s with edi := v }
  pop fun v s => { s with ebp := v }

def leaveSyscall : OnCpu Context := do
  popArguments
  sti
  iret

/-- `syscall_handler`, where `code a` is the function at `a`. -/
def syscallHandler (table behind : Nat) (code : Nat → OnCpu Nat) : OnCpu Context := do
  enterSyscall table
  let f ← gets Cpu.eax
  call behind (code f)
  leaveSyscall

/-- `int 0x30`. -/
def systemCall (link : Link) (ctx : Context) (table behind : Nat) (code : Nat → OnCpu Nat) : OnCpu Context := do
  deliver link 48 0 ctx
  syscallHandler table behind code

/-! ## The frame -/

/-- The words that the processor pushes for code whose stack is at `esp`. -/
def Context.words (ctx : Context) (esp : Nat) : List Nat :=
  [ctx.eip, ctx.cs, ctx.eflags] ++ if ctx.user then [esp, ctx.ss] else []

/-- Where the stack of the kernel begins. -/
def kernelTop (link : Link) (s : Cpu) (ctx : Context) : Nat := if ctx.user then s.mem link.tssEsp0 else s.esp

/-- The machine on the stack of the kernel. -/
def onKernelStack (link : Link) (s : Cpu) (ctx : Context) : Cpu := { s with esp := kernelTop link s ctx }

/-- The code can be stopped: the stack of the kernel has room. -/
structure Interruptible (link : Link) (s : Cpu) (ctx : Context) : Prop where
  tss : link.tssEsp0 % 4 = 0
  aligned : kernelTop link s ctx % 4 = 0
  room : 64 ≤ kernelTop link s ctx
  high : kernelTop link s ctx < 2 ^ 32
  flag : s.interruptible = interruptFlag ctx.eflags
  ss : ctx.user = false → ctx.ss = SEG_KERNEL_DATA

section Processor

variable {link : Link} {s t : Cpu} {ctx : Context} {n errorCode : Nat} {ws : List Nat}

theorem take_bind {α : Type} {a : α} (k : Nat → OnCpu α) (h : s.esp % 4 = 0) (hlt : s.esp + 4 < 2 ^ 32) :
    Returns (take >>= k) s a t ↔ Returns (k (s.mem s.esp)) { s with esp := s.esp + 4 } a t := by
  refine Returns.bind_iff ?_ k
  rw [take, load_bind _ h, drop_bind _ hlt]
  exact pure_ok.mpr ⟨rfl, rfl⟩

theorem length_words (ctx : Context) (esp : Nat) : (ctx.words esp).length = if ctx.user then 5 else 3 := by
  unfold Context.words
  split <;> rfl

/-- Behind its frame the code finds its own stack. -/
theorem frame_end {b : Nat} (h : b + 4 * (ctx.words s.esp).length = kernelTop link s ctx) :
    (if ctx.user then s.esp else b + 12) = s.esp := by
  rw [length_words, kernelTop] at h
  cases hu : ctx.user with
  | true => rfl
  | false =>
    rw [hu] at h
    exact h

/-- The first words, for code that does not have the stack of the kernel. -/
theorem outer_pushes (h : Interruptible link s ctx) : ∃ t, Returns (onlyIf ctx.user (do
      loadTo (fun v s => { s with esp := v }) fun _ => link.tssEsp0
      push fun _ => ctx.ss
      push fun _ => s.esp)) s () t ∧
    Stacked (if ctx.user then [s.esp, ctx.ss] else []) (onKernelStack link s ctx) t := by
  have haligned := h.aligned
  have hroom := h.room
  have hhigh := h.high
  cases hu : ctx.user with
  | false =>
    rw [onlyIf_neg rfl, onKernelStack, kernelTop, hu]
    exact ⟨s, pure_ok.mpr ⟨rfl, rfl⟩, Stacked.nil s⟩
  | true =>
    rw [onlyIf_pos rfl, onKernelStack]
    have htop : s.mem link.tssEsp0 = kernelTop link s ctx := by rw [kernelTop, hu, if_pos rfl]
    rw [← htop] at haligned hroom hhigh ⊢
    obtain ⟨t1, h1, hs1⟩ := (Stacked.nil { s with esp := s.mem link.tssEsp0 }).and_push (w := fun _ => ctx.ss)
      (fun _ _ => rfl) haligned (by simp only [List.length]; omega) hhigh
    obtain ⟨t2, h2, hs2⟩ := hs1.and_push (w := fun _ => s.esp) (fun _ _ => rfl) haligned
      (by simp only [List.length]; omega) hhigh
    refine ⟨t2, ?_, hs2⟩
    rw [loadTo_bind _ _ (show link.tssEsp0 % 4 = 0 from h.tss), Returns.bind_iff h1]
    exact h2

/-- **The processor stops code** and saves where it was. -/
theorem deliver_pushes (h : Interruptible link s ctx) (n errorCode : Nat) :
    ∃ t, Returns (deliver link n errorCode ctx) s () t ∧
      Stacked ((if hasErrorCode n then [errorCode] else []) ++ ctx.words s.esp) (onKernelStack link s ctx) t := by
  have haligned := h.aligned
  have hroom := h.room
  have hhigh := h.high
  have hlen : (if ctx.user then [s.esp, ctx.ss] else []).length ≤ 2 := by split <;> simp
  obtain ⟨t0, h0, hs0⟩ := outer_pushes h
  obtain ⟨t1, h1, hs1⟩ := hs0.and_push (w := fun _ => ctx.eflags) (fun _ _ => rfl) haligned
    (show _ ≤ kernelTop link s ctx by omega) hhigh
  obtain ⟨t2, h2, hs2⟩ := hs1.and_push (w := fun _ => ctx.cs) (fun _ _ => rfl) haligned
    (show _ ≤ kernelTop link s ctx by simp only [List.length_cons]; omega) hhigh
  obtain ⟨t3, h3, hs3⟩ := hs2.and_push (w := fun _ => ctx.eip) (fun _ _ => rfl) haligned
    (show _ ≤ kernelTop link s ctx by simp only [List.length_cons]; omega) hhigh
  have hfirst : ∀ {t : Cpu}, Returns (onlyIf (hasErrorCode n) (push fun _ => errorCode)) t3 () t →
      Returns (deliver link n errorCode ctx) s () t := by
    intro t ht
    rw [deliver, Returns.bind_iff ((gets_ok Cpu.esp).mpr ⟨rfl, rfl⟩), Returns.bind_iff h0, Returns.bind_iff h1,
      Returns.bind_iff h2, Returns.bind_iff h3]
    exact ht
  cases hc : hasErrorCode n with
  | false =>
    refine ⟨t3, hfirst ?_, hs3⟩
    rw [hc, onlyIf_neg rfl]
    exact pure_ok.mpr ⟨rfl, rfl⟩
  | true =>
    obtain ⟨t4, h4, hs4⟩ := hs3.and_push (w := fun _ => errorCode) (fun _ _ => rfl) haligned
      (show _ ≤ kernelTop link s ctx by simp only [List.length_cons]; omega) hhigh
    refine ⟨t4, hfirst ?_, hs4⟩
    rw [hc, onlyIf_pos rfl]
    exact h4

/-- The code goes on where it was, on its own stack. -/
theorem iret_returns {esp : Nat} (h : t.esp % 4 = 0) (hlt : t.esp + 4 * (ctx.words esp).length < 2 ^ 32)
    (hws : WordsAt t.mem t.esp (ctx.words esp)) (hss : ctx.user = false → ctx.ss = SEG_KERNEL_DATA) :
    Returns iret t ctx { t with
      esp := if ctx.user then esp else t.esp + 12
      interruptible := interruptFlag ctx.eflags } := by
  rw [length_words] at hlt
  rw [Context.words, wordsAt_append] at hws
  obtain ⟨⟨heip, hcs, hflags, -⟩, houter⟩ := hws
  have hbound : t.esp + 12 < 2 ^ 32 := by split at hlt <;> omega
  rw [iret, take_bind _ h (by omega), take_bind _ (by dsimp only; omega) (by dsimp only; omega),
    take_bind _ (by dsimp only; omega) (by dsimp only; omega), move_bind]
  dsimp only
  rw [heip, hcs, hflags]
  cases hu : ctx.user with
  | false =>
    have hcs3 : ¬ ctx.cs % 4 = 3 := by simpa [Context.user] using hu
    rw [if_neg hcs3, ← hss hu]
    exact pure_ok.mpr ⟨rfl, rfl⟩
  | true =>
    have hcs3 : ctx.cs % 4 = 3 := by simpa [Context.user] using hu
    rw [hu, if_pos rfl] at houter hlt
    obtain ⟨hesp, hss', -⟩ := houter
    rw [if_pos hcs3, take_bind _ (by dsimp only; omega) (by dsimp only; omega),
      take_bind _ (by dsimp only; omega) (by dsimp only; omega), move_bind]
    dsimp only at hesp hss' ⊢
    simp only [List.length_cons, List.length_nil] at hesp hss'
    rw [show t.esp + 4 + 4 + 4 = t.esp + 4 * (0 + 1 + 1 + 1) by omega, hesp, hss']
    exact pure_ok.mpr ⟨rfl, rfl⟩

end Processor

/-! ## Interrupts -/

/-- `Registers`, as `pusha` leaves it with the stack at `esp`. -/
def registers (s : Cpu) (esp : Nat) : List Nat := [s.edi, s.esi, s.ebp, esp, s.ebx, s.edx, s.ecx, s.eax]

/-- The arguments of `main_intr_handler`, with the words of the processor behind them. -/
def arguments (link : Link) (n errorCode : Nat) (s : Cpu) (ctx : Context) : List Nat :=
  n :: (registers s (kernelTop link s ctx - 4 * ((ctx.words s.esp).length + 1)) ++
    (if hasErrorCode n then errorCode else 0) :: ctx.words s.esp)

/-- A function that goes back to its caller, and leaves the stack of its caller alone. -/
structure Serves (f : OnCpu Nat) (top : Nat) (s t : Cpu) : Prop where
  returns : Returns f s (s.mem s.esp) t
  esp : t.esp = s.esp + 4
  stack : ∀ a, s.esp + 4 ≤ a → a < top → t.mem a = s.mem a

/-- The second argument of `handler` is 1 for the exceptions with an error code. -/
theorem handlers_agree : ∀ h ∈ handlers, h.2 = hasErrorCode h.1 := by decide

section Interrupts

variable {link : Link} {s t u w : Cpu} {ctx : Context} {n errorCode behind top : Nat} {code : Bool} {ws : List Nat}
  {f : OnCpu Nat}

/-- A compiled function that does not write its arguments. -/
theorem compiled_serves {junk : Cpu → Junk} {depth : Nat} {effect : Cpu → Nat → Nat} {result : Cpu → Nat}
    (h : s.esp % 4 = 0) (hlt : s.esp + 4 < 2 ^ 32) (hkept : ∀ a, s.esp ≤ a → a < top → effect s a = s.mem a)
    (htop : s.esp < top) : ∃ t, Serves (compiled junk depth 0 effect result) top s t ∧ t.eax = result s := by
  have hc := @compiled_returns s junk depth 0 effect result h hlt
  rw [hkept _ (Nat.le_refl _) htop] at hc
  refine ⟨_, ⟨hc, rfl, fun a hge hlt' => ?_⟩, rfl⟩
  show scribbled _ (s.esp + 4) (s.esp + 4 + 4 * 0) (scribbled _ (s.esp - depth) s.esp (effect s)) a = s.mem a
  rw [scribbled_of_ge (by omega), scribbled_of_ge (by omega)]
  exact hkept a (by omega) hlt'

/-- What was on the stack is still there when the function has returned. -/
theorem Serves.words {v : Nat} (h : Serves f top u w) (hs : Stacked (v :: ws) s u) (htop : s.esp = top) :
    WordsAt w.mem w.esp ws := by
  have hesp := hs.esp
  rw [List.length_cons] at hesp
  rw [h.esp]
  exact hs.words.2.congr fun a hge hlt => h.stack a hge (by omega)

theorem stacked_cli (hs : Stacked ws s t) :
    Stacked ws { s with interruptible := false } { t with interruptible := false } :=
  hs.set (f := fun c => { c with interruptible := false }) (fun _ _ _ => rfl) (fun _ => rfl) (fun _ => rfl)

/-- The call of a function with its arguments on the stack leaves them there. -/
theorem stacked_calls (hs : Stacked ws s t) (h : t.esp % 4 = 0) (hge : 4 ≤ t.esp) (hlt : t.esp < 2 ^ 32)
    (hmain : ∀ u, Stacked (behind :: ws) s u → ∃ w, Serves f s.esp u w) :
    ∃ u w, Stacked (behind :: ws) s u ∧ Serves f s.esp u w ∧ w.esp = t.esp ∧ WordsAt w.mem w.esp ws ∧
      ∀ (k : Unit → OnCpu Context) ctx v, Returns (call behind f >>= k) t ctx v ↔ Returns (k ()) w ctx v := by
  have hu : Stacked (behind :: ws) s (pushed t behind) := hs.trans (Stacked.one hge behind)
  obtain ⟨w, hw⟩ := hmain _ hu
  have hback : (pushed t behind).mem (pushed t behind).esp = behind := put_self ..
  have hcall := hw.returns
  rw [hback] at hcall
  refine ⟨_, w, hu, hw, hw.esp.trans (show t.esp - 4 + 4 = t.esp by omega), hw.words hu rfl, fun k ctx v => ?_⟩
  exact call_bind k h hge hlt hcall

/-- The start of a handler makes the arguments. -/
theorem enterHandler_pushes (hs : Stacked ws s t) (h : s.esp % 4 = 0) (hroom : 4 * ws.length + 40 ≤ s.esp)
    (hlt : s.esp < 2 ^ 32) (n : Nat) (code : Bool) :
    ∃ u, Returns (enterHandler n code) t () u ∧
      Stacked (n :: (registers s (s.esp - 4 * (if code then ws else 0 :: ws).length) ++ (if code then ws else 0 :: ws)))
        { s with interruptible := false } u := by
  obtain ⟨t1, h1, hs1⟩ : ∃ t1, Returns (onlyIf (!code) (push fun _ => 0)) { t with interruptible := false } () t1 ∧
      Stacked (if code then ws else 0 :: ws) { s with interruptible := false } t1 := by
    cases code with
    | true => exact ⟨_, pure_ok.mpr ⟨rfl, rfl⟩, stacked_cli hs⟩
    | false =>
      obtain ⟨t1, h1, hs1⟩ := (stacked_cli hs).and_push (w := fun _ => 0) (fun _ _ => rfl) h
        (show _ ≤ s.esp by omega) hlt
      exact ⟨t1, h1, hs1⟩
  have hlen : (if code then ws else 0 :: ws).length ≤ ws.length + 1 := by split <;> simp
  have hesp : t1.esp + 4 * (if code then ws else 0 :: ws).length = s.esp := hs1.esp
  obtain ⟨t2, h2, hs2⟩ := pusha_returns (s := t1) (by omega) (by omega) (by omega)
  have hregs : [t1.edi, t1.esi, t1.ebp, t1.esp, t1.ebx, t1.edx, t1.ecx, t1.eax] = registers s t1.esp := by
    rw [hs1.rest]
    rfl
  rw [hregs, show t1.esp = s.esp - 4 * (if code then ws else 0 :: ws).length by omega] at hs2
  have hboth := hs1.trans hs2
  obtain ⟨t3, h3, hs3⟩ := hboth.and_push (w := fun _ => n) (fun _ _ => rfl) h
    (show _ ≤ s.esp by simp only [List.length_append, registers, List.length_cons, List.length_nil]; omega) hlt
  refine ⟨t3, ?_, hs3⟩
  rw [enterHandler, cli, move_bind, Returns.bind_iff h1, Returns.bind_iff h2]
  exact h3

/-- The end of a handler gives the registers back. -/
theorem leaveHandler_returns {esp kesp e : Nat} (h : w.esp % 4 = 0)
    (hlt : w.esp + 40 + 4 * (ctx.words esp).length < 2 ^ 32)
    (hws : WordsAt w.mem w.esp (n :: (registers s kesp ++ e :: ctx.words esp)))
    (hss : ctx.user = false → ctx.ss = SEG_KERNEL_DATA) :
    Returns leaveHandler w ctx { s with
      esp := if ctx.user then esp else w.esp + 52, cr3 := w.cr3, mem := w.mem
      interruptible := interruptFlag ctx.eflags } := by
  obtain ⟨-, hws⟩ := hws
  rw [wordsAt_append] at hws
  obtain ⟨hregs, -, hframe⟩ := hws
  rw [leaveHandler, drop_bind _ (by omega),
    Returns.bind_iff (popa_returns (by dsimp only; omega) (by dsimp only; omega) hregs),
    drop_bind _ (by dsimp only; omega), sti, move_bind]
  have hiret := @iret_returns { s with
    esp := w.esp + 4 + 32 + 4, cr3 := w.cr3, mem := w.mem, interruptible := true } ctx esp
    (show (w.esp + 4 + 32 + 4) % 4 = 0 by omega) (show w.esp + 4 + 32 + 4 + _ < _ by omega) hframe hss
  exact hiret

/-- **An interrupt is not noticed.** Every handler calls `main_intr_handler` with the number of its interrupt, the
registers, and the error code or 0. When that leaves its arguments alone, the code that was stopped goes on with every
register, its flag and its stack as they were. -/
theorem interrupt_returns (hn : (n, code) ∈ handlers) (hi : Interruptible link s ctx)
    (hmain : ∀ u, Stacked (behind :: arguments link n errorCode s ctx)
      { onKernelStack link s ctx with interruptible := false } u → ∃ w, Serves f (kernelTop link s ctx) u w) :
    ∃ u w, Stacked (behind :: arguments link n errorCode s ctx)
        { onKernelStack link s ctx with interruptible := false } u ∧
      Serves f (kernelTop link s ctx) u w ∧
      Returns (interrupt link n errorCode ctx code behind f) s ctx { s with mem := w.mem, cr3 := w.cr3 } := by
  have haligned := hi.aligned
  have hroom := hi.room
  have hhigh := hi.high
  have hcode : code = hasErrorCode n := handlers_agree _ hn
  have hlen := length_words ctx s.esp
  have hlen5 : (ctx.words s.esp).length ≤ 5 := by rw [hlen]; split <;> omega
  obtain ⟨t, hdeliver, hs⟩ := deliver_pushes hi n errorCode
  have hwords : (if code then (if hasErrorCode n then [errorCode] else []) ++ ctx.words s.esp
      else 0 :: ((if hasErrorCode n then [errorCode] else []) ++ ctx.words s.esp)) =
      (if hasErrorCode n then errorCode else 0) :: ctx.words s.esp := by
    rw [hcode]
    cases hasErrorCode n <;> rfl
  have hlen' : ((if hasErrorCode n then [errorCode] else []) ++ ctx.words s.esp).length ≤ 6 := by
    rw [List.length_append]
    have : (if hasErrorCode n then [errorCode] else []).length ≤ 1 := by split <;> simp
    omega
  obtain ⟨t1, henter, hs1⟩ := enterHandler_pushes hs haligned (show _ ≤ kernelTop link s ctx by omega) hhigh n code
  rw [hwords] at hs1
  have hargs : Stacked (arguments link n errorCode s ctx) { onKernelStack link s ctx with interruptible := false } t1 := hs1
  have hlenArgs : (arguments link n errorCode s ctx).length = (ctx.words s.esp).length + 10 := rfl
  have hesp1 : t1.esp + 4 * (arguments link n errorCode s ctx).length = kernelTop link s ctx := hargs.esp
  obtain ⟨u, w, hu, hw, hespw, hback, hcall⟩ := stacked_calls hargs (by omega) (by omega) (by omega) hmain
  refine ⟨u, w, hu, hw, ?_⟩
  have hleave := @leaveHandler_returns s w ctx n s.esp _ _ (by omega) (by omega) hback hi.ss
  rw [interrupt, Returns.bind_iff hdeliver, handler, Returns.bind_iff henter, hcall]
  have hend : (if ctx.user then s.esp else w.esp + 52) = s.esp :=
    @frame_end link s ctx (w.esp + 40) (by omega)
  rw [hend, ← hi.flag] at hleave
  exact hleave

end Interrupts

/-- A program, stopped; the stack of the kernel begins at 8192. -/
def stopped : Cpu := ⟨1, 2, 3, 4, 5, 6, 7, 100, 9, true, put (fun _ => 0) 4 8192⟩

def program : Context := ⟨40, 0x23, 0x202, 0x2B⟩

theorem stopped_interruptible : Interruptible smallLink stopped program :=
  ⟨rfl, rfl, by decide, by decide, rfl, fun h => absurd h (by decide)⟩

/-- The timer. -/
theorem interrupt_returns_timer : ∃ mem cr3, Returns
    (interrupt smallLink 32 0 program false 3 (compiled smallLink.junk 64 0 (fun s => s.mem) fun _ => 7)) stopped program
    { stopped with mem := mem, cr3 := cr3 } := by
  obtain ⟨_, w, _, _, h⟩ := @interrupt_returns smallLink stopped program 32 0 3 false
    (compiled smallLink.junk 64 0 (fun s => s.mem) fun _ => 7) (by decide) stopped_interruptible fun u hu => by
      have hesp : u.esp + 64 = 8192 := hu.esp
      have htop : kernelTop smallLink stopped program = 8192 := rfl
      obtain ⟨w, hw, _⟩ := @compiled_serves u 8192 smallLink.junk 64 (fun s => s.mem) (fun _ => 7) (by omega) (by omega)
        (fun _ _ _ => rfl) (by omega)
      exact ⟨w, htop ▸ hw⟩
  exact ⟨w.mem, w.cr3, h⟩

/-! ## System calls -/

/-- Where `syscall_handler` looks for its function: nothing checks the number. -/
def tableEntry (table : Nat) (s : Cpu) : Nat := plus (s.eax * 4) table

/-- The arguments of the function that serves a system call. -/
def callArguments (s : Cpu) : List Nat := [s.ebx, s.ecx, s.edx, s.esi, s.edi, s.ebp]

/-- What is on the kernel's stack when the handler looks. -/
def callWords (ctx : Context) (s : Cpu) : List Nat := callArguments s ++ ctx.words s.esp

/-- The function that is called: a word of the table or one behind it, or a word that has just been pushed. -/
def callee (link : Link) (ctx : Context) (table : Nat) (s : Cpu) : Nat :=
  putWords s.mem (kernelTop link s ctx - 4 * (callWords ctx s).length) (callWords ctx s) (tableEntry table s)

section Syscalls

variable {link : Link} {s t u w : Cpu} {ctx : Context} {table behind : Nat} {ws : List Nat} {routine : Nat → OnCpu Nat}
  {address : Syscall → Nat}

theorem enterSyscall_pushes (hs : Stacked ws s t) (h : s.esp % 4 = 0) (hroom : 4 * ws.length + 24 ≤ s.esp)
    (hlt : s.esp < 2 ^ 32) (htable : table % 4 = 0) {f : Nat}
    (hf : f = putWords s.mem (s.esp - 4 * (callArguments s ++ ws).length) (callArguments s ++ ws) (tableEntry table s)) :
    ∃ u, Returns (enterSyscall table) t () u ∧
      Stacked (callArguments s ++ ws) { s with interruptible := false, eax := f } u := by
  obtain ⟨t1, h1, hs1⟩ := (stacked_cli hs).and_push (w := Cpu.ebp) (fun _ _ => rfl) h (show _ ≤ s.esp by omega) hlt
  obtain ⟨t2, h2, hs2⟩ := hs1.and_push (w := Cpu.edi) (fun _ _ => rfl) h
    (show _ ≤ s.esp by simp only [List.length_cons]; omega) hlt
  obtain ⟨t3, h3, hs3⟩ := hs2.and_push (w := Cpu.esi) (fun _ _ => rfl) h
    (show _ ≤ s.esp by simp only [List.length_cons]; omega) hlt
  obtain ⟨t4, h4, hs4⟩ := hs3.and_push (w := Cpu.edx) (fun _ _ => rfl) h
    (show _ ≤ s.esp by simp only [List.length_cons]; omega) hlt
  obtain ⟨t5, h5, hs5⟩ := hs4.and_push (w := Cpu.ecx) (fun _ _ => rfl) h
    (show _ ≤ s.esp by simp only [List.length_cons]; omega) hlt
  obtain ⟨t6, h6, hs6⟩ := hs5.and_push (w := Cpu.ebx) (fun _ _ => rfl) h
    (show _ ≤ s.esp by simp only [List.length_cons]; omega) hlt
  have heax : t6.eax = s.eax := by rw [hs6.rest]
  have haligned : tableEntry table s % 4 = s.esp % 4 := by
    rw [tableEntry, plus]
    omega
  have hword : t6.mem (plus (t6.eax * 4) table) = f := by
    rw [heax, hf]
    exact hs6.word haligned
  refine ⟨{ t6 with eax := f }, ?_, ?_⟩
  · rw [enterSyscall, cli, move_bind, Returns.bind_iff h1, Returns.bind_iff h2, Returns.bind_iff h3, Returns.bind_iff h4,
      Returns.bind_iff h5, Returns.bind_iff h6, ← hword]
    refine (loadTo_ok _ (show plus (t6.eax * 4) table % 4 = 0 from ?_)).mpr rfl
    rw [plus]
    omega
  · exact hs6.set (f := fun c => { c with eax := f }) (fun _ _ _ => rfl) (fun _ => rfl) (fun _ => rfl)

theorem popArguments_returns (h : w.esp % 4 = 0) (hlt : w.esp + 24 < 2 ^ 32)
    (hws : WordsAt w.mem w.esp (callArguments s)) : Returns popArguments w () { s with
      eax := w.eax, esp := w.esp + 24, cr3 := w.cr3, mem := w.mem, interruptible := w.interruptible } := by
  obtain ⟨hebx, hecx, hedx, hesi, hedi, hebp, -⟩ := hws
  rw [← hebx, ← hecx, ← hedx, ← hesi, ← hedi, ← hebp, popArguments, pop_bind _ _ h (by omega),
    pop_bind _ _ (by dsimp only; omega) (by dsimp only; omega), pop_bind _ _ (by dsimp only; omega) (by dsimp only; omega),
    pop_bind _ _ (by dsimp only; omega) (by dsimp only; omega), pop_bind _ _ (by dsimp only; omega) (by dsimp only; omega)]
  exact pop_returns _ (by dsimp only; omega) (by dsimp only; omega)

/-- The result stays in `eax`, and every other register gets its word back. -/
theorem leaveSyscall_returns {esp : Nat} (h : w.esp % 4 = 0) (hlt : w.esp + 24 + 4 * (ctx.words esp).length < 2 ^ 32)
    (hws : WordsAt w.mem w.esp (callArguments s ++ ctx.words esp)) (hss : ctx.user = false → ctx.ss = SEG_KERNEL_DATA) :
    Returns leaveSyscall w ctx { s with
      eax := w.eax, esp := if ctx.user then esp else w.esp + 36, cr3 := w.cr3, mem := w.mem
      interruptible := interruptFlag ctx.eflags } := by
  rw [wordsAt_append] at hws
  obtain ⟨hargs, hframe⟩ := hws
  rw [leaveSyscall, Returns.bind_iff (popArguments_returns h (by omega) hargs), sti, move_bind]
  exact @iret_returns { s with
    eax := w.eax, esp := w.esp + 24, cr3 := w.cr3, mem := w.mem, interruptible := true } ctx esp
    (show (w.esp + 24) % 4 = 0 by omega) hlt hframe hss

theorem tableEntry_number (hfits : table + 36 ≤ 2 ^ 32) (c : Syscall) (hc : s.eax = c.number) :
    tableEntry table s = table + 4 * c.number ∧ c.number < 9 := by
  have hlt : c.number < 9 := by cases c <;> decide
  rw [tableEntry, hc, plus, Nat.mod_eq_of_lt (by omega)]
  omega

/-- The table has the functions in the order of their numbers. -/
theorem sysTable_entry (hnames : WordsAt s.mem table (sysTable.map address)) (hfits : table + 36 ≤ 2 ^ 32) (c : Syscall)
    (hc : s.eax = c.number) : s.mem (tableEntry table s) = address c := by
  obtain ⟨h0, h1, h2, h3, h4, h5, h6, h7, h8, -⟩ := hnames
  rw [(tableEntry_number hfits c hc).1]
  cases c with
  | fork => exact h0
  | write => exact h1
  | read => exact h2
  | execve => exact h3
  | exit => exact h4
  | wait => exact h5
  | pause => exact h6
  | sbrk => exact h7
  | ps => exact h8

/-- **A system call changes one register.** The numbers of `unistd.h` reach the functions that they are for, which find
`ebx`, `ecx` and `edx` as their arguments; any other number reaches whatever lies at its place. When the function leaves
its arguments alone, the caller goes on with its result in `eax` and all else as it was. -/
theorem syscall_returns (hi : Interruptible link s ctx) (htable : table % 4 = 0) (hfits : table + 36 ≤ 2 ^ 32)
    (hnames : WordsAt s.mem table (sysTable.map address))
    (hmain : ∀ u, Stacked (behind :: callWords ctx s)
      { onKernelStack link s ctx with interruptible := false, eax := callee link ctx table s } u →
        ∃ w, Serves (routine (callee link ctx table s)) (kernelTop link s ctx) u w) :
    (table + 100 ≤ kernelTop link s ctx ∨ kernelTop link s ctx ≤ table →
      ∀ c : Syscall, s.eax = c.number → callee link ctx table s = address c) ∧
    ∃ u w, Stacked (behind :: callWords ctx s)
        { onKernelStack link s ctx with interruptible := false, eax := callee link ctx table s } u ∧
      Serves (routine (callee link ctx table s)) (kernelTop link s ctx) u w ∧
      Returns (systemCall link ctx table behind routine) s ctx { s with eax := w.eax, mem := w.mem, cr3 := w.cr3 } := by
  have haligned := hi.aligned
  have hroom := hi.room
  have hhigh := hi.high
  have hlen := length_words ctx s.esp
  have hlen5 : (ctx.words s.esp).length ≤ 5 := by rw [hlen]; split <;> omega
  have hlenCall : (callWords ctx s).length = (ctx.words s.esp).length + 6 := rfl
  refine ⟨fun hapart c hc => ?_, ?_⟩
  · -- the words on the stack are not those of the table
    have hat := @tableEntry_number s table hfits c hc
    rw [callee, putWords_of_not_mem (by omega)]
    exact sysTable_entry hnames hfits c hc
  obtain ⟨t, hdeliver, hs⟩ := deliver_pushes hi 48 0
  have hs : Stacked (ctx.words s.esp) (onKernelStack link s ctx) t := hs
  obtain ⟨t1, henter, hs1⟩ := enterSyscall_pushes (f := callee link ctx table s) hs haligned
    (show _ ≤ kernelTop link s ctx by omega) hhigh htable rfl
  have hargs : Stacked (callWords ctx s)
      { onKernelStack link s ctx with interruptible := false, eax := callee link ctx table s } t1 := hs1
  have hesp1 : t1.esp + 4 * (callWords ctx s).length = kernelTop link s ctx := hargs.esp
  have heax : t1.eax = callee link ctx table s := congrArg Cpu.eax hargs.rest
  obtain ⟨u, w, hu, hw, hespw, hback, hcall⟩ := stacked_calls hargs (by omega) (by omega) (by omega) hmain
  refine ⟨u, w, hu, hw, ?_⟩
  have hleave := @leaveSyscall_returns s w ctx s.esp (by omega) (by omega) hback hi.ss
  rw [systemCall, Returns.bind_iff hdeliver, syscallHandler, Returns.bind_iff henter,
    Returns.bind_iff ((gets_ok Cpu.eax).mpr ⟨rfl, rfl⟩), heax, hcall]
  have hend : (if ctx.user then s.esp else w.esp + 36) = s.esp :=
    @frame_end link s ctx (w.esp + 24) (by omega)
  rw [hend, ← hi.flag] at hleave
  exact hleave

end Syscalls

/-- The program, before a `read`; the table lies at 400. -/
def reading : Cpu :=
  { stopped with eax := 2, mem := fun a => if a = 4 then 8192 else if 400 ≤ a then 1000 + (a - 400) / 4 else 0 }

theorem reading_interruptible : Interruptible smallLink reading program :=
  ⟨rfl, rfl, by decide, by decide, rfl, fun h => absurd h (by decide)⟩

theorem syscall_returns_read : ∃ w : Cpu, w.eax = 1002 ∧ Returns
    (systemCall smallLink program 400 3 fun a => compiled smallLink.junk 64 0 (fun s => s.mem) fun _ => a) reading program
    { reading with eax := w.eax, mem := w.mem, cr3 := w.cr3 } := by
  have hserves : ∀ u, Stacked (3 :: callWords program reading)
      { onKernelStack smallLink reading program with
        interruptible := false, eax := callee smallLink program 400 reading } u →
      ∃ w, Serves (compiled smallLink.junk 64 0 (fun s => s.mem) fun _ => callee smallLink program 400 reading) 8192 u w ∧
        w.eax = callee smallLink program 400 reading := fun u hu => by
    have hesp : u.esp + 48 = 8192 := hu.esp
    exact @compiled_serves u 8192 smallLink.junk 64 (fun s => s.mem) _ (by omega) (by omega) (fun _ _ _ => rfl) (by omega)
  obtain ⟨hnumber, u, w, hu, hw, h⟩ := @syscall_returns smallLink reading program 400 3
    (fun a => compiled smallLink.junk 64 0 (fun s => s.mem) fun _ => a) (fun c => 1000 + c.number) reading_interruptible
    rfl (by decide) ⟨rfl, rfl, rfl, rfl, rfl, rfl, rfl, rfl, rfl, trivial⟩ (fun u hu => (hserves u hu).imp fun w hw => hw.1)
  obtain ⟨w', hw', heax⟩ := hserves u hu
  have hsame := (hw.returns.unique hw'.returns).2
  refine ⟨w, ?_, h⟩
  rw [hsame, heax]
  exact hnumber (Or.inl (by decide)) .read rfl

end Raampjes.Entry
