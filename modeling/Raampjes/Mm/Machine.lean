import Raampjes.Lib.Prog
import Raampjes.Mm.PhysInit
import Raampjes.Mm.Word
import Raampjes.Sched.Task

/-!
# The machine under the memory manager

Physical memory by frames of 1024 words, the frame table, CR3 and the task table. Addresses are numbers below `2 ^ 32`;
every access of the kernel to an address is translated through the directory in CR3, so the recursive window and
`current->page_directory` mean what the tables say. A kernel-mode access needs present entries only: CR0.WP is clear.

A `TaskStruct`, with the frame on its kernel stack, is kept in the task table and not in the page at its address; that
page is allocated, mapped and freed as in the source.

- `walk`: the two-level translation; `loadWord_ok`, `storeWord_ok`: the kernel's accesses through it;
- `allocPageFrame`, `freePageFrame`, `increaseBitmap`: the frame table. The functions of `mm.c` take the frame allocator
  as an argument, so that a result can assume more of it than the counters give.
-/

namespace Raampjes.Mm

open Progs

def NULL : Nat := 0

def SEG_USER_CODE : Nat := 0x23

def SEG_USER_DATA : Nat := 0x2B

/-- The fields of a `StackFrame` that `do_execve` sets; `segments` is the value of `gs`, `fs`, `es`, `ds` and `ss`. -/
structure StackFrame where
  eip : Nat
  cs : Nat
  eflags : Nat
  origEsp : Nat
  segments : Nat

/-- A `TaskStruct` at `addr`, with the frame at the top of its kernel stack. -/
structure TaskStruct where
  addr : Nat
  esp0 : Nat
  pageDirectory : Nat
  pid : Nat
  ppid : Nat
  state : Sched.TaskState
  exitStatus : Int
  codeEnd : Nat
  dataEnd : Nat
  brk : Nat
  stackStart : Nat
  stackEnd : Nat
  stackFrame : StackFrame

/-- The number of frames of the frame table, `BITMAP_SIZE`. -/
def frames : Nat := 1024 * 1024

structure Machine where
  /-- Word `i` of frame `f`. -/
  ram : Nat → Nat → Word
  bitmap : Nat → UInt8
  /-- The frame of the page directory in use. -/
  cr3 : Nat
  tasks : Nat → Option TaskStruct
  /-- The slot of the running task. -/
  current : Nat

/-- Why the kernel stops. -/
inductive Stop
  /-- A call of `panic`. -/
  | panic
  /-- An access of the kernel to an address without a present page. -/
  | fault (addr : Nat)
  /-- The kernel stack is used up. -/
  | depth
  /-- A store for a user program to the kernel's code, data or stacks; what becomes of them then is not modelled. -/
  | kernelMemory
  deriving DecidableEq, Repr

abbrev Kernel (α : Type) := Prog Machine Stop α

def noTask : TaskStruct := ⟨0, 0, 0, 0, 0, .stopped, 0, 0, 0, 0, 0, 0, ⟨0, 0, 0, 0, 0⟩⟩

namespace Machine

variable (m : Machine)

/-- `*current`. -/
def cur : TaskStruct := (m.tasks m.current).getD noTask

def setCur (t : TaskStruct) : Machine := { m with tasks := Function.update m.tasks m.current (some t) }

def setWord (f i : Nat) (w : Word) : Machine :=
  { m with ram := Function.update m.ram f (Function.update (m.ram f) i w) }

/-- The frame `f` filled with other words. -/
def setFrame (f : Nat) (g : Nat → Word) : Machine := { m with ram := Function.update m.ram f g }

def setCount (f : Nat) (n : UInt8) : Machine := { m with bitmap := Function.update m.bitmap f n }

end Machine

section Fields

variable (m : Machine) (f i : Nat) (w : Word) (g : Nat → Word) (n : UInt8) (t : TaskStruct)

@[simp] theorem setWord_bitmap : (m.setWord f i w).bitmap = m.bitmap := rfl

@[simp] theorem setWord_cr3 : (m.setWord f i w).cr3 = m.cr3 := rfl

@[simp] theorem setWord_tasks : (m.setWord f i w).tasks = m.tasks := rfl

@[simp] theorem setWord_current : (m.setWord f i w).current = m.current := rfl

@[simp] theorem setWord_cur : (m.setWord f i w).cur = m.cur := rfl

@[simp] theorem setFrame_bitmap : (m.setFrame f g).bitmap = m.bitmap := rfl

@[simp] theorem setFrame_cr3 : (m.setFrame f g).cr3 = m.cr3 := rfl

@[simp] theorem setFrame_tasks : (m.setFrame f g).tasks = m.tasks := rfl

@[simp] theorem setFrame_current : (m.setFrame f g).current = m.current := rfl

@[simp] theorem setFrame_cur : (m.setFrame f g).cur = m.cur := rfl

@[simp] theorem setCount_ram : (m.setCount f n).ram = m.ram := rfl

@[simp] theorem setCount_cr3 : (m.setCount f n).cr3 = m.cr3 := rfl

@[simp] theorem setCount_tasks : (m.setCount f n).tasks = m.tasks := rfl

@[simp] theorem setCount_current : (m.setCount f n).current = m.current := rfl

@[simp] theorem setCount_cur : (m.setCount f n).cur = m.cur := rfl

@[simp] theorem setCur_ram : (m.setCur t).ram = m.ram := rfl

@[simp] theorem setCur_bitmap : (m.setCur t).bitmap = m.bitmap := rfl

@[simp] theorem setCur_cr3 : (m.setCur t).cr3 = m.cr3 := rfl

@[simp] theorem setCur_current : (m.setCur t).current = m.current := rfl

@[simp] theorem setCur_cur : (m.setCur t).cur = t := by simp [Machine.cur, Machine.setCur]

theorem setWord_ram (f' i' : Nat) :
    (m.setWord f i w).ram f' i' = if f' = f ∧ i' = i then w else m.ram f' i' := by
  by_cases hf : f' = f
  · subst hf
    by_cases hi : i' = i
    · simp [Machine.setWord, hi]
    · simp [Machine.setWord, hi]
  · simp [Machine.setWord, hf]

@[simp] theorem setWord_self : (m.setWord f i w).ram f i = w := by simp [setWord_ram]

theorem setWord_of_ne {f' i' : Nat} (h : f' ≠ f ∨ i' ≠ i) : (m.setWord f i w).ram f' i' = m.ram f' i' := by
  rw [setWord_ram, if_neg fun hc => h.elim (· hc.1) (· hc.2)]

@[simp] theorem setFrame_self : (m.setFrame f g).ram f = g := Function.update_self ..

theorem setFrame_of_ne {f' : Nat} (h : f' ≠ f) : (m.setFrame f g).ram f' = m.ram f' := Function.update_of_ne h ..

@[simp] theorem setCount_self : (m.setCount f n).bitmap f = n := Function.update_self ..

theorem setCount_of_ne {f' : Nat} (h : f' ≠ f) : (m.setCount f n).bitmap f' = m.bitmap f' :=
  Function.update_of_ne h ..

end Fields

/-! ## Addresses and translation -/

def dirIndex (virtualAddress : Nat) : Nat := virtualAddress / 2 ^ 22

def pageTableIndex (virtualAddress : Nat) : Nat := virtualAddress / 2 ^ 12 % 1024

/-- The window page through which the page table of an address is reached. -/
def getPageTable (virtualAddress : Nat) : Nat := 2 ^ 32 - PAGE_SIZE * (1024 - dirIndex virtualAddress)

/-- The word of its page that an address lies in. -/
def wordIndex (addr : Nat) : Nat := addr % PAGE_SIZE / 4

/-- The frame that an address has in the address space of a directory. -/
def walk (ram : Nat → Nat → Word) (dir addr : Nat) : Option Nat :=
  let pde := ram dir (dirIndex addr)
  let pte := ram (frameOf pde) (pageTableIndex addr)
  if present pde && present pte then some (frameOf pte) else none

theorem walk_eq_some {ram : Nat → Nat → Word} {dir addr f : Nat} :
    walk ram dir addr = some f ↔ present (ram dir (dirIndex addr)) = true ∧
      present (ram (frameOf (ram dir (dirIndex addr))) (pageTableIndex addr)) = true ∧
      frameOf (ram (frameOf (ram dir (dirIndex addr))) (pageTableIndex addr)) = f := by
  simp only [walk, Bool.and_eq_true, Option.ite_none_right_eq_some, Option.some.injEq, and_assoc]

def loadWord (addr : Nat) : Kernel Word := fun m =>
  match walk m.ram m.cr3 addr with
  | some f => .ok (m.ram f (wordIndex addr), m)
  | none => .error (.fault addr)

def storeWord (addr : Nat) (w : Word) : Kernel Unit := fun m =>
  match walk m.ram m.cr3 addr with
  | some f => .ok ((), m.setWord f (wordIndex addr) w)
  | none => .error (.fault addr)

section Access

variable {m m' : Machine} {addr : Nat} {w v : Word}

theorem loadWord_ok :
    Returns (loadWord addr) m v m' ↔
      ∃ f, walk m.ram m.cr3 addr = some f ∧ v = m.ram f (wordIndex addr) ∧ m' = m := by
  unfold Returns loadWord
  cases walk m.ram m.cr3 addr with
  | none => simp
  | some f => simp [eq_comm]

theorem storeWord_ok {u : Unit} :
    Returns (storeWord addr w) m u m' ↔
      ∃ f, walk m.ram m.cr3 addr = some f ∧ m' = m.setWord f (wordIndex addr) w := by
  unfold Returns storeWord
  cases walk m.ram m.cr3 addr with
  | none => simp
  | some f => simp [eq_comm]

end Access

/-! ## The frame table -/

/-- `search_bitmap(0, 0)`. -/
def searchBitmap (m : Machine) : Option Nat := (List.range frames).find? fun i => m.bitmap i == 0

/-- `alloc_page_frame` after its search. -/
def takeFrame : Option Nat → Kernel Nat
  | some f => do
    update fun m => m.setCount f 1
    pure f
  | none => stop .panic

/-- `alloc_page_frame`; the frame by its number. -/
def allocPageFrame : Kernel Nat := do takeFrame (← gets searchBitmap)

/-- `free_page_frame`. -/
def freePageFrame (f : Nat) : Kernel Unit :=
  update fun m => if m.bitmap f ≠ 0 then m.setCount f (m.bitmap f - 1) else m

/-- `increase_bitmap`. -/
def increaseBitmap (f : Nat) : Kernel Unit := fun m =>
  if f > frames then .error .panic else .ok ((), m.setCount f (m.bitmap f + 1))

theorem searchBitmap_lt {m : Machine} {f : Nat} (h : searchBitmap m = some f) : f < frames := by
  rw [searchBitmap, List.find?_eq_some_iff_append] at h
  obtain ⟨_, as, bs, hl, _⟩ := h
  have hmem : f ∈ List.range frames := by
    rw [hl]
    exact List.mem_append_right _ List.mem_cons_self
  exact List.mem_range.mp hmem

theorem searchBitmap_zero {m : Machine} {f : Nat} (h : searchBitmap m = some f) : m.bitmap f = 0 := by
  rw [searchBitmap] at h
  have hzero := List.find?_some h
  simpa using hzero

theorem allocPageFrame_ok {m m' : Machine} {f : Nat} (h : Returns allocPageFrame m f m') :
    f < frames ∧ m.bitmap f = 0 ∧ m' = m.setCount f 1 := by
  rw [allocPageFrame, bind_ok] at h
  obtain ⟨o, t, ho, h⟩ := h
  obtain ⟨ho, rfl⟩ := (gets_ok _).mp ho
  cases o with
  | none => exact absurd h (stop_ok _)
  | some g =>
    obtain ⟨_, t, hu, h⟩ := (bind_ok _ _ _).mp h
    obtain ⟨rfl, rfl⟩ := pure_ok.mp h
    exact ⟨searchBitmap_lt ho.symm, searchBitmap_zero ho.symm, (update_ok _ _).mp hu⟩

end Raampjes.Mm
