import Raampjes.Mm.Paging

/-!
# Loading programs

Stores of the kernel to user addresses, which fault on absent pages and are then retried, and on top of them `load_elf`,
`load_bin` and `do_execve`. A file is its size and the bytes from its start; `find_file` is not part of the model.
-/

namespace Raampjes.Mm

open Progs

section Alloc

variable (alloc : Kernel Nat)

/-! ## Stores to user memory -/

/-- A byte stored to a present page. -/
def pokeByte (addr : Nat) (b : UInt8) : Kernel Unit := fun m =>
  match walk m.ram m.cr3 addr with
  | some f => .ok ((), m.setWord f (wordIndex addr) (setByte (m.ram f (wordIndex addr)) (addr % 4) b))
  | none => .error (.fault addr)

/-- `*addr = b` in the kernel, with at most `n` page faults. Present pages are written whatever their flags are. -/
def kernelStore (addr : Nat) (b : UInt8) : Nat → Kernel Unit
  | 0 => pokeByte addr b
  | n + 1 => do
    let here ← gets fun m => (walk m.ram m.cr3 addr).isSome
    if here then pokeByte addr b
    else do
      pageFault alloc addr false
      kernelStore addr b n

/-- A kernel store for a user program, in ring 0 and to any address. The first page fault may map another page of a new
table, the second cannot. The page tables behind the window are in `ram`, so a store there changes them; the kernel's
other data is not, and a store there ends the run. -/
def storeUser (addr : Nat) (b : UInt8) : Kernel Unit :=
  if addr < KERNEL_MEMORY ∨ getPageTable 0 ≤ addr then kernelStore alloc addr b 2 else stop .kernelMemory

/-- `memcpy` and `memset` to user memory: byte `i` is `bytes i`. -/
def storeBytes (addr : Nat) (bytes : Nat → UInt8) (len : Nat) : Kernel Unit :=
  loop (fun i => storeUser alloc ((addr + i) % 2 ^ 32) (bytes i)) len

/-! ## Files -/

/-- A file: its size, and the memory from its first byte on. -/
structure File where
  size : Nat
  bytes : Nat → UInt8

/-- A little-endian `Elf32_Half`. -/
def File.half (f : File) (o : Nat) : Nat := (f.bytes (o % 2 ^ 32)).toNat + 2 ^ 8 * (f.bytes ((o + 1) % 2 ^ 32)).toNat

/-- A little-endian `Elf32_Word`. -/
def File.word (f : File) (o : Nat) : Nat := f.half o + 2 ^ 16 * f.half (o + 2)

def isElfFile (f : File) : Bool :=
  f.bytes 0 == 0x7f && f.bytes 1 == 0x45 && f.bytes 2 == 0x4c && f.bytes 3 == 0x46

def PT_NULL : Nat := 0

def PT_LOAD : Nat := 1

/-- The fields of an `Elf32_Phdr` that are read. -/
structure Phdr where
  pType : Nat
  pOffset : Nat
  pVaddr : Nat
  pFilesz : Nat
  pMemsz : Nat
  pFlags : Nat
  deriving DecidableEq

def File.ePhnum (f : File) : Nat := f.half 44

def File.eEntry (f : File) : Nat := f.word 24

/-- `pheaders[i]`. -/
def File.phdr (f : File) (i : Nat) : Phdr :=
  let o := f.word 28 + 32 * i
  ⟨f.word o, f.word (o + 4), f.word (o + 8), f.word (o + 16), f.word (o + 20), f.word (o + 24)⟩

def File.phdrs (f : File) : List Phdr := (List.range f.ePhnum).map f.phdr

/-- The bit of `p_flags` for execution. -/
def Phdr.executable (h : Phdr) : Bool := h.pFlags.testBit 0

def Phdr.writable (h : Phdr) : Bool := h.pFlags.testBit 1

/-- `p_vaddr + p_memsz`, in 32 bits. -/
def Phdr.stop (h : Phdr) : Nat := (h.pVaddr + h.pMemsz) % 2 ^ 32

/-! ## Loading -/

/-- The flags that `load_elf` maps the pages of a segment with. -/
def Phdr.pageFlags (h : Phdr) : Word := if !h.executable && h.writable then PG_USER ||| PG_RW else PG_USER

/-- The task fields that `load_elf` sets for a header. -/
def Phdr.setBounds (h : Phdr) (t : TaskStruct) : TaskStruct :=
  if h.executable then { t with codeEnd := h.stop }
  else if h.writable then { t with dataEnd := h.stop }
  else t

/-- The body of the loop of `load_elf`. -/
def loadSegment (file : File) (h : Phdr) : Kernel Unit :=
  if h.pType = PT_NULL then pure ()
  else do
    update fun m => m.setCur (h.setBounds m.cur)
    allocPages alloc h.pVaddr h.stop h.pageFlags
    storeBytes alloc h.pVaddr (fun i => file.bytes ((h.pOffset + i) % 2 ^ 32)) h.pFilesz
    onlyIf (h.pFilesz < h.pMemsz)
      (storeBytes alloc (h.pVaddr + h.pFilesz) (fun _ => 0) (h.pMemsz - h.pFilesz))

/-- `stack_frame->eip = eip`. -/
def setEip (eip : Nat) : Kernel Unit :=
  update fun m => m.setCur { m.cur with stackFrame := { m.cur.stackFrame with eip := eip } }

def loadElf (file : File) : Kernel Unit := do
  onlyIf (file.ePhnum = 0) (stop .panic)
  file.phdrs.forM (loadSegment alloc file)
  setEip file.eEntry

def loadBin (file : File) : Kernel Unit := do
  allocPages alloc 0 file.size (PG_USER ||| PG_RW)
  update fun m => m.setCur { m.cur with dataEnd := file.size }
  storeBytes alloc 0 file.bytes file.size
  setEip 0

def loadFile (file : File) : Kernel Unit := if isElfFile file then loadElf alloc file else loadBin alloc file

/-- What `do_execve` sets after the file is loaded. -/
def startTask (stack : Nat) (t : TaskStruct) : TaskStruct :=
  { t with
    brk := t.dataEnd
    stackStart := stack
    stackEnd := stack + PAGE_SIZE
    stackFrame := ⟨t.stackFrame.eip, SEG_USER_CODE, 0x202, stack + PAGE_SIZE, SEG_USER_DATA⟩ }

/-- `do_execve`, with the file that `find_file` found. It returns -1, or enters user mode. -/
def doExecve (file : Option File) : Kernel Int :=
  match file with
  | none => pure (-1)
  | some file => do
    freeMemUsr alloc
    let frame ← alloc
    let stack ← mapPage alloc frame (KERNEL_MEMORY - PAGE_SIZE) (PG_USER ||| PG_RW)
    loadFile alloc file
    update fun m => m.setCur (startTask stack m.cur)
    pure 0

/-- `do_sbrk`; the sum is taken in 32 bits. -/
def doSbrk (incr : Int) : Kernel Int := do
  let t ← gets Machine.cur
  let next := (((t.brk : Int) + incr) % 2 ^ 32).toNat
  if next > t.codeEnd ∧ next < t.stackStart then do
    update fun m => m.setCur { m.cur with brk := next }
    pure t.brk
  else pure (-1)

end Alloc

end Raampjes.Mm
