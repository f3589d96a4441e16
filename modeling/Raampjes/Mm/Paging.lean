import Raampjes.Mm.Machine

/-!
# The functions of `mm.c`

Page directories and page tables as the kernel changes them, through `current->page_directory` and the recursive window
at the last 4 MiB. `map_page`, `free_address` and `copy_page_table` call each other; each of the first two takes the
function that copies a shared table as an argument, and `copyPageTable` bounds how deep the calls nest.

The frame allocator `alloc` is an argument of every function that may allocate.
-/

namespace Raampjes.Mm

open Progs

/-! ## Entries -/

/-- `current->page_directory[i]`. -/
def dirEntry (i : Nat) : Kernel Word := do
  let t ← gets Machine.cur
  loadWord (t.pageDirectory + 4 * i)

def setDirEntry (i : Nat) (w : Word) : Kernel Unit := do
  let t ← gets Machine.cur
  storeWord (t.pageDirectory + 4 * i) w

/-- The address of the page-table entry, or `NULL`. -/
def getPageEntry (virtualAddress : Nat) : Kernel Nat := do
  let pde ← dirEntry (dirIndex virtualAddress)
  pure (if present pde then getPageTable virtualAddress + 4 * pageTableIndex virtualAddress else NULL)

/-- `page_frame`: the frame number in the entry, present or not; 0 without a page table. -/
def pageFrame (page : Nat) : Kernel Nat := do
  let entry ← getPageEntry page
  if entry = NULL then pure 0
  else do
    let w ← loadWord entry
    pure (frameOf w)

def pagePresent (virtualAddress : Nat) : Kernel Bool := do
  let entry ← getPageEntry virtualAddress
  if entry = NULL then pure false
  else do
    let w ← loadWord entry
    pure (present w)

/-- `memcpy(dst, src, PAGE_SIZE)` for page-aligned addresses. -/
def copyPage (dst src : Nat) : Kernel Unit :=
  loop (fun i => do
    let w ← loadWord (src + 4 * i)
    storeWord (dst + 4 * i) w) 1024

section Alloc

variable (alloc : Kernel Nat)

def addPageTable (virtAddr : Nat) (flags : Word) : Kernel Nat := do
  let frame ← alloc
  setDirEntry (dirIndex virtAddr) (mkEntry frame flags ||| 3#32)
  let pt := getPageTable virtAddr
  loop (fun i => storeWord (pt + 4 * i) 0#32) 1024
  pure pt

/-! ## Free addresses -/

/-- The inner loop of `get_free_address`, with `n` entries left of the table. -/
def scanTable (pageTable : Nat) : Nat → Kernel (Option Nat)
  | 0 => pure none
  | n + 1 => do
    let w ← loadWord (pageTable + 4 * (1023 - n))
    if present w then scanTable pageTable n else pure (some (1023 - n))

/-- The outer loop of `get_free_address`, with `n` directory entries left; `left` entries are left of the first table. -/
def scanDirectory (offset : Nat) : Nat → Nat → Kernel Nat
  | 0, _ => stop .panic
  | n + 1, left => do
    let pdIndex := (1022 - n + offset) % 1024
    let pde ← dirEntry pdIndex
    if present pde then do
      let found ← scanTable (getPageTable (pdIndex * 2 ^ 22)) left
      match found with
      | some ptIndex => pure (pdIndex * 2 ^ 22 + ptIndex * 2 ^ 12)
      | none => scanDirectory offset n 1024
    else do
      let _ ← addPageTable alloc (pdIndex * 2 ^ 22) 3#32
      pure (pdIndex * 2 ^ 22)

def getFreeAddress (target : Nat) : Kernel Nat :=
  scanDirectory alloc (dirIndex target) 1023 (1024 - pageTableIndex target)

/-! ## Mapping and unmapping -/

/-- `map_page`, with `copy` for `copy_page_table`. -/
def mapPageWith (copy : Nat → Kernel Unit) (frame virtualAddress : Nat) (flags : Word) : Kernel Nat := do
  let entry ← getPageEntry virtualAddress
  onlyIf (entry = NULL) (do
    let _ ← addPageTable alloc virtualAddress flags
    pure ())
  let pde ← dirEntry (dirIndex virtualAddress)
  onlyIf (shared pde) (copy (getPageTable virtualAddress))
  let entry ← getPageEntry virtualAddress
  storeWord entry (mkEntry frame flags ||| 1#32)
  pure virtualAddress

def enterPageWith (copy : Nat → Kernel Unit) (frame target : Nat) (flags : Word) : Kernel Nat := do
  let address ← getFreeAddress alloc target
  mapPageWith alloc copy frame address flags

/-- `*page_entry &= ~1`. -/
def clearPresent (entry : Nat) : Kernel Unit := do
  let w ← loadWord entry
  storeWord entry (absent w)

def freeAddressWith (copy : Nat → Kernel Unit) (address : Nat) : Kernel Unit := do
  let entry ← getPageEntry address
  if entry = NULL then pure ()
  else do
    let pde ← dirEntry (dirIndex address)
    onlyIf (shared pde) (copy (getPageTable address))
    clearPresent entry

/-- `free_page`. -/
def freePageWith (copy : Nat → Kernel Unit) (page : Nat) : Kernel Unit := do
  let here ← pagePresent page
  onlyIf here (do
    let frame ← pageFrame page
    freePageFrame frame
    freeAddressWith copy page)

/-- `copy_page_table`, with room for `n` nested calls. -/
def copyPageTable : Nat → Nat → Kernel Unit
  | 0, _ => stop .depth
  | n + 1, table => do
    let old ← pageFrame table
    let tmp ← enterPageWith alloc (copyPageTable n) old KERNEL_MEMORY (PG_USER ||| PG_RW)
    onlyIf (tmp = NULL) (stop .panic)
    let newPf ← alloc
    let _ ← mapPageWith alloc (copyPageTable n) newPf table (PG_USER ||| PG_RW)
    copyPage table tmp
    freePageWith (copyPageTable n) tmp

/-- How deep calls of `copy_page_table` can nest. -/
def stackDepth : Nat := 8

def mapPage (frame virtualAddress : Nat) (flags : Word) : Kernel Nat :=
  mapPageWith alloc (copyPageTable alloc stackDepth) frame virtualAddress flags

def enterPage (frame target : Nat) (flags : Word) : Kernel Nat :=
  enterPageWith alloc (copyPageTable alloc stackDepth) frame target flags

def freePage (page : Nat) : Kernel Unit := freePageWith (copyPageTable alloc stackDepth) page

def allocPage (target : Nat) (flags : Word) : Kernel Nat := do
  let frame ← alloc
  enterPage alloc frame target flags

/-- One round of `alloc_pages`. -/
def allocPageAt (flags : Word) (i : Nat) : Kernel Unit := do
  let here ← pagePresent (i * PAGE_SIZE)
  if here then pure ()
  else do
    let frame ← alloc
    let _ ← mapPage alloc frame (i * PAGE_SIZE) flags
    pure ()

def allocPages (beginAddr endAddr : Nat) (flags : Word) : Kernel Unit :=
  let firstPage := beginAddr / PAGE_SIZE
  let lastPage := endAddr / PAGE_SIZE
  loop (fun i => allocPageAt alloc flags (firstPage + i)) (lastPage + 1 - firstPage)

/-! ## Address spaces -/

/-- `inc_phys_refs`, for a range of pages. -/
def incPhysRefs (start stop : Nat) : Kernel Unit :=
  let firstPage := start / PAGE_SIZE
  let finalPage := stop / PAGE_SIZE
  loop (fun i => do
    let pf ← pageFrame ((firstPage + i) * PAGE_SIZE)
    onlyIf (pf ≠ 0) (increaseBitmap pf)) (finalPage - firstPage)

/-- The three assignments to one entry in the loop of `fork_mem`. -/
def protectEntry (addr : Nat) : Kernel Unit := do
  let w ← loadWord addr
  storeWord addr (cowEntry w)

def forkMem (origPageDir : Nat) : Kernel Nat := do
  let newDir ← allocPage alloc KERNEL_MEMORY (PG_KERN ||| PG_RW)
  onlyIf (newDir < KERNEL_MEMORY) (stop .panic)
  copyPage newDir origPageDir
  loop (fun i => do
    protectEntry (newDir + 4 * i)
    protectEntry (origPageDir + 4 * i)) (dirIndex KERNEL_MEMORY)
  let own ← pageFrame newDir
  storeWord (newDir + 4 * 1023) (mkEntry own (PG_USER ||| PG_RW ||| 1#32))
  incPhysRefs 0 KERNEL_MEMORY
  incPhysRefs (getPageTable 0) (getPageTable KERNEL_MEMORY)
  pure newDir

def freeMemUsr : Kernel Unit := do
  loop (fun i => freePage alloc (i * PAGE_SIZE)) (KERNEL_MEMORY / PAGE_SIZE)
  loop (fun i => freePage alloc (getPageTable 0 + i * PAGE_SIZE))
    ((getPageTable KERNEL_MEMORY - getPageTable 0) / PAGE_SIZE)

/-! ## Page faults -/

/-- `enable_CoW`. -/
def enableCoW (table : Nat) : Kernel Unit :=
  loop (fun i => do
    let w ← loadWord (table + 4 * i)
    storeWord (table + 4 * i) (cowPage w)) 1024

/-- `CoW_enabled`. -/
def coWEnabled (addr : Nat) : Kernel Bool := do
  let pde ← dirEntry (dirIndex addr)
  if cowDir pde then pure true
  else do
    let entry ← getPageEntry addr
    let w ← loadWord entry
    pure (shared w)

def pfNonPresent (addr : Nat) : Kernel Unit := do
  let t ← gets Machine.cur
  if addr > t.codeEnd ∧ addr ≤ t.brk then do
    let _ ← allocPage alloc addr (PG_USER ||| PG_RW)
    pure ()
  else stop .panic

def pfRoViolation (addr : Nat) : Kernel Unit := do
  let pageTable := getPageTable addr
  let t ← gets Machine.cur
  onlyIf (addr ≤ t.codeEnd) (stop .panic)
  let cow ← coWEnabled addr
  onlyIf (!cow) (stop .panic)
  let pde ← dirEntry (dirIndex addr)
  onlyIf (cowDir pde) (do
    copyPageTable alloc stackDepth pageTable
    enableCoW pageTable
    let pde ← dirEntry (dirIndex addr)
    setDirEntry (dirIndex addr) (pde ||| 2#32)
    let pde ← dirEntry (dirIndex addr)
    setDirEntry (dirIndex addr) (pde &&& ~~~0x400#32))
  let old ← pageFrame addr
  let tmp ← enterPage alloc old KERNEL_MEMORY (PG_KERN ||| PG_RW)
  onlyIf (tmp = NULL) (stop .panic)
  let newPf ← alloc
  let _ ← mapPage alloc newPf addr (PG_USER ||| PG_RW)
  copyPage (addr / PAGE_SIZE * PAGE_SIZE) tmp
  freePage alloc tmp

/-- `page_fault`; `isPresent` is bit 0 of the error code. The processor reports no reserved bits. -/
def pageFault (addr : Nat) (isPresent : Bool) : Kernel Unit :=
  if isPresent then pfRoViolation alloc addr else pfNonPresent alloc addr

end Alloc

end Raampjes.Mm
