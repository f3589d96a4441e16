import Raampjes.Lib.CyclicList
import Raampjes.Lib.Runs

/-!
# `malloc` and `free`

The allocator of the C library over the headers in memory: `mem` gives the `Header` at an address. Addresses and sizes
are 32-bit, pointer arithmetic counts in units of a header. `sbrk` is not part of the library: a call of `malloc` comes
with the answers that `sbrk` will give, and the heap records the regions that were handed out. The loops of the source
run for at most `rounds` rounds here; `none` is a loop that has not ended by then, or an answer that is missing.

A program calls `malloc` and `free` and writes to the blocks it holds (`step`).
-/

namespace Raampjes.Libc

open CyclicList

structure Header where
  next : Nat
  size : Nat
  deriving DecidableEq, Repr

/-- `brks` are the regions from `sbrk`, with address and length. -/
structure Heap where
  mem : Nat → Header
  freeP : Nat
  brks : List (Nat × Nat)

def ALLOC_SIZE : Nat := 512

def sizeofHeader : Nat := 8

/-- What `sbrk` returns on failure, `(void *)-1`. -/
def sbrkFailed : Nat := 2 ^ 32 - 1

/-- More than there are headers in the address space. -/
def rounds : Nat := 2 ^ 32

/-- `p + units` and `p - units`. -/
def ptrAdd (p units : Nat) : Nat := (p + units * sizeofHeader) % 2 ^ 32

def ptrSub (p units : Nat) : Nat := (p + 2 ^ 32 - units * sizeofHeader) % 2 ^ 32

namespace Heap

def next (h : Heap) (p : Nat) : Nat := (h.mem p).next

def size (h : Heap) (p : Nat) : Nat := (h.mem p).size

def setNext (h : Heap) (p q : Nat) : Heap := { h with mem := Function.update h.mem p { h.mem p with next := q } }

def setSize (h : Heap) (p n : Nat) : Heap := { h with mem := Function.update h.mem p { h.mem p with size := n } }

section Fields

variable (h : Heap) (p q : Nat)

@[simp] theorem setNext_freeP : (h.setNext p q).freeP = h.freeP := rfl

@[simp] theorem setNext_brks : (h.setNext p q).brks = h.brks := rfl

@[simp] theorem setSize_freeP : (h.setSize p q).freeP = h.freeP := rfl

@[simp] theorem setSize_brks : (h.setSize p q).brks = h.brks := rfl

theorem setNext_next (x : Nat) : (h.setNext p q).next x = if x = p then q else h.next x := by
  by_cases hx : x = p <;> simp [next, setNext, Function.update, hx]

@[simp] theorem setNext_size (x : Nat) : (h.setNext p q).size x = h.size x := by
  by_cases hx : x = p <;> simp [size, setNext, Function.update, hx]

@[simp] theorem setSize_next (x : Nat) : (h.setSize p q).next x = h.next x := by
  by_cases hx : x = p <;> simp [next, setSize, Function.update, hx]

theorem setSize_size (x : Nat) : (h.setSize p q).size x = if x = p then q else h.size x := by
  by_cases hx : x = p <;> simp [size, setSize, Function.update, hx]

end Fields

end Heap

/-! ## `free` -/

/-- The loop of `free` ends at `p`: by its condition, or by the `break`. -/
def stopsAt (h : Heap) (bp p : Nat) : Bool :=
  (decide (bp > p) && decide (bp < h.next p)) ||
    (decide (p ≥ h.next p) && (decide (bp > p) || decide (bp < h.next p)))

/-- Join with the block above, or link to it. -/
def joinUpper (h : Heap) (bp p : Nat) : Heap :=
  if ptrAdd bp (h.size bp) = h.next p then
    let h := h.setSize bp ((h.size bp + h.size (h.next p)) % 2 ^ 32)
    h.setNext bp (h.next (h.next p))
  else h.setNext bp (h.next p)

/-- Join with the block below, or link from it. -/
def joinLower (h : Heap) (bp p : Nat) : Heap :=
  if ptrAdd p (h.size p) = bp then
    let h := h.setSize p ((h.size p + h.size bp) % 2 ^ 32)
    h.setNext p (h.next bp)
  else h.setNext p bp

def free (h : Heap) (freed : Nat) : Option Heap :=
  let bp := ptrSub freed 1
  (walk h.next (stopsAt h bp) rounds h.freeP).map fun p =>
    { joinLower (joinUpper h bp p) bp p with freeP := p }

/-! ## `malloc` -/

/-- Cut the last `size` units off. -/
def splitBlock (h : Heap) (p size : Nat) : Nat × Heap :=
  let h := h.setSize p ((h.size p + 2 ^ 32 - size) % 2 ^ 32)
  let q := ptrAdd p (h.size p)
  (q, h.setSize q size)

/-- `alloc_free`: the pointer it returns, 0 for `NULL`, and the answers of `sbrk` that are left. -/
def allocFree (h : Heap) (size : Nat) : List Nat → Option (Nat × Heap × List Nat)
  | [] => none
  | p :: answers =>
    let size := if size < ALLOC_SIZE then ALLOC_SIZE else size
    if p = sbrkFailed then some (0, h, answers)
    else do
      let h := { h with brks := (p, size * sizeofHeader % 2 ^ 32) :: h.brks }
      let h ← free (h.setSize p size) (ptrAdd p 1)
      some (h.freeP, h, answers)

/-- The loop of `malloc`: the pointer it returns, 0 for `NULL`. -/
def mallocLoop (size blockSize : Nat) : Nat → Heap → Nat → Nat → List Nat → Option (Nat × Heap)
  | 0, _, _, _, _ => none
  | n + 1, h, prev, p, answers =>
    if h.size p = blockSize then some (ptrAdd p 1, { h.setNext prev (h.next p) with freeP := prev })
    else if h.size p > blockSize then
      let (p, h) := splitBlock h p blockSize
      some (ptrAdd p 1, { h with freeP := prev })
    else if p = h.freeP then
      match allocFree h size answers with
      | none => none
      | some (p, h, answers) =>
        if p = 0 then some (0, h) else mallocLoop size blockSize n h p (h.next p) answers
    else mallocLoop size blockSize n h p (h.next p) answers

def malloc (base : Nat) (h : Heap) (size : Nat) (answers : List Nat) : Option (Nat × Heap) :=
  if size = 0 then some (0, h)
  else
    let blockSize := (size - 1) / sizeofHeader + 2
    let h := if h.freeP = 0 then { (h.setNext base base).setSize base 0 with freeP := base } else h
    mallocLoop size blockSize rounds h h.freeP (h.next h.freeP) answers

/-! ## Programs -/

/-- So many units from `addr` on, the header first. -/
structure Block where
  addr : Nat
  size : Nat
  deriving DecidableEq, Repr

def Block.stop (b : Block) : Nat := b.addr + b.size * sizeofHeader

/-- A block that `malloc` has returned for so many bytes. -/
structure Live where
  block : Block
  bytes : Nat
  deriving DecidableEq, Repr

structure State where
  heap : Heap
  live : List Live

inductive Act
  /-- `malloc`, with the answers of `sbrk` during the call. -/
  | malloc (bytes : Nat) (answers : List Nat)
  | free (p : Nat)
  /-- The program writes the words at `p`. -/
  | write (p : Nat) (words : Header)

def step (base : Nat) (s : State) : Act → Option (State × List Nat)
  | .malloc bytes answers =>
    (malloc base s.heap bytes answers).map fun (p, h) =>
      if p = 0 then (⟨h, s.live⟩, [0])
      else (⟨h, ⟨⟨ptrSub p 1, h.size (ptrSub p 1)⟩, bytes⟩ :: s.live⟩, [p])
  | .free p =>
    match s.live.find? fun l => ptrAdd l.block.addr 1 == p with
    | none => none
    | some l => (free s.heap p).map fun h => (⟨h, s.live.erase l⟩, [])
  | .write p words => some (⟨{ s.heap with mem := Function.update s.heap.mem p words }, s.live⟩, [])

/-- Before the first call. -/
def start (mem : Nat → Header) : State := ⟨⟨mem, 0, []⟩, []⟩

end Raampjes.Libc
