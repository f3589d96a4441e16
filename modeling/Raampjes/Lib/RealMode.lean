import Raampjes.Lib.While

/-!
# Programs in real mode

Sixteen-bit registers, two flags, a stack of words and a memory of bytes, with the BIOS service for disks. A subroutine
answers with the address that its `ret` goes to. The variables `V` of a program lie, like its stack, apart from the memory
that it addresses through `es`.

- `Disk`: what the BIOS does with each command, and that resetting a disk succeeds in the end;
- `call_returns`: a subroutine that goes back to its caller; `int13_reset`, `int13_fails`, `int13_reads`: the commands;
- `place_here`, `place_other`: what a transfer leaves in memory;
- `fails`: how many reads fail among the next ones.
-/

namespace RealMode

open Progs

/-- One sector, and where it was put. -/
structure Transfer where
  drive : Nat
  cylinder : Nat
  head : Nat
  sector : Nat
  segment : Nat
  offset : Nat
  deriving DecidableEq, Repr

/-- A machine with the variables `V`; the commands to the disk are counted. -/
structure Machine (V : Type) where
  ax : Nat
  bx : Nat
  cx : Nat
  dx : Nat
  si : Nat
  di : Nat
  es : Nat
  zf : Bool
  cf : Bool
  stack : List Nat
  mem : Nat → UInt8
  vars : V
  reads : Nat
  resets : Nat
  transfers : List Transfer

/-- Why a program leaves the model. -/
inductive Trap
  /-- A loop that never ends. -/
  | endless
  /-- Nothing is left on the stack. -/
  | underflow
  /-- The processor's fault on a division. -/
  | divides
  /-- A command to the BIOS that is not modelled. -/
  | command
  /-- A subroutine went to an address other than the one behind its call. -/
  | jumped (address : Nat)
  deriving DecidableEq, Repr

/-- What the BIOS answers: which reads and resets fail, the status it leaves in `ax`, what a failed read leaves in memory,
and what is on the disks. -/
structure Disk where
  readFails : Nat → Bool
  resetFails : Nat → Bool
  /-- Resetting succeeds in the end. -/
  recovers : ∀ n, ∃ m, n ≤ m ∧ resetFails m = false
  status : Nat → Nat
  torn : Nat → Nat → UInt8
  content : (drive cylinder head sector : Nat) → Nat → UInt8

/-- The bytes of the sector that a transfer is about. -/
def Disk.sector (disk : Disk) (t : Transfer) : Nat → UInt8 := disk.content t.drive t.cylinder t.head t.sector

section Instructions

variable {V : Type}

abbrev OnMachine (V α : Type) := Prog (Machine V) Trap α

/-! ## Instructions -/

def low (w : Nat) : Nat := w % 256

def high (w : Nat) : Nat := w / 256 % 256

def word (high low : Nat) : Nat := 256 * high + low

/-- The address of `es:offset`. -/
def linear (es offset : Nat) : Nat := (16 * es + offset) % 2 ^ 20

def push (r : Machine V → Nat) : OnMachine V Unit := update fun s => { s with stack := r s :: s.stack }

def pop (set : Nat → Machine V → Machine V) : OnMachine V Unit := fun s =>
  match s.stack with
  | [] => .error .underflow
  | w :: stack => .ok ((), set w { s with stack := stack })

/-- `ret`: the address that is gone to. -/
def ret : OnMachine V Nat := fun s =>
  match s.stack with
  | [] => .error .underflow
  | w :: stack => .ok (w, { s with stack := stack })

/-- `call f`, with the address behind the instruction. -/
def call (behind : Nat) (f : OnMachine V Nat) : OnMachine V Unit := do
  push fun _ => behind
  let address ← f
  if address = behind then pure () else stop (.jumped address)

/-- `div m` for a word. -/
def div (m : Nat) : OnMachine V Unit := do
  let n ← gets fun s => 65536 * s.dx + s.ax
  onlyIf (m = 0 ∨ 65536 ≤ n / m) (stop .divides)
  update fun s => { s with ax := n / m, dx := n % m }

/-- `mul r` for a word. -/
def mul (r : Machine V → Nat) : OnMachine V Unit :=
  update fun s => { s with ax := s.ax * r s % 65536, dx := s.ax * r s / 65536 }

/-! ## The disk -/

/-- The 512 bytes from `es:offset` on are replaced. -/
def place (es offset : Nat) (bytes : Nat → UInt8) (mem : Nat → UInt8) : Nat → UInt8 := fun q =>
  if q < 2 ^ 20 ∧ (q + 2 ^ 20 - linear es offset) % 2 ^ 20 < 512 then bytes ((q + 2 ^ 20 - linear es offset) % 2 ^ 20)
  else mem q

/-- The sector that the registers ask for; the cylinder has two more bits above the sector. -/
def asked (s : Machine V) : Transfer :=
  ⟨low s.dx, high s.cx + 256 * (low s.cx / 64), high s.dx, low s.cx % 64, s.es, s.bx⟩

/-- `int 0x13`: the disk is reset, or one sector is read. -/
def int13 (disk : Disk) : OnMachine V Unit := fun s =>
  if high s.ax = 0 then
    .ok ((), { s with
      cf := disk.resetFails s.resets, ax := disk.status (s.reads + s.resets) % 65536, resets := s.resets + 1 })
  else if s.ax = word 2 1 then
    let failed := disk.readFails s.reads
    let bytes := if failed then disk.torn s.reads else disk.sector (asked s)
    .ok ((), { s with
      cf := failed, ax := disk.status (s.reads + s.resets) % 65536, reads := s.reads + 1
      mem := place s.es s.bx bytes s.mem
      transfers := if failed then s.transfers else s.transfers ++ [asked s] })
  else .error .command

/-! ## Rules -/

section Rules

variable {α : Type} {s t : Machine V} {w : Nat} {stack : List Nat}

theorem update_bind {σ ε : Type} (f : σ → σ) (k : Unit → Prog σ ε α) {s t : σ} {a : α} :
    Returns (update f >>= k) s a t ↔ Returns (k ()) (f s) a t :=
  Returns.bind_iff ((update_ok f ()).mpr rfl) k

theorem push_bind (r : Machine V → Nat) (k : Unit → OnMachine V α) {a : α} :
    Returns (push r >>= k) s a t ↔ Returns (k ()) { s with stack := r s :: s.stack } a t :=
  update_bind _ k

theorem gets_bind {σ ε β : Type} (f : σ → β) (k : β → Prog σ ε α) {s t : σ} {a : α} :
    Returns (gets f >>= k) s a t ↔ Returns (k (f s)) s a t :=
  Returns.bind_iff ((gets_ok f).mpr ⟨rfl, rfl⟩) k

theorem pop_returns (set : Nat → Machine V → Machine V) (h : s.stack = w :: stack) :
    Returns (pop set) s () (set w { s with stack := stack }) := by
  unfold Returns pop
  rw [h]

theorem pop_bind {ax bx cx dx si di es reads resets : Nat} {zf cf : Bool} {mem : Nat → UInt8} {vars : V}
    {transfers : List Transfer} (set : Nat → Machine V → Machine V) (k : Unit → OnMachine V α) {a : α} :
    Returns (pop set >>= k) ⟨ax, bx, cx, dx, si, di, es, zf, cf, w :: stack, mem, vars, reads, resets, transfers⟩ a t ↔
      Returns (k ()) (set w ⟨ax, bx, cx, dx, si, di, es, zf, cf, stack, mem, vars, reads, resets, transfers⟩) a t :=
  Returns.bind_iff (pop_returns set rfl) k

theorem ret_returns (h : s.stack = w :: stack) : Returns ret s w { s with stack := stack } := by
  unfold Returns ret
  rw [h]

/-- A subroutine that goes back to its caller. -/
theorem call_returns {behind : Nat} {f : OnMachine V Nat}
    (h : Returns f { s with stack := behind :: s.stack } behind t) : Returns (call behind f) s () t := by
  rw [call, push_bind, Returns.bind_iff h, if_pos rfl]
  exact pure_ok.mpr ⟨rfl, rfl⟩

theorem call_error {behind : Nat} {f : OnMachine V Nat} {x : Trap} (h : f { s with stack := behind :: s.stack } = .error x) :
    call behind f s = .error x := by
  have hrun : call behind f s = (f >>= fun address => if address = behind then pure () else stop (.jumped address))
      { s with stack := behind :: s.stack } := rfl
  rw [hrun, bind_error h]

theorem div_returns {m : Nat} (hm : m ≠ 0) (hq : (65536 * s.dx + s.ax) / m < 65536) :
    Returns (div m) s () { s with ax := (65536 * s.dx + s.ax) / m, dx := (65536 * s.dx + s.ax) % m } := by
  rw [div, Returns.bind_iff ((gets_ok _).mpr ⟨rfl, rfl⟩), onlyIf_neg (by simp; omega),
    Returns.bind_iff (pure_ok.mpr ⟨rfl, rfl⟩)]
  exact (update_ok _ _).mpr rfl

theorem int13_reset (disk : Disk) (h : high s.ax = 0) : Returns (int13 disk) s () { s with
    cf := disk.resetFails s.resets, ax := disk.status (s.reads + s.resets) % 65536, resets := s.resets + 1 } := by
  unfold Returns int13
  rw [if_pos h]

/-- A read that fails leaves something in memory. -/
theorem int13_fails {disk : Disk} (h : s.ax = word 2 1) (hf : disk.readFails s.reads = true) :
    Returns (int13 disk) s () { s with
      cf := true, ax := disk.status (s.reads + s.resets) % 65536, reads := s.reads + 1
      mem := place s.es s.bx (disk.torn s.reads) s.mem } := by
  unfold Returns int13
  rw [h, if_neg (by decide), if_pos rfl, hf]
  rfl

/-- A read that succeeds puts the sector that was asked for into memory. -/
theorem int13_reads {disk : Disk} (h : s.ax = word 2 1) (hf : disk.readFails s.reads = false) :
    Returns (int13 disk) s () { s with
      cf := false, ax := disk.status (s.reads + s.resets) % 65536, reads := s.reads + 1
      mem := place s.es s.bx (disk.sector (asked s)) s.mem
      transfers := s.transfers ++ [asked s] } := by
  unfold Returns int13
  rw [h, if_neg (by decide), if_pos rfl, hf]
  rfl

end Rules

/-! ## Memory -/

theorem place_here (es offset : Nat) (bytes mem : Nat → UInt8) {j : Nat} (hj : j < 512) :
    place es offset bytes mem (linear es (offset + j)) = bytes j := by
  unfold place linear
  have hoffset : ((16 * es + (offset + j)) % 2 ^ 20 + 2 ^ 20 - (16 * es + offset) % 2 ^ 20) % 2 ^ 20 = j := by omega
  rw [hoffset, if_pos ⟨by omega, hj⟩]

theorem place_other (es offset : Nat) (bytes mem : Nat → UInt8) {q : Nat}
    (hq : ∀ j < 512, q ≠ linear es (offset + j)) : place es offset bytes mem q = mem q := by
  unfold place
  apply if_neg
  rintro ⟨hlt, hj⟩
  apply hq _ hj
  unfold linear at hj ⊢
  omega

/-- Offsets less than a segment apart have addresses of their own. -/
theorem linear_ne {es i j : Nat} (hne : i ≠ j) (hi : i < j + 65536) (hj : j < i + 65536) : linear es i ≠ linear es j := by
  unfold linear
  omega

/-! ## Failures -/

/-- How many of the next `k` reads fail. -/
def fails (disk : Disk) (n : Nat) : Nat → Nat
  | 0 => 0
  | k + 1 => fails disk n k + if disk.readFails (n + k) then 1 else 0

theorem fails_mono (disk : Disk) (n k j : Nat) : fails disk n k ≤ fails disk n (k + j) := by
  induction j with
  | zero => exact Nat.le_refl _
  | succ j ih => exact Nat.le_trans ih (Nat.le_add_right _ _)

theorem fails_add_le (disk : Disk) (n k j : Nat) : fails disk n (k + j) ≤ fails disk n k + j := by
  induction j with
  | zero => exact Nat.le_refl _
  | succ j ih =>
    rw [← Nat.add_assoc, fails]
    split <;> omega

/-- Not all of the next reads fail when one of them succeeds. -/
theorem fails_lt {disk : Disk} {n k : Nat} (h : ∃ j < k, disk.readFails (n + j) = false) : fails disk n k < k := by
  obtain ⟨j, hj, hok⟩ := h
  have hbefore := fails_add_le disk n 0 j
  have hafter := fails_add_le disk n (j + 1) (k - (j + 1))
  rw [fails, hok, if_neg Bool.false_ne_true, Nat.add_sub_cancel' hj] at hafter
  rw [Nat.zero_add, fails] at hbefore
  omega

end Instructions

end RealMode
