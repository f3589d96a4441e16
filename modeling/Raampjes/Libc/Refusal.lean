import Raampjes.Libc.Visits
import Raampjes.Mm.Sbrk

/-!
# `malloc` on `do_sbrk`

A program on the kernel: `malloc` passes its request to `do_sbrk`, in bytes where the search counts in units.

- `Grounded`: the regions of the heap lie below the break; `processStep_malloc`: a call that does not wrap keeps that, and
  returns `NULL` just if no block is large enough and `do_sbrk` refuses the bytes it is asked for;
- `malloc_must_fail_iff`: in every run, when these bytes are refused only if the bytes needed are.
-/

namespace Raampjes.Libc

open Progs Runs

/-- A program, and the kernel that runs it. -/
structure Process where
  libc : State
  machine : Mm.Machine

inductive ProcessAct
  | malloc (bytes : Nat)
  | free (p : Nat)
  /-- The program writes the words at `p`. -/
  | write (p : Nat) (words : Header)

/-- `sbrk`: the pointer from the kernel. -/
def sbrk (m : Mm.Machine) (incr : Int) : Option (Nat × Mm.Machine) :=
  match Mm.doSbrk incr m with
  | .ok (p, m) => some ((p % 2 ^ 32).toNat, m)
  | .error _ => none

/-- A call of the program. The answer of `sbrk` is worked out first, and the break moves if the loop has called it. -/
def processStep (base : Nat) (c : Process) : ProcessAct → Option (Process × List Nat)
  | .malloc bytes => do
    let (p, m) ← sbrk c.machine (signed (sbrkArg bytes))
    let (log, _) ← mallocLogged base c.libc.heap bytes [p]
    let (s, es) ← step base c.libc (.malloc bytes [p])
    some (⟨s, if .sbrk ∈ log then m else c.machine⟩, es)
  | .free p => (step base c.libc (.free p)).map fun r => (⟨r.1, c.machine⟩, r.2)
  | .write p words => (step base c.libc (.write p words)).map fun r => (⟨r.1, c.machine⟩, r.2)

/-- What a program may do: allocate, free what it holds, write to what it holds. -/
def Permitted (base : Nat) (c : Process) : ProcessAct → Prop
  | .malloc bytes => 0 < bytes
  | .free p => Admissible base c.libc (.free p)
  | .write p words => Admissible base c.libc (.write p words)

/-- `do_sbrk` would return -1. -/
def Refuses (m : Mm.Machine) (incr : Int) : Prop := Returns (Mm.doSbrk incr) m (-1) m

/-- The request stays in the address space, or nothing comes of it. -/
def Inside (c : Process) : ProcessAct → Prop
  | .malloc bytes => Fits c.libc.heap bytes ∨ Refuses c.machine (signed (sbrkArg bytes)) ∨
      c.machine.cur.brk + requested bytes * sizeofHeader < 2 ^ 32
  | .free _ => True
  | .write _ _ => True

/-- The bytes of the units that the search looks for, with the least that is asked for. -/
def neededBytes (bytes : Nat) : Nat := max ((bytes - 1) / sizeofHeader + 2) ALLOC_SIZE * sizeofHeader

variable {base bytes : Nat} {c t : Process} {m : Mm.Machine} {incr : Int}

/-! ## `sbrk` -/

theorem refuses_iff : Refuses m incr ↔ ¬ Mm.Fits m.cur ((m.cur.brk + incr) % 2 ^ 32) := by
  rw [Refuses, Mm.doSbrk_iff]
  by_cases hf : Mm.Fits m.cur ((m.cur.brk + incr) % 2 ^ 32)
  · rw [if_pos hf]
    exact iff_of_false (fun h => by omega) (not_not.mpr hf)
  · rw [if_neg hf]
    exact iff_of_true ⟨rfl, rfl⟩ hf

theorem sbrk_refuses (hr : Refuses m incr) : sbrk m incr = some (sbrkFailed, m) := by
  rw [sbrk, hr]
  rfl

theorem sbrk_grows (hr : ¬ Refuses m incr) (hhigh : m.cur.brk < 2 ^ 32) : sbrk m incr =
    some (m.cur.brk, m.setCur { m.cur with brk := ((m.cur.brk + incr) % 2 ^ 32).toNat }) := by
  have hok := Mm.doSbrk_grows (not_not.mp (mt refuses_iff.mpr hr))
  rw [sbrk, hok]
  dsimp only
  congr
  omega

/-- Where the sum stays in the address space, the break moves by just the bytes that are entered. -/
theorem sum_exact {brk : Nat} (hin : brk + requested bytes * sizeofHeader < 2 ^ 32) :
    (((brk : Int) + signed (sbrkArg bytes)) % 2 ^ 32).toNat = brk + requested bytes * sizeofHeader := by
  have harg : sbrkArg bytes = requested bytes * sizeofHeader := Nat.mod_eq_of_lt (by omega)
  rw [harg]
  generalize requested bytes * sizeofHeader = w at hin
  unfold signed
  split <;> omega

/-! ## Calls -/

/-- The heap is sound, and its regions lie below the break. -/
structure Grounded (base : Nat) (c : Process) : Prop where
  sound : Sound base c.libc
  low : base + sizeofHeader ≤ c.machine.cur.brk
  high : c.machine.cur.brk < 2 ^ 32
  below : ∀ r ∈ c.libc.heap.brks, r.1 + r.2 ≤ c.machine.cur.brk

/-- Memory from the break on is new. -/
theorem Grounded.fresh (hg : Grounded base c)
    (hin : c.machine.cur.brk + requested bytes * sizeofHeader < 2 ^ 32) :
    Fresh base c.libc.heap.brks c.machine.cur.brk (requested bytes * sizeofHeader) :=
  ⟨hg.low, hin.le, fun r hr => Or.inr (hg.below r hr)⟩

/-- What the program sees of `do_sbrk` when it calls `malloc`. -/
theorem Grounded.sbrk (hg : Grounded base c) (hin : Inside c (.malloc bytes)) : ∃ p m,
    Libc.sbrk c.machine (signed (sbrkArg bytes)) = some (p, m) ∧
      (Fits c.libc.heap bytes ∨ Answer base c.libc.heap.brks bytes p) ∧
      (Refuses c.machine (signed (sbrkArg bytes)) → p = sbrkFailed ∧ m = c.machine) ∧
      (¬ Fits c.libc.heap bytes → ¬ Refuses c.machine (signed (sbrkArg bytes)) → p ≠ sbrkFailed ∧
        p = c.machine.cur.brk ∧ m.cur.brk = c.machine.cur.brk + requested bytes * sizeofHeader ∧
        c.machine.cur.brk + requested bytes * sizeofHeader < 2 ^ 32) := by
  by_cases hr : Refuses c.machine (signed (sbrkArg bytes))
  · exact ⟨_, _, sbrk_refuses hr, Or.inr (Or.inl rfl), fun _ => ⟨rfl, rfl⟩, fun _ hno => absurd hr hno⟩
  · refine ⟨_, _, sbrk_grows hr hg.high, ?_, fun h => absurd h hr, fun hfit _ => ?_⟩
    · rcases hin with hfit | h | hin
      · exact Or.inl hfit
      · exact absurd h hr
      · exact Or.inr (Or.inr (hg.fresh hin))
    · have hin := (hin.resolve_left hfit).resolve_left hr
      have hsize := (requested_spec bytes).2.1
      refine ⟨?_, rfl, ?_, hin⟩
      · simp only [ALLOC_SIZE, sizeofHeader, sbrkFailed] at hsize hin ⊢
        omega
      · rw [Mm.setCur_cur]
        exact sum_exact hin

/-- **A call of `malloc`** returns `NULL` just if no block is large enough and `do_sbrk` refuses. -/
theorem processStep_malloc (hbase : 0 < base) (hg : Grounded base c) (h0 : 0 < bytes) (hin : Inside c (.malloc bytes)) :
    ∃ t p, processStep base c (.malloc bytes) = some (t, [p]) ∧ Grounded base t ∧
      (p = 0 ↔ ¬ Fits c.libc.heap bytes ∧ Refuses c.machine (signed (sbrkArg bytes))) := by
  obtain ⟨q, m, hsbrk, hp, hrefuse, hgrow⟩ := hg.sbrk hin
  obtain ⟨log, r, hlog, hmalloc, hclean⟩ := hg.sound.logged_clean hbase h0 hp []
  obtain ⟨r', hmalloc', hout⟩ := hg.sound.outcome hbase h0 hp []
  obtain rfl := Option.some.inj (hmalloc'.symm.trans hmalloc)
  have hstep : ∀ s es, step base c.libc (.malloc bytes [q]) = some (s, es) →
      processStep base c (.malloc bytes) = some (⟨s, if .sbrk ∈ log then m else c.machine⟩, es) := fun s es hs => by
    simp only [processStep, hsbrk, hlog, hs, Option.bind_eq_bind, Option.bind_some]
  cases hout with
  | found hfit hinv hbrks =>
    have hquiet : .sbrk ∉ log := mt hclean.asks.mp (not_not.mpr hfit)
    refine ⟨_, _, hstep _ _ (step_block hmalloc h0 hinv), ?_, iff_of_false (hinv.ptr_ne List.mem_cons_self h0) ?_⟩
    · rw [if_neg hquiet]
      refine ⟨Or.inr ⟨_, hinv⟩, hg.low, hg.high, ?_⟩
      rw [hbrks]
      exact hg.below
    · exact fun h => h.1 hfit
  | refused hno hfail =>
    have hr : Refuses c.machine (signed (sbrkArg bytes)) := by
      by_contra hr
      exact (hgrow hno hr).1 hfail
    obtain ⟨free, hi, hbrks, _⟩ := hg.sound.withList hbase
    have hnull : step base c.libc (.malloc bytes [q]) = some (⟨withList base c.libc.heap, c.libc.live⟩, [0]) := by
      rw [step, hmalloc]
      rfl
    refine ⟨_, _, hstep _ _ hnull, ?_, iff_of_true rfl ⟨hno, hr⟩⟩
    rw [(hrefuse hr).2, ite_self]
    refine ⟨Or.inr ⟨free, hi⟩, hg.low, hg.high, ?_⟩
    rw [hbrks]
    exact hg.below
  | extended hno hfail hinv hbrks =>
    have hr : ¬ Refuses c.machine (signed (sbrkArg bytes)) := fun hr => hfail (hrefuse hr).1
    obtain ⟨_, rfl, hbrk, hlt⟩ := hgrow hno hr
    refine ⟨_, _, hstep _ _ (step_block hmalloc h0 hinv), ?_, iff_of_false (hinv.ptr_ne List.mem_cons_self h0) ?_⟩
    · rw [if_pos (hclean.asks.mpr hno)]
      have hlow := hg.low
      refine ⟨Or.inr ⟨_, hinv⟩, ?_, ?_, fun x hx => ?_⟩
      · dsimp only
        omega
      · dsimp only
        omega
      · dsimp only at hx ⊢
        rw [hbrks] at hx
        rcases List.mem_cons.mp hx with rfl | hx
        · exact hbrk.ge
        · exact (hg.below x hx).trans (by omega)
    · exact fun h => hr h.2

/-- The other calls leave the regions alone. -/
theorem step_quiet (hbase : 0 < base) {s s' : State} (hs : Sound base s) {a : Act} (ha : Allowed base s a)
    (hc : Unwrapped s a) (hno : ∀ bytes answers, a ≠ .malloc bytes answers) {es : List Nat}
    (hst : step base s a = some (s', es)) : Sound base s' ∧ s'.heap.brks = s.heap.brks := by
  obtain ⟨u, es', heq, hsound, hext⟩ := step_unwrapped hbase hs ha hc
  obtain ⟨rfl, rfl⟩ := Prod.mk.inj (Option.some.inj (heq.symm.trans hst))
  refine ⟨hsound, hext.resolve_right ?_⟩
  rintro ⟨bytes, p, rest, hact, _⟩
  exact hno _ _ hact

theorem Grounded.quiet (hg : Grounded base c) {s : State} (h : Sound base s ∧ s.heap.brks = c.libc.heap.brks) :
    Grounded base ⟨s, c.machine⟩ := by
  refine ⟨h.1, hg.low, hg.high, ?_⟩
  rw [h.2]
  exact hg.below

/-- **Every call** inside the address space keeps the heap below the break. -/
theorem processStep_grounded (hbase : 0 < base) (hg : Grounded base c) {a : ProcessAct} (ha : Permitted base c a)
    (hin : Inside c a) {es : List Nat} (hst : processStep base c a = some (t, es)) : Grounded base t := by
  cases a with
  | malloc bytes =>
    obtain ⟨t', p, heq, ht, _⟩ := processStep_malloc hbase hg ha hin
    obtain ⟨rfl, _⟩ := Prod.mk.inj (Option.some.inj (heq.symm.trans hst))
    exact ht
  | free p =>
    rw [processStep, Option.map_eq_some_iff] at hst
    obtain ⟨⟨s, es'⟩, hs, heq⟩ := hst
    obtain ⟨rfl, rfl⟩ := Prod.mk.inj heq
    exact hg.quiet (step_quiet (a := .free p) hbase hg.sound ha trivial nofun hs)
  | write p words =>
    rw [processStep, Option.map_eq_some_iff] at hst
    obtain ⟨⟨s, es'⟩, hs, heq⟩ := hst
    obtain ⟨rfl, rfl⟩ := Prod.mk.inj heq
    exact hg.quiet (step_quiet (a := .write p words) hbase hg.sound ha trivial nofun hs)

/-- **`malloc` fails only when it must**, in every state that calls inside the address space lead to, just if `do_sbrk` does
not refuse the bytes it is asked for where it would accept the bytes needed. -/
theorem malloc_must_fail_iff (hbase : 0 < base) (mem : Nat → Header) (hlow : base + sizeofHeader ≤ m.cur.brk)
    (hhigh : m.cur.brk < 2 ^ 32) {xs : List (Runs.Step Process ProcessAct Nat)}
    (hrun : Run (processStep base) ⟨start mem, m⟩ xs c) (hx : ∀ x ∈ xs, Permitted base x.before x.act ∧ Inside x.before x.act)
    (h0 : 0 < bytes) (hin : Inside c (.malloc bytes)) : ∃ t p, processStep base c (.malloc bytes) = some (t, [p]) ∧
      ((p = 0 → ¬ Fits c.libc.heap bytes ∧ Refuses c.machine (neededBytes bytes)) ↔
        Fits c.libc.heap bytes ∨ ¬ Refuses c.machine (signed (sbrkArg bytes)) ∨
          Refuses c.machine (neededBytes bytes)) := by
  have hg : Grounded base c := by
    refine hrun.inv (C := fun c a => Permitted base c a ∧ Inside c a) (Grounded base) ?_ (fun c a t es hg ha hst => ?_) hx
    · exact ⟨Or.inl ⟨rfl, rfl, rfl⟩, hlow, hhigh, by simp [start]⟩
    · exact processStep_grounded hbase hg ha.1 ha.2 hst
  obtain ⟨t, p, heq, _, hnull⟩ := processStep_malloc hbase hg h0 hin
  refine ⟨t, p, heq, ?_⟩
  rw [hnull]
  tauto

/-- Far from the stack. -/
theorem malloc_must_fail_far : ∃ t p,
    processStep 4096 ⟨start fun _ => ⟨0, 0⟩, Mm.breakAt 0x1000 0x2000 0xBFFFF000⟩ (.malloc 1024) = some (t, [p]) ∧
      (p = 0 → ¬ Fits (start fun _ => ⟨0, 0⟩).heap 1024 ∧
        Refuses (Mm.breakAt 0x1000 0x2000 0xBFFFF000) (neededBytes 1024)) := by
  have hbrk : (Mm.breakAt 0x1000 0x2000 0xBFFFF000).cur.brk = 0x2000 := rfl
  have harg : signed (sbrkArg 1024) = 8192 := by decide
  have hfits : Mm.Fits (Mm.breakAt 0x1000 0x2000 0xBFFFF000).cur (((0x2000 : Int) + 8192) % 2 ^ 32) := by
    constructor <;> decide
  have haccepts : ¬ Refuses (Mm.breakAt 0x1000 0x2000 0xBFFFF000) (signed (sbrkArg 1024)) := by
    rw [refuses_iff, not_not, harg]
    exact hfits
  obtain ⟨t, p, heq, hiff⟩ := malloc_must_fail_iff (by decide) (fun _ => ⟨0, 0⟩)
    (by decide : 4096 + sizeofHeader ≤ (Mm.breakAt 0x1000 0x2000 0xBFFFF000).cur.brk) (by decide) Run.refl
    (by simp) (by decide : 0 < 1024) (Or.inr (Or.inr (by decide)))
  exact ⟨t, p, heq, hiff.mpr (Or.inr (Or.inl haccepts))⟩

/-- Near the stack: 8192 bytes are refused, where 4096 would do. -/
theorem malloc_fails_early : ∃ t,
    processStep 4096 ⟨start fun _ => ⟨0, 0⟩, Mm.breakAt 0x1000 0x2000 0x4000⟩ (.malloc 1024) = some (t, [0]) ∧
      ¬ Refuses (Mm.breakAt 0x1000 0x2000 0x4000) (neededBytes 1024) := by
  have hneeded : (neededBytes 1024 : Int) = 4096 := by decide
  have hfits : Mm.Fits (Mm.breakAt 0x1000 0x2000 0x4000).cur (((0x2000 : Int) + 4096) % 2 ^ 32) := by
    constructor <;> decide
  have hruns : ((processStep 4096 ⟨start fun _ => ⟨0, 0⟩, Mm.breakAt 0x1000 0x2000 0x4000⟩ (.malloc 1024)).any
      fun r => r.2 == [0]) = true := by decide +kernel
  obtain ⟨⟨t, es⟩, ht, hes⟩ := (Option.any_eq_true _ _).mp hruns
  obtain rfl : es = [0] := by simpa using hes
  refine ⟨t, ht, ?_⟩
  rw [refuses_iff, not_not, hneeded]
  exact hfits

end Raampjes.Libc
