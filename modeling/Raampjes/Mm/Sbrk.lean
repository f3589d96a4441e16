import Raampjes.Lib.Runs
import Raampjes.Mm.Bounds

/-!
# The arithmetic of `do_sbrk`

The new break is a sum in 32 bits, compared with the two ends of the window between `code_end` and `stack_start`.

- `Window`: the break is inside; every call keeps that (`sbrkStep_window`);
- `Exact`: what a call should do by the sum of integers; `Wraps`: the sum leaves 32 bits and comes back into the window;
- `exact_iff`: one call; `sbrk_exact_iff`: every call of a sequence.
-/

namespace Raampjes.Mm

open Progs Runs

/-- The break lies strictly between the code and the stack. -/
structure Window (t : TaskStruct) : Prop where
  code : t.codeEnd < t.brk
  stack : t.brk < t.stackStart
  user : t.stackStart ≤ KERNEL_MEMORY

/-- A call of `do_sbrk` with a signed 32-bit argument; the event is what it returns. -/
def sbrkStep (m : Machine) (incr : Int) : Option (Machine × List Int) :=
  if -2 ^ 31 ≤ incr ∧ incr < 2 ^ 31 then
    match doSbrk incr m with
    | .ok (r, m') => some (m', [r])
    | .error _ => none
  else none

/-- The sum is strictly between the two ends. -/
def Fits (t : TaskStruct) (sum : Int) : Prop := t.codeEnd < sum ∧ sum < t.stackStart

instance (t : TaskStruct) (sum : Int) : Decidable (Fits t sum) := inferInstanceAs (Decidable (_ ∧ _))

/-- **What a call should do**: it succeeds just if the sum fits, and then moves the break by exactly `incr`. -/
structure Exact (m : Machine) (incr r : Int) (m' : Machine) : Prop where
  succeeds : r ≠ -1 ↔ Fits m.cur (m.cur.brk + incr)
  success : r ≠ -1 → r = m.cur.brk ∧ ∃ brk : Nat, (brk : Int) = m.cur.brk + incr ∧ m' = m.setCur { m.cur with brk := brk }
  failure : r = -1 → m' = m

/-- The sum is no 32-bit number, and wrapped it is in the window. -/
def Wraps (t : TaskStruct) (incr : Int) : Prop :=
  t.brk + incr < 0 ∧ Fits t (t.brk + incr + 2 ^ 32) ∨ 2 ^ 32 ≤ t.brk + incr ∧ Fits t (t.brk + incr - 2 ^ 32)

section Call

variable {m m' : Machine} {incr r : Int} {es : List Int}

/-- `do_sbrk`, with the sum as the source forms it. -/
theorem doSbrk_iff : Returns (doSbrk incr) m r m' ↔
    if Fits m.cur ((m.cur.brk + incr) % 2 ^ 32) then
      r = m.cur.brk ∧ m' = m.setCur { m.cur with brk := ((m.cur.brk + incr) % 2 ^ 32).toNat }
    else r = -1 ∧ m' = m := by
  have hnonneg : 0 ≤ ((m.cur.brk : Int) + incr) % 2 ^ 32 := Int.emod_nonneg _ (by decide)
  have hcond : (((m.cur.brk : Int) + incr) % 2 ^ 32).toNat > m.cur.codeEnd ∧
      (((m.cur.brk : Int) + incr) % 2 ^ 32).toNat < m.cur.stackStart ↔ Fits m.cur ((m.cur.brk + incr) % 2 ^ 32) := by
    rw [Fits]
    omega
  rw [doSbrk, Returns.bind_iff ((gets_ok _).mpr ⟨rfl, rfl⟩)]
  dsimp only
  by_cases hf : Fits m.cur ((m.cur.brk + incr) % 2 ^ 32)
  · rw [if_pos (hcond.mpr hf), if_pos hf, Returns.bind_iff ((update_ok _ ()).mpr rfl), pure_ok]
  · rw [if_neg (mt hcond.mp hf), if_neg hf, pure_ok]

theorem doSbrk_grows (hf : Fits m.cur ((m.cur.brk + incr) % 2 ^ 32)) : Returns (doSbrk incr) m m.cur.brk
    (m.setCur { m.cur with brk := ((m.cur.brk + incr) % 2 ^ 32).toNat }) := by
  rw [doSbrk_iff, if_pos hf]
  exact ⟨rfl, rfl⟩

theorem sbrkStep_ok : sbrkStep m incr = some (m', es) ↔
    (-2 ^ 31 ≤ incr ∧ incr < 2 ^ 31) ∧ ∃ r, es = [r] ∧ Returns (doSbrk incr) m r m' := by
  unfold sbrkStep Returns
  by_cases hr : -2 ^ 31 ≤ incr ∧ incr < 2 ^ 31
  · rw [if_pos hr]
    cases hd : doSbrk incr m with
    | error e => simp
    | ok p =>
      simp only [Option.some.injEq, Prod.mk.injEq, Except.ok.injEq, hr, and_self, true_and]
      constructor
      · rintro ⟨rfl, rfl⟩
        exact ⟨p.1, rfl, rfl⟩
      · rintro ⟨r, rfl, rfl⟩
        exact ⟨rfl, rfl⟩
  · rw [if_neg hr]
    exact ⟨nofun, fun h => absurd h.1 hr⟩

/-- The 32-bit sum fits just if the sum does, or wraps. -/
theorem fits_mod_iff (hw : Window m.cur) (hlo : -2 ^ 31 ≤ incr) (hhi : incr < 2 ^ 31) :
    Fits m.cur ((m.cur.brk + incr) % 2 ^ 32) ↔ Fits m.cur (m.cur.brk + incr) ∨ Wraps m.cur incr := by
  obtain ⟨hcode, hstack, huser⟩ := hw
  rw [KERNEL_MEMORY] at huser
  simp only [Fits, Wraps]
  omega

/-- **One call.** -/
theorem exact_iff (hw : Window m.cur) (hlo : -2 ^ 31 ≤ incr) (hhi : incr < 2 ^ 31)
    (hr : Returns (doSbrk incr) m r m') : Exact m incr r m' ↔ ¬ Wraps m.cur incr := by
  have hsum := fits_mod_iff hw hlo hhi
  have hbrk : (m.cur.brk : Int) ≠ -1 := by omega
  rw [doSbrk_iff] at hr
  by_cases hf : Fits m.cur ((m.cur.brk + incr) % 2 ^ 32)
  · rw [if_pos hf] at hr
    obtain ⟨rfl, rfl⟩ := hr
    constructor
    · intro hex hwr
      have hfit := hex.succeeds.mp hbrk
      -- a sum that wraps is no natural number below the stack
      obtain ⟨hcode, hstack, huser⟩ := hw
      rw [KERNEL_MEMORY] at huser
      simp only [Fits, Wraps] at hfit hwr
      omega
    · intro hno
      have hfit : Fits m.cur (m.cur.brk + incr) := (hsum.mp hf).resolve_right hno
      have hsmall : 0 ≤ (m.cur.brk : Int) + incr ∧ (m.cur.brk : Int) + incr < 2 ^ 32 := by
        obtain ⟨_, _, huser⟩ := hw
        rw [KERNEL_MEMORY] at huser
        rw [Fits] at hfit
        omega
      have hmod : ((m.cur.brk : Int) + incr) % 2 ^ 32 = m.cur.brk + incr := Int.emod_eq_of_lt hsmall.1 hsmall.2
      refine ⟨iff_of_true hbrk hfit, fun _ => ⟨rfl, _, ?_, rfl⟩, fun h => absurd h hbrk⟩
      rw [hmod, Int.toNat_of_nonneg hsmall.1]
  · rw [if_neg hf] at hr
    obtain ⟨rfl, rfl⟩ := hr
    rw [hsum, not_or] at hf
    refine iff_of_true ⟨iff_of_false (by simp) hf.1, fun h => absurd rfl h, fun _ => rfl⟩ hf.2

/-- The break stays in the window, also when the sum wraps. -/
theorem sbrkStep_window (hw : Window m.cur) (hst : sbrkStep m incr = some (m', es)) : Window m'.cur := by
  obtain ⟨_, r, _, hr⟩ := sbrkStep_ok.mp hst
  rw [doSbrk_iff] at hr
  by_cases hf : Fits m.cur ((m.cur.brk + incr) % 2 ^ 32)
  · rw [if_pos hf] at hr
    rw [hr.2, setCur_cur]
    rw [Fits] at hf
    exact ⟨by dsimp only; omega, by dsimp only; omega, hw.user⟩
  · rw [if_neg hf] at hr
    rw [hr.2]
    exact hw

end Call

/-- **Every call of a sequence** moves the break by exactly its argument, or refuses, just if the sum does not wrap into
the window. -/
theorem sbrk_exact_iff {m m' : Machine} {xs : List (Runs.Step Machine Int Int)} (hw : Window m.cur)
    (hrun : Run sbrkStep m xs m') :
    ∀ x ∈ xs, (∃ r, x.events = [r] ∧ Exact x.before x.act r x.after) ↔ ¬ Wraps x.before.cur x.act := by
  have hsteps := hrun.inv_steps (C := fun _ _ => True) (fun m => Window m.cur) hw
    (fun m incr m' es hw _ hst => sbrkStep_window hw hst) fun _ _ => trivial
  intro x hx
  obtain ⟨hwx, hst⟩ := hsteps x hx
  obtain ⟨⟨hlo, hhi⟩, r, hes, hr⟩ := sbrkStep_ok.mp hst
  rw [← exact_iff hwx hlo hhi hr, hes]
  constructor
  · rintro ⟨r', he, hex⟩
    obtain rfl := List.singleton_inj.mp he
    exact hex
  · exact fun hex => ⟨r, rfl, hex⟩

/-- A task with a break, running alone. -/
def breakAt (codeEnd brk stackStart : Nat) : Machine :=
  { ram := fun _ _ => 0#32, bitmap := fun _ => 0, cr3 := 0, current := 0
    tasks := fun i => if i = 0 then
      some { noTask with state := .running, codeEnd := codeEnd, brk := brk, stackStart := stackStart } else none }

theorem sbrk_exact_iff_small : ∃ xs m', Run sbrkStep (breakAt 0x1000 0x2000 0xBFFFF000) xs m' ∧ xs.length = 1 ∧
    ∀ x ∈ xs, ∃ r, x.events = [r] ∧ Exact x.before x.act r x.after := by
  have hw : Window (breakAt 0x1000 0x2000 0xBFFFF000).cur := ⟨by decide, by decide, by decide⟩
  have hfit : Fits (breakAt 0x1000 0x2000 0xBFFFF000).cur (((0x2000 : Int) + 16) % 2 ^ 32) := by
    constructor <;> decide
  have hcall : Returns (doSbrk 16) (breakAt 0x1000 0x2000 0xBFFFF000) 0x2000 _ := doSbrk_grows hfit
  have hrun := Run.snoc Run.refl (sbrkStep_ok.mpr ⟨by decide, _, rfl, hcall⟩)
  refine ⟨_, _, hrun, rfl, fun x hx => (sbrk_exact_iff hw hrun x hx).mpr ?_⟩
  rw [List.mem_singleton.mp hx]
  rintro (⟨h, _⟩ | ⟨h, _⟩)
  · exact absurd h (by decide)
  · exact absurd h (by decide)

/-- A large positive argument moves the break down. -/
theorem sbrk_not_exact : ∃ m', Window (breakAt 0x1000 0xA0000000 0xBFFFF000).cur ∧
    Returns (doSbrk 0x7FFFFFFF) (breakAt 0x1000 0xA0000000 0xBFFFF000) 0xA0000000 m' ∧
    m'.cur.brk = 0x1FFFFFFF ∧
    ¬ Exact (breakAt 0x1000 0xA0000000 0xBFFFF000) 0x7FFFFFFF 0xA0000000 m' := by
  have hfit : Fits (breakAt 0x1000 0xA0000000 0xBFFFF000).cur (((0xA0000000 : Int) + 0x7FFFFFFF) % 2 ^ 32) := by
    constructor <;> decide
  have hcall : Returns (doSbrk 0x7FFFFFFF) (breakAt 0x1000 0xA0000000 0xBFFFF000) 0xA0000000 _ := doSbrk_grows hfit
  refine ⟨_, ⟨by decide, by decide, by decide⟩, hcall, ?_, fun hex => ?_⟩
  · rw [setCur_cur]
    rfl
  · have hsum := (hex.succeeds.mp (by decide)).2
    exact absurd hsum (by decide)

end Raampjes.Mm
