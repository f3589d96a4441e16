import Raampjes.Entry.Handlers

/-!
# Preemption

A task that an interrupt stops may lose the processor there, when `main_intr_handler` calls `sched`. Its registers then
wait in two places: those of the program in the frame of the handler, those of the kernel where `switch_task` put them.

- `Handling`: a call of `switch_task` from within a handler; `Finishes`: the rest of `main_intr_handler`;
- `GoesOn.leaves_handler`: the handler ends after the switch back as it would have without one;
- `waits_through`, `goes_on_later`: a task that is passed over waits as before, and then goes on;
- **`preemption_unnoticed`**: over a whole run, from the interrupt to the `iret`.
-/

namespace Raampjes.Entry

open Progs Flat Runs

/-- Where the arguments of `main_intr_handler` are. -/
def argumentsAt (link : Link) (n errorCode : Nat) (u : Cpu) (ctx : Context) : Nat :=
  kernelTop link u ctx - 4 * (arguments link n errorCode u ctx).length

/-- On the stack of task `t`, `main_intr_handler` has calls that end in one of `switch_task`, with the machine `c`. It
serves interrupt `n`, which stopped the code `ctx` with the machine `u`, and has not changed its arguments. -/
structure Handling (link : Link) (n errorCode t : Nat) (u : Cpu) (ctx : Context) (c : Cpu) : Prop where
  interruptible : Interruptible link u ctx
  top : kernelTop link u ctx ≤ t + 4096
  below : c.esp + 4 + 4 * (arguments link n errorCode u ctx).length ≤ kernelTop link u ctx
  args : WordsAt c.mem (argumentsAt link n errorCode u ctx) (arguments link n errorCode u ctx)

/-- The code from behind that call of `switch_task` to the return of `main_intr_handler`: with the registers and the stack
of the call it goes back to the handler, and leaves the stack from its arguments on alone. -/
def Finishes (link : Link) (n errorCode t behind : Nat) (u : Cpu) (ctx : Context) (c : Cpu) (finish : OnCpu Nat) : Prop :=
  ∀ m : Cpu, m.esp = c.esp + 4 → m.ebx = c.ebx → m.esi = c.esi → m.edi = c.edi → m.ebp = c.ebp →
    (∀ a, c.esp ≤ a → a < t + 4096 → m.mem a = c.mem a) →
    ∃ w, Returns finish m behind w ∧ w.esp = argumentsAt link n errorCode u ctx ∧ w.cr3 = m.cr3 ∧
      ∀ a, argumentsAt link n errorCode u ctx ≤ a → a < t + 4096 → w.mem a = m.mem a

/-- The end of `main_intr_handler`, and of the handler that called it. -/
def goBack (behind : Nat) (finish : OnCpu Nat) : OnCpu Context := do
  let address ← finish
  if address = behind then leaveHandler else stop (.jumped address)

section Back

variable {link : Link} {n errorCode t behind : Nat} {u c : Cpu} {ctx : Context} {s s' : System} {finish : OnCpu Nat}

/-- After the switch back the handler ends, and the code that was stopped has its registers. -/
theorem GoesOn.leaves_handler (hgoes : GoesOn t s' (.called c)) (hh : Handling link n errorCode t u ctx c)
    (hfin : Finishes link n errorCode t behind u ctx c finish) :
    ∃ mem, Returns (goBack behind finish) s'.cpu ctx { u with mem := mem, cr3 := s'.cpu.cr3 } ∧
      ∀ a, kernelTop link u ctx ≤ a → a < t + 4096 → mem a = c.mem a := by
  have hi := hh.interruptible
  have haligned := hi.aligned
  have hhigh := hi.high
  have hbelow := hh.below
  have htop := hh.top
  obtain ⟨_, hesp, hebx, hesi, hedi, hebp, hstack⟩ := hgoes
  obtain ⟨w, hw, hwesp, hcr3, hkept⟩ := hfin s'.cpu hesp hebx hesi hedi hebp hstack
  have hlen := length_words ctx u.esp
  have hlenArgs : (arguments link n errorCode u ctx).length = (ctx.words u.esp).length + 10 := rfl
  have hat : argumentsAt link n errorCode u ctx + 4 * (arguments link n errorCode u ctx).length = kernelTop link u ctx :=
    Nat.sub_add_cancel (by omega)
  have hback : ∀ a, argumentsAt link n errorCode u ctx ≤ a → a < t + 4096 → w.mem a = c.mem a := fun a hge hlt => by
    rw [hkept a hge hlt, hstack a (by omega) hlt]
  have hwords : WordsAt w.mem w.esp (arguments link n errorCode u ctx) := by
    rw [hwesp]
    exact hh.args.congr fun a hge hlt => hback a hge (by omega)
  have hleave := @leaveHandler_returns u w ctx n u.esp _ _ (by omega) (by omega) hwords hi.ss
  have hend : (if ctx.user then u.esp else w.esp + 52) = u.esp := @frame_end link u ctx (w.esp + 40) (by omega)
  rw [hend, ← hi.flag, hcr3] at hleave
  refine ⟨w.mem, ?_, fun a hge hlt => hback a (by omega) hlt⟩
  rw [goBack, Returns.bind_iff hw, if_pos rfl]
  exact hleave

/-! ## Runs -/

/-- The turn goes to another task than `t`, which is not freed. -/
def Passes (t : Nat) (s : System) (turn : Turn) : Prop := turn.next ≠ t ∧ turn.waiting t = s.waiting t

/-- A task that every turn passes over waits as before. -/
theorem waits_through {w : Waiting} {xs : List (Runs.Step System Turn Nat)} (hrun : Run (step link) s xs s')
    (hpass : ∀ x ∈ xs, Passes t x.before x.act) (hne : s.running ≠ t) (hw : s.waiting t = some w) :
    s'.running ≠ t ∧ s'.waiting t = some w := by
  refine hrun.inv (fun s => s.running ≠ t ∧ s.waiting t = some w) ⟨hne, hw⟩ (fun s turn s' es hi hp hst => ?_) hpass
  obtain ⟨hnext, hkept⟩ := hp
  obtain ⟨hrunning, hwaiting⟩ := step_waiting hst
  refine ⟨hrunning ▸ hnext, ?_⟩
  rw [hwaiting, if_neg hnext.symm, Turn.callers, if_neg hi.1.symm, hkept]
  exact hi.2

/-- A task that waits goes on in the turn that switches to it, after any turns that pass it over. -/
theorem goes_on_later (hcur4 : link.current % 4 = 0) (hne : link.tssEsp0 ≠ link.current) {b : System} {w : Waiting}
    {ys : List (Runs.Step System Turn Nat)} {back : Turn} (hinv : Inv link b) (hother : b.running ≠ t)
    (hw : b.waiting t = some w) (hbetween : Run (step link) b ys s) (hfair : ∀ y ∈ ys, Fair link y.before y.act)
    (hpass : ∀ y ∈ ys, Passes t y.before y.act) (hback : Fair link s back) (hnext : back.next = t)
    (hkept : back.waiting t = s.waiting t) :
    ∃ s', step link s back = some (s', [t]) ∧ GoesOn t s' w ∧ Loaded link back.cpu.mem t s' := by
  have hinvs : Inv link s := hbetween.inv (Inv link) hinv (fun s a s' es hi hc hst => hi.step hcur4 hne hc hst) hfair
  obtain ⟨hrunning, hwaits⟩ := waits_through hbetween hpass hother hw
  obtain ⟨w', s', hw', hst, hgoes, hloaded, _⟩ := step_resumes hcur4 hne hinvs hback
  have hwho : back.callers s.running back.next = some w := by
    rw [hnext, Turn.callers, if_neg hrunning.symm, hkept, hwaits]
  obtain rfl := Option.some.inj (hw'.symm.trans hwho)
  rw [hnext] at hst hgoes hloaded
  exact ⟨s', hst, hgoes, hloaded⟩

/-- **Preemption is not noticed.** In any run an interrupt stops a task, its handler switches away, and other tasks take
any number of turns. When the task is switched to again, with its page directory and its stack for the next interrupt,
the rest of the handler continues the code that was stopped with every register, its flag and its stack as they were. -/
theorem preemption_unnoticed (hcur4 : link.current % 4 = 0) (hne : link.tssEsp0 ≠ link.current) {s₀ a b : System}
    (h0 : Start link s₀) {xs ys : List (Runs.Step System Turn Nat)} {away back : Turn} {es : List Nat}
    (hbefore : Run (step link) s₀ xs a) (hfair : ∀ x ∈ xs, Fair link x.before x.act)
    (haway : Fair link a away) (hh : Handling link n errorCode a.running u ctx away.cpu) (hleft : away.next ≠ a.running)
    (hst : step link a away = some (b, es))
    (hbetween : Run (step link) b ys s) (hfair' : ∀ y ∈ ys, Fair link y.before y.act)
    (hpass : ∀ y ∈ ys, Passes a.running y.before y.act)
    (hback : Fair link s back) (hnext : back.next = a.running) (hkept : back.waiting a.running = s.waiting a.running)
    (hfin : Finishes link n errorCode a.running behind u ctx away.cpu finish) :
    ∃ s' mem, step link s back = some (s', [a.running]) ∧ s'.eip = away.cpu.mem away.cpu.esp ∧
      Loaded link back.cpu.mem a.running s' ∧
      Returns (goBack behind finish) s'.cpu ctx { u with mem := mem, cr3 := s'.cpu.cr3 } ∧
      ∀ p, kernelTop link u ctx ≤ p → p < a.running + 4096 → mem p = away.cpu.mem p := by
  obtain ⟨hrunning, hwaiting⟩ := step_waiting hst
  have hgone : b.running ≠ a.running := hrunning ▸ hleft
  have hcalled : b.waiting a.running = some (.called away.cpu) := by
    rw [hwaiting, if_neg hleft.symm, Turn.callers, if_pos rfl]
  have hinv : Inv link b := (inv_run hcur4 hne h0 hbefore hfair).step hcur4 hne haway hst
  obtain ⟨s', hst', hgoes, hloaded⟩ :=
    goes_on_later hcur4 hne hinv hgone hcalled hbetween hfair' hpass hback hnext hkept
  obtain ⟨mem, hreturns, hstack⟩ := hgoes.leaves_handler hh hfin
  exact ⟨s', mem, hst', hgoes.1, hloaded, hreturns, hstack⟩

end Back

/-! ## A task that the timer stops -/

/-- The stack of the parent when the timer has stopped its program and `sched` switches to the child. -/
def preemptedWords (a : Nat) : Nat :=
  if 8128 ≤ a ∧ a < 8192 then (3 :: arguments smallLink 32 0 stopped program).getD ((a - 8128) / 4) 0 else forkedWords a

theorem preempted_handling : Handling smallLink 32 0 4096 stopped program (forking preemptedWords).cpu where
  interruptible := stopped_interruptible
  top := Nat.le_refl _
  below := by decide
  args := by
    have hlist : arguments smallLink 32 0 stopped program =
        [32, 6, 5, 7, 8168, 2, 4, 3, 1, 0, 40, 0x23, 0x202, 100, 0x2B] := rfl
    have hat : argumentsAt smallLink 32 0 stopped program = 8132 := rfl
    rw [hat, hlist]
    refine ⟨?_, ?_, ?_, ?_, ?_, ?_, ?_, ?_, ?_, ?_, ?_, ?_, ?_, ?_, ?_, trivial⟩ <;> rfl

/-- What is left of `sched` and `main_intr_handler`: seven words of stack. -/
def finishTimer : OnCpu Nat := do
  drop 28
  ret

theorem finishTimer_finishes :
    Finishes smallLink 32 0 4096 3 stopped program (forking preemptedWords).cpu finishTimer := by
  intro m hesp _ _ _ _ hstack
  have hesp' : m.esp = 8100 := hesp
  have hword : m.mem 8128 = 3 := hstack 8128 (by decide) (by decide)
  refine ⟨{ m with esp := 8132 }, ?_, rfl, rfl, fun _ _ _ => rfl⟩
  rw [finishTimer, drop_bind _ (by omega), hesp', ← hword]
  exact ret_returns (s := { m with esp := 8128 }) (show 8128 % 4 = 0 from rfl) (show 8128 + 4 < 2 ^ 32 by decide)

theorem preemption_unnoticed_parent : ∃ b s' mem, step smallLink parent (forking preemptedWords) = some (b, [8192]) ∧
    step smallLink b (switchBack b) = some (s', [4096]) ∧
    Returns (goBack 3 finishTimer) s'.cpu program { stopped with mem := mem, cr3 := s'.cpu.cr3 } := by
  have hstart : Start smallLink parent := ⟨smallLink_page (Or.inl rfl), rfl⟩
  have hfair : Fair smallLink parent (forking preemptedWords) := forking_fair rfl rfl rfl rfl rfl
  obtain ⟨w, b, _, hst, _, _, hinv⟩ := step_resumes (by decide) (by decide) hstart.inv hfair
  obtain ⟨hrun, hwait⟩ := step_waiting hst
  have hparent : b.waiting 4096 = some (.called (forking preemptedWords).cpu) := hwait 4096
  obtain ⟨s', mem, hst', _, _, hreturns, _⟩ := @preemption_unnoticed smallLink 32 0 3 stopped program b finishTimer
    (by decide) (by decide) parent parent b hstart [] [] (forking preemptedWords) (switchBack b) [8192] Run.refl (by simp)
    hfair preempted_handling (by decide) hst Run.refl (by simp) (by simp) (switchBack_fair hinv hrun (by rw [hparent]; rfl))
    rfl rfl finishTimer_finishes
  exact ⟨b, s', mem, hst, hst', hreturns⟩

end Raampjes.Entry
