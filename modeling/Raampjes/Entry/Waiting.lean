import Raampjes.Entry.SwitchTask
import Raampjes.Lib.Runs

/-!
# Tasks that wait in `switch_task`

A task that does not run has called `switch_task`, or is new and has been given a place to start.

- `Holds`: what its page says; `Holds.congr`: only the words in use matter;
- `Switched.parks`, `Switched.keeps`: `switch_task` leaves its caller waiting, and the others alone;
- `resume_returns`: what follows the label `.1`;
- `step_resumes`, `step_inv`: one turn; **`switch_task_resumes`**: in every run a task goes on as it left.
-/

namespace Raampjes.Entry

open Progs Flat Runs

/-- How a task waits: since it called `switch_task`, with the machine as it was then, or for its start. -/
inductive Waiting where
  | called (c : Cpu)
  | born (start : Nat) (c : Cpu)

/-- The page of a task that called `switch_task`. -/
structure Saved (link : Link) (mem : Nat → Nat) (t : Nat) (c : Cpu) : Prop where
  aligned : c.esp % 4 = 0
  low : t + 80 ≤ c.esp
  high : c.esp + 12 ≤ t + 4096
  esp : mem t = c.esp - 16
  eip : mem (t + 4) = link.resumed
  ebp : mem (t + 8) = c.esp - 4
  frame : mem (c.esp - 16) = c.ebx ∧ mem (c.esp - 12) = c.esi ∧ mem (c.esp - 8) = c.edi ∧ mem (c.esp - 4) = c.ebp
  stack : ∀ a, c.esp ≤ a → a < t + 4096 → mem a = c.mem a

/-- The page of a new task. -/
structure Fresh (link : Link) (mem : Nat → Nat) (t start : Nat) (c : Cpu) : Prop where
  stackOk : StackOk mem t
  esp : mem t = c.esp
  eip : mem (t + 4) = start
  elsewhere : start ≠ link.resumed
  ebp : mem (t + 8) = c.ebp
  stack : ∀ a, c.esp ≤ a → a < t + 4096 → mem a = c.mem a

def Holds (link : Link) (mem : Nat → Nat) (t : Nat) : Waiting → Prop
  | .called c => Saved link mem t c
  | .born start c => Fresh link mem t start c

/-- A word that a waiting task needs: where it waits, and its stack. -/
def InUse (mem : Nat → Nat) (t a : Nat) : Prop := a = t ∨ a = t + 4 ∨ a = t + 8 ∨ mem t ≤ a ∧ a < t + 4096

section Holds

variable {link : Link} {mem mem' : Nat → Nat} {t p q there : Nat} {w : Waiting} {c s s' : Cpu}

theorem Holds.stackOk (h : Holds link mem t w) : StackOk mem t := by
  cases w with
  | called c =>
    obtain ⟨h4, hlow, hhigh, hesp, _⟩ := h
    rw [StackOk, hesp]
    omega
  | born start c => exact Fresh.stackOk h

/-- Words that are not in use do not matter. -/
theorem Holds.congr (h : Holds link mem t w) (hsame : ∀ a, InUse mem t a → mem' a = mem a) : Holds link mem' t w := by
  have h0 : mem' t = mem t := hsame t (Or.inl rfl)
  have h4 : mem' (t + 4) = mem (t + 4) := hsame _ (Or.inr (Or.inl rfl))
  have h8 : mem' (t + 8) = mem (t + 8) := hsame _ (Or.inr (Or.inr (Or.inl rfl)))
  have hstack : ∀ a, mem t ≤ a → a < t + 4096 → mem' a = mem a :=
    fun a hge hlt => hsame a (Or.inr (Or.inr (Or.inr ⟨hge, hlt⟩)))
  cases w with
  | called c =>
    obtain ⟨haligned, hlow, hhigh, hesp, heip, hebp, ⟨hf0, hf4, hf8, hf12⟩, hrest⟩ := h
    have hframe : ∀ a, c.esp - 16 ≤ a → a < t + 4096 → mem' a = mem a := fun a hge => hstack a (by omega)
    refine ⟨haligned, hlow, hhigh, h0.trans hesp, h4.trans heip, h8.trans hebp, ⟨?_, ?_, ?_, ?_⟩, fun a hge hlt => ?_⟩
    · rw [hframe _ (by omega) (by omega), hf0]
    · rw [hframe _ (by omega) (by omega), hf4]
    · rw [hframe _ (by omega) (by omega), hf8]
    · rw [hframe _ (by omega) (by omega), hf12]
    · rw [hframe _ (by omega) hlt, hrest a hge hlt]
  | born start c =>
    obtain ⟨hok, hesp, heip, helse, hebp, hrest⟩ := h
    refine ⟨?_, h0.trans hesp, h4.trans heip, helse, h8.trans hebp, fun a hge hlt => ?_⟩
    · rwa [StackOk, h0]
    · rw [hstack a (by omega) hlt, hrest a hge hlt]

/-- The words in use lie in the page. -/
theorem InUse.in_page {a : Nat} (h : InUse mem t a) (hok : StackOk mem t) : t ≤ a ∧ a < t + 4096 := by
  obtain ⟨_, hge, _⟩ := hok
  rcases h with rfl | rfl | rfl | h
  all_goals omega

/-! ## What `switch_task` does to those who wait -/

section Switched

variable (hc : Called link s p q) (hs : Switched link s p q there s')

include hc hs

/-- The caller waits. -/
theorem Switched.parks (hq : q = p ∨ StackOk s.mem q) : Saved link s'.mem p s := by
  obtain ⟨hesp, heip, hebp⟩ := hs.saved
  refine ⟨hc.aligned, by have := hc.low; omega, hc.high, hesp, heip, hebp, hs.frame, fun a hge hlt => ?_⟩
  have hlow := hc.low
  have hcur := hc.prev_page.current
  have htss := hc.prev_page.tss
  refine hs.kept a (by omega) (by omega) (by omega) (by omega) (by omega) (Or.inr hge) fun hqp => ?_
  obtain ⟨_, hge', hle'⟩ := hq.resolve_left hqp
  have hapart := (hc.prev_page.apart hc.next_page).resolve_left hqp
  omega

/-- A task that is neither the caller nor the next goes on waiting. -/
theorem Switched.keeps (hq : q = p ∨ StackOk s.mem q) (ht : Page link t) (htp : t ≠ p) (htq : t ≠ q)
    (h : Holds link s.mem t w) : Holds link s'.mem t w := by
  refine h.congr fun a ha => ?_
  obtain ⟨hge, hlt⟩ := ha.in_page h.stackOk
  have hapartP := (hc.prev_page.apart ht).resolve_left htp
  have hlow := hc.low
  have hhigh := hc.high
  have hcur := ht.current
  have htss := ht.tss
  refine hs.kept a (by omega) (by omega) (by omega) (by omega) (by omega) (by omega) fun hqp => ?_
  obtain ⟨_, hge', hle'⟩ := hq.resolve_left hqp
  have hapartQ := (hc.next_page.apart ht).resolve_left htq
  omega

/-- The words that the next task needs stay too. -/
theorem Switched.next {a : Nat} (hqp : q ≠ p) (hok : StackOk s.mem q) (ha : InUse s.mem q a) : s'.mem a = s.mem a := by
  obtain ⟨hge, hlt⟩ := ha.in_page hok
  obtain ⟨_, hge', _⟩ := hok
  have hapart := (hc.prev_page.apart hc.next_page).resolve_left hqp
  have hlow := hc.low
  have hhigh := hc.high
  have hcur := hc.next_page.current
  have htss := hc.next_page.tss
  refine hs.kept a (by omega) (by omega) (by omega) (by omega) (by omega) (by omega) fun _ => ?_
  rcases ha with rfl | rfl | rfl | ⟨ha, _⟩
  all_goals omega

end Switched

/-- From the label on, a task gets its registers back and returns from `switch_task`. -/
theorem resume_returns (h : Saved link s.mem t c) (hfits : t + 4096 < 2 ^ 32) (hesp : s.esp = c.esp - 16)
    (hebp : s.ebp = c.esp - 4) : Returns resume s (c.mem c.esp)
      { s with ebx := c.ebx, esi := c.esi, edi := c.edi, ebp := c.ebp, esp := c.esp + 4 } := by
  obtain ⟨haligned, hlow, hhigh, _, _, _, ⟨hf0, hf4, hf8, hf12⟩, hrest⟩ := h
  have h12 : c.esp - 16 + 4 = c.esp - 12 := by omega
  have h8 : c.esp - 12 + 4 = c.esp - 8 := by omega
  have h4 : c.esp - 4 + 4 = c.esp := by omega
  rw [resume]
  refine (pop_bind _ _ (by omega) (by omega)).mpr ?_
  rw [hesp, hf0, h12]
  refine (pop_bind _ _ (by dsimp only; omega) (by dsimp only; omega)).mpr ?_
  dsimp only
  rw [hf4, h8]
  refine (pop_bind _ _ (by dsimp only; omega) (by dsimp only; omega)).mpr ?_
  dsimp only
  have hleave := @leave_returns { s with ebx := c.ebx, esi := c.esi, edi := c.edi, esp := c.esp - 8 + 4 }
    (by dsimp only; omega) (by dsimp only; omega)
  dsimp only at hleave
  rw [hebp, hf12, h4] at hleave
  rw [hf8, hebp, Returns.bind_iff hleave]
  have hret := @ret_returns { s with ebx := c.ebx, esi := c.esi, edi := c.edi, ebp := c.ebp, esp := c.esp }
    (by dsimp only; omega) (by dsimp only; omega)
  dsimp only at hret
  rwa [hrest _ (Nat.le_refl _) (by omega)] at hret

end Holds

/-! ## Turns -/

/-- The machine, at `eip`, with the running task and how the others wait. -/
structure System where
  cpu : Cpu
  eip : Nat
  running : Nat
  waiting : Nat → Option Waiting

/-- The machine when the running task calls `switch_task`, and how the others wait by then. -/
structure Turn where
  cpu : Cpu
  next : Nat
  waiting : Nat → Option Waiting

/-- How the tasks wait, once the running task has called. -/
def Turn.callers (running : Nat) (turn : Turn) (t : Nat) : Option Waiting :=
  if t = running then some (.called turn.cpu) else turn.waiting t

/-- The task goes on at `next`, and no longer waits. -/
def arrived (s : System) (turn : Turn) (cpu : Cpu) (eip : Nat) : System where
  cpu := cpu
  eip := eip
  running := turn.next
  waiting t := if t = turn.next then none else turn.callers s.running t

/-- `switch_task` and, when it goes to the label `.1`, what follows there. -/
def switchAndResume (link : Link) : OnCpu Nat := do
  let there ← switchTask link
  if there = link.resumed then resume else pure there

/-- One turn; it tells who goes on. -/
def step (link : Link) (s : System) (turn : Turn) : Option (System × List Nat) :=
  (switchAndResume link turn.cpu).toOption.map fun r => (arrived s turn r.2 r.1, [turn.next])

/-- What is asked of the code between two turns. -/
structure Fair (link : Link) (s : System) (turn : Turn) : Prop where
  called : Called link turn.cpu s.running turn.next
  /-- A task that still waits has the words that it needs; the others are new. -/
  waits : ∀ t w, turn.waiting t = some w → t ≠ s.running ∧
    ((s.waiting t = some w ∧ ∀ a, InUse s.cpu.mem t a → turn.cpu.mem a = s.cpu.mem a) ∨
      (Page link t ∧ ∃ start c, w = .born start c ∧ Fresh link turn.cpu.mem t start c))
  ready : turn.next = s.running ∨ (turn.waiting turn.next).isSome

/-- What every turn keeps. -/
structure Inv (link : Link) (s : System) : Prop where
  page : Page link s.running
  idle : s.waiting s.running = none
  holds : ∀ t w, s.waiting t = some w → Page link t ∧ Holds link s.cpu.mem t w

/-- The task goes on as it left: from `switch_task`, to where it called it from, with the registers that a function keeps
and its stack; a new task at its start. -/
def GoesOn (t : Nat) (s : System) : Waiting → Prop
  | .called c => s.eip = c.mem c.esp ∧ s.cpu.esp = c.esp + 4 ∧ s.cpu.ebx = c.ebx ∧ s.cpu.esi = c.esi ∧ s.cpu.edi = c.edi ∧
      s.cpu.ebp = c.ebp ∧ ∀ a, c.esp ≤ a → a < t + 4096 → s.cpu.mem a = c.mem a
  | .born start c => s.eip = start ∧ s.cpu.esp = c.esp ∧ s.cpu.ebp = c.ebp ∧
      ∀ a, c.esp ≤ a → a < t + 4096 → s.cpu.mem a = c.mem a

/-- The processor and the kernel are set for the task. -/
structure Loaded (link : Link) (mem : Nat → Nat) (t : Nat) (s : System) : Prop where
  running : s.running = t
  current : s.cpu.mem link.current = t
  cr3 : s.cpu.cr3 = link.pageFrame (mem (t + 12))
  tss : s.cpu.mem link.tssEsp0 = mem (t + 16)

section Turns

variable {link : Link} {s s' : System} {turn : Turn} {es : List Nat} {t : Nat} {w : Waiting}

/-- The tasks that wait when `switch_task` is called. -/
theorem Fair.holds (hf : Fair link s turn) (hinv : Inv link s) (h : turn.waiting t = some w) :
    t ≠ s.running ∧ Page link t ∧ Holds link turn.cpu.mem t w := by
  obtain ⟨hne, ⟨hold, hsame⟩ | ⟨hpage, start, c, rfl, hfresh⟩⟩ := hf.waits t w h
  · obtain ⟨hpage, hholds⟩ := hinv.holds t w hold
    exact ⟨hne, hpage, hholds.congr hsame⟩
  · exact ⟨hne, hpage, hfresh⟩

theorem Fair.stackOk (hf : Fair link s turn) (hinv : Inv link s) : turn.next = s.running ∨ StackOk turn.cpu.mem turn.next := by
  refine hf.ready.imp_right fun h => ?_
  obtain ⟨w, hw⟩ := Option.isSome_iff_exists.mp h
  exact (hf.holds hinv hw).2.2.stackOk

/-- How the next task waits, after the caller has saved its registers. -/
theorem Fair.next_holds (hf : Fair link s turn) (hinv : Inv link s) {there : Nat} {cpu : Cpu}
    (hs : Switched link turn.cpu s.running turn.next there cpu) (h : turn.callers s.running turn.next = some w) :
    Holds link cpu.mem turn.next w ∧ cpu.esp = cpu.mem turn.next ∧ cpu.ebp = cpu.mem (turn.next + 8) ∧
      there = cpu.mem (turn.next + 4) := by
  have hok := hf.stackOk hinv
  obtain ⟨hesp, heip, hebp⟩ := hs.saved
  by_cases hqp : turn.next = s.running
  · rw [Turn.callers, if_pos hqp, Option.some.injEq] at h
    subst h
    have hgoes := hs.goes
    have hesp' := hs.esp
    have hebp' := hs.ebp
    rw [if_pos hqp] at hgoes hesp' hebp'
    rw [hqp, hesp, heip, hebp]
    exact ⟨hs.parks hf.called hok, hesp', hebp', hgoes⟩
  · rw [Turn.callers, if_neg hqp] at h
    obtain ⟨_, _, hholds⟩ := hf.holds hinv h
    have hword : ∀ a, InUse turn.cpu.mem turn.next a → cpu.mem a = turn.cpu.mem a :=
      fun a => hs.next hf.called hqp hholds.stackOk
    have hgoes := hs.goes
    have hesp' := hs.esp
    have hebp' := hs.ebp
    rw [if_neg hqp] at hgoes hesp' hebp'
    refine ⟨hholds.congr hword, ?_, ?_, ?_⟩
    · rw [hesp', hword _ (Or.inl rfl)]
    · rw [hebp', hword _ (Or.inr (Or.inr (Or.inl rfl)))]
    · rw [hgoes, hword _ (Or.inr (Or.inl rfl))]

/-- Once `switch_task` has gone to the next task, the others wait. -/
theorem Fair.others (hf : Fair link s turn) (hinv : Inv link s) {there : Nat} {cpu : Cpu}
    (hs : Switched link turn.cpu s.running turn.next there cpu) (ht : t ≠ turn.next)
    (h : turn.callers s.running t = some w) : Page link t ∧ Holds link cpu.mem t w := by
  have hok := hf.stackOk hinv
  by_cases htp : t = s.running
  · rw [Turn.callers, if_pos htp, Option.some.injEq] at h
    subst h
    rw [htp]
    exact ⟨hinv.page, hs.parks hf.called hok⟩
  · rw [Turn.callers, if_neg htp] at h
    obtain ⟨_, hpage, hholds⟩ := hf.holds hinv h
    exact ⟨hpage, hs.keeps hf.called hok hpage htp ht hholds⟩

/-- Someone waits to be next. -/
theorem Fair.next_waits (hf : Fair link s turn) : ∃ w, turn.callers s.running turn.next = some w := by
  by_cases hqp : turn.next = s.running
  · exact ⟨_, if_pos hqp⟩
  · obtain ⟨w, hw⟩ := Option.isSome_iff_exists.mp (hf.ready.resolve_left hqp)
    exact ⟨w, (if_neg hqp).trans hw⟩

theorem step_of {back : Nat} {cpu : Cpu} (h : Returns (switchAndResume link) turn.cpu back cpu) :
    step link s turn = some (arrived s turn cpu back, [turn.next]) := by
  unfold Returns at h
  rw [step, h]
  rfl

/-- After a turn its caller waits, and everyone else but the next as before. -/
theorem step_waiting (h : step link s turn = some (s', es)) :
    s'.running = turn.next ∧ ∀ t, s'.waiting t = if t = turn.next then none else turn.callers s.running t := by
  obtain ⟨r, _, hr⟩ := Option.map_eq_some_iff.mp h
  obtain rfl := (Prod.ext_iff.mp hr).1
  exact ⟨rfl, fun t => rfl⟩

/-- **One turn.** The next task goes on, and everyone else waits. -/
theorem step_resumes (hcur4 : link.current % 4 = 0) (hne : link.tssEsp0 ≠ link.current) (hinv : Inv link s)
    (hf : Fair link s turn) : ∃ w s', turn.callers s.running turn.next = some w ∧
      step link s turn = some (s', [turn.next]) ∧ GoesOn turn.next s' w ∧ Loaded link turn.cpu.mem turn.next s' ∧ Inv link s' := by
  obtain ⟨w, hw⟩ := hf.next_waits
  obtain ⟨there, cpu, hr, hs⟩ := switchTask_returns hf.called hcur4 hne (hf.stackOk hinv)
  obtain ⟨hholds, hesp, hebp, hgoes⟩ := hf.next_holds hinv hs hw
  have hinv' : ∀ cpu' eip, cpu'.mem = cpu.mem → Inv link (arrived s turn cpu' eip) := by
    intro cpu' eip hmem
    refine ⟨hf.called.next_page, if_pos rfl, fun t w ht => ?_⟩
    obtain ⟨htn, ht⟩ := ite_eq_iff.mp ht |>.resolve_left fun h => by simp at h
    rw [show (arrived s turn cpu' eip).cpu.mem = cpu.mem from hmem]
    exact hf.others hinv hs htn ht
  have hloaded : ∀ cpu' eip, cpu'.mem = cpu.mem → cpu'.cr3 = cpu.cr3 →
      Loaded link turn.cpu.mem turn.next (arrived s turn cpu' eip) := by
    intro cpu' eip hmem hcr3
    refine ⟨rfl, ?_, hcr3.trans hs.cr3, ?_⟩
    · exact (congrFun hmem _).trans hs.current
    · exact (congrFun hmem _).trans hs.tss
  cases w with
  | called c =>
    obtain ⟨_, _, _, hsavedEsp, hsavedEip, hsavedEbp, _, hstack⟩ := id hholds
    have hback := resume_returns hholds hf.called.next_page.fits (hesp.trans hsavedEsp) (hebp.trans hsavedEbp)
    have hboth : Returns (switchAndResume link) turn.cpu (c.mem c.esp)
        { cpu with ebx := c.ebx, esi := c.esi, edi := c.edi, ebp := c.ebp, esp := c.esp + 4 } := by
      rw [switchAndResume, Returns.bind_iff hr, if_pos (hgoes.trans hsavedEip)]
      exact hback
    exact ⟨_, _, hw, step_of hboth, ⟨rfl, rfl, rfl, rfl, rfl, rfl, hstack⟩, hloaded _ _ rfl rfl, hinv' _ _ rfl⟩
  | born start c =>
    obtain ⟨_, hfreshEsp, hfreshEip, helse, hfreshEbp, hstack⟩ := id hholds
    have hthere : there = start := hgoes.trans hfreshEip
    have hboth : Returns (switchAndResume link) turn.cpu there cpu := by
      rw [switchAndResume, Returns.bind_iff hr, if_neg (hthere ▸ helse)]
      exact pure_ok.mpr ⟨rfl, rfl⟩
    exact ⟨_, _, hw, step_of hboth, ⟨hthere, hesp.trans hfreshEsp, hebp.trans hfreshEbp, hstack⟩, hloaded _ _ rfl rfl,
      hinv' _ _ rfl⟩

/-- A turn keeps the invariant. -/
theorem Inv.step (hinv : Inv link s) (hcur4 : link.current % 4 = 0) (hne : link.tssEsp0 ≠ link.current)
    (hf : Fair link s turn) (hst : Entry.step link s turn = some (s', es)) : Inv link s' := by
  obtain ⟨w, s1, _, hst', _, _, hinv'⟩ := step_resumes hcur4 hne hinv hf
  rw [hst] at hst'
  cases hst'
  exact hinv'

end Turns

/-! ## Runs -/

/-- The kernel starts with one task. -/
structure Start (link : Link) (s : System) : Prop where
  page : Page link s.running
  alone : s.waiting = fun _ => none

theorem Start.inv {link : Link} {s : System} (h : Start link s) : Inv link s :=
  ⟨h.page, congrFun h.alone _, fun t w ht => by rw [h.alone] at ht; cases ht⟩

/-- Every run keeps the invariant. -/
theorem inv_run {link : Link} (hcur4 : link.current % 4 = 0) (hne : link.tssEsp0 ≠ link.current) {s₀ s : System}
    (h0 : Start link s₀) {xs : List (Runs.Step System Turn Nat)} (h : Run (step link) s₀ xs s)
    (hC : ∀ x ∈ xs, Fair link x.before x.act) : Inv link s :=
  h.inv (Inv link) h0.inv (fun _ _ _ _ hi hc hst => hi.step hcur4 hne hc hst) hC

/-- **Tasks go on as they left.** In every run in which the code between two turns leaves the words of the waiting tasks
alone, the next `switch_task` goes through: the next task is where it called `switch_task` from, with the registers that
a function keeps and its stack, or at its start; its directory is in `cr3`, its stack in the task state segment. -/
theorem switch_task_resumes {link : Link} (hcur4 : link.current % 4 = 0) (hne : link.tssEsp0 ≠ link.current) {s₀ s : System}
    (h0 : Start link s₀) {xs : List (Runs.Step System Turn Nat)} (h : Run (step link) s₀ xs s)
    (hC : ∀ x ∈ xs, Fair link x.before x.act) {turn : Turn} (hf : Fair link s turn) :
    ∃ w s', turn.callers s.running turn.next = some w ∧ step link s turn = some (s', [turn.next]) ∧
      GoesOn turn.next s' w ∧ Loaded link turn.cpu.mem turn.next s' := by
  obtain ⟨w, s', hw, hst, hgoes, hloaded, _⟩ := step_resumes hcur4 hne (inv_run hcur4 hne h0 h hC) hf
  exact ⟨w, s', hw, hst, hgoes, hloaded⟩

/-! ## A parent and its child -/

/-- The variables lie in the first page. -/
def smallLink : Link where
  current := 0
  tssEsp0 := 4
  resumed := 1
  behindTss := 2
  behindFrame := 3
  depth := 64
  junk _ := ⟨7, 7, 7, fun _ => 7⟩
  pageFrame d := d + 1

def parent : System where
  cpu := ⟨0, 1, 0, 0, 2, 3, 8200, 8096, 0, true, fun _ => 0⟩
  eip := 0
  running := 4096
  waiting _ := none

/-- The words that the parent has written when it switches to its child. -/
def forkedWords (a : Nat) : Nat :=
  if a = 8096 then 5 else if a = 8100 then 4096 else if a = 8104 then 8192 else if a = 8192 then 12200
  else if a = 8196 then 6 else if a = 8200 then 12220 else 0

/-- The child starts at 6. -/
def forking (mem : Nat → Nat) : Turn where
  cpu := { parent.cpu with mem := mem }
  next := 8192
  waiting t := if t = 8192 then some (.born 6 { parent.cpu with esp := 12200, ebp := 12220, mem := mem }) else none

def forked : Turn where
  cpu := { parent.cpu with mem := forkedWords }
  next := 8192
  waiting t := if t = 8192 then some (.born 6 { parent.cpu with esp := 12200, ebp := 12220, mem := forkedWords }) else none

/-- The child switches back, with other registers. -/
def switchBack (s : System) : Turn where
  cpu := { s.cpu with
    ebx := 8, esi := 8, edi := 8, ebp := 8, esp := 12192, mem := put (put s.cpu.mem 12196 8192) 12200 4096 }
  next := 4096
  waiting := s.waiting

theorem smallLink_page {t : Nat} (h : t = 4096 ∨ t = 8192) : Page smallLink t := by
  refine ⟨by omega, by omega, Or.inl ?_, Or.inl ?_⟩
  · show 0 < t
    omega
  · show 4 < t
    omega

theorem forking_fair {mem : Nat → Nat} (hprev : mem 8100 = 4096) (hnext : mem 8104 = 8192) (hesp : mem 8192 = 12200)
    (heip : mem 8196 = 6) (hebp : mem 8200 = 12220) : Fair smallLink parent (forking mem) where
  called := ⟨hprev, hnext, smallLink_page (Or.inl rfl), smallLink_page (Or.inr rfl), show 8096 % 4 = 0 from rfl,
    show 4096 + 80 + 64 ≤ 8096 by decide, show 8096 + 12 ≤ 4096 + 4096 by decide⟩
  waits t w hw := by
    by_cases ht : t = 8192
    · subst ht
      cases hw
      refine ⟨by decide, Or.inr ⟨smallLink_page (Or.inr rfl), _, _, rfl, ?_⟩⟩
      have hstack : StackOk (forking mem).cpu.mem 8192 := by
        unfold StackOk
        rw [show (forking mem).cpu.mem 8192 = 12200 from hesp]
        decide
      exact ⟨hstack, hesp, heip, by decide, hebp, fun _ _ _ => rfl⟩
    · cases hw.symm.trans (if_neg ht)
  ready := Or.inr rfl

theorem forked_fair : Fair smallLink parent forked := forking_fair rfl rfl rfl rfl rfl

theorem switchBack_fair {s : System} (hinv : Inv smallLink s) (hrun : s.running = 8192)
    (hparent : (s.waiting 4096).isSome) : Fair smallLink s (switchBack s) := by
  refine ⟨⟨?_, ?_, ?_, smallLink_page (Or.inl rfl), Nat.mod_eq_zero_of_dvd ⟨3048, rfl⟩, ?_, ?_⟩,
    fun t w ht => ?_, Or.inr ?_⟩
  · rw [hrun]
    show put (put s.cpu.mem 12196 8192) 12200 4096 12196 = 8192
    rw [put_of_ne _ (by decide), put_self]
  · show put (put s.cpu.mem 12196 8192) 12200 4096 12200 = 4096
    rw [put_self]
  · rw [hrun]
    exact smallLink_page (Or.inr rfl)
  · rw [hrun]
    exact Nat.le_of_ble_eq_true rfl
  · rw [hrun]
    exact Nat.le_of_ble_eq_true rfl
  · have hne : t ≠ s.running := fun e => by
      rw [e] at ht
      cases hinv.idle.symm.trans ht
    obtain ⟨hpage, hholds⟩ := hinv.holds t w ht
    refine ⟨hne, Or.inl ⟨ht, fun a ha => ?_⟩⟩
    obtain ⟨hge, hlt⟩ := ha.in_page hholds.stackOk
    have h4 := hpage.aligned
    exact (put_of_ne _ (by omega)).trans (put_of_ne _ (by omega))
  · exact hparent

theorem switch_task_resumes_parent : ∃ s s', step smallLink parent forked = some (s, [8192]) ∧ s.eip = 6 ∧
    step smallLink s (switchBack s) = some (s', [4096]) ∧ s'.eip = 5 ∧ s'.cpu.esp = 8100 ∧
    (s'.cpu.ebx, s'.cpu.esi, s'.cpu.edi, s'.cpu.ebp) = (1, 2, 3, 8200) := by
  have hstart : Start smallLink parent := ⟨smallLink_page (Or.inl rfl), rfl⟩
  obtain ⟨w, s, hw, hst, hgoes, _, hinv⟩ := step_resumes (by decide) (by decide) hstart.inv forked_fair
  obtain rfl := Option.some.inj (hw.symm.trans (show _ = some (Waiting.born 6 _) from rfl))
  have hrun := Run.snoc Run.refl hst
  have hparent : s.waiting 4096 = some (.called forked.cpu) := (step_waiting hst).2 4096
  obtain ⟨w', s', hw', hst', hgoes', _⟩ := switch_task_resumes (by decide) (by decide) hstart hrun
    (fun x hx => by
      rw [List.mem_singleton.mp hx]
      exact forked_fair) (switchBack_fair hinv (step_waiting hst).1 (by rw [hparent]; rfl))
  have hcallers : (switchBack s).callers s.running (switchBack s).next = some (.called forked.cpu) := by
    rw [Turn.callers, (step_waiting hst).1]
    exact hparent
  obtain rfl := Option.some.inj (hw'.symm.trans hcallers)
  obtain ⟨heip, hesp, hebx, hesi, hedi, hebp, _⟩ := hgoes'
  exact ⟨s, s', hst, hgoes.1, hst', heip, hesp, by rw [hebx, hesi, hedi, hebp]; rfl⟩

end Raampjes.Entry
