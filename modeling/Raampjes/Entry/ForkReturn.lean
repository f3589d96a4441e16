import Raampjes.Entry.Preemption

/-!
# Fork returns twice

`do_fork` copies the page of its task, stack and all, and hands the processor to the copy in the middle of the call. Both
tasks end the same system call, each on its own page, and tell themselves apart by `current`.

- `wordsAt_moved`: words that were copied elsewhere; `Forking`: the two pages when `wake_up_new` switches;
- `EndsFork`: the rest of `do_fork`; `EndsFork.leaves_call`: the system call ends behind it;
- **`fork_returns_twice`**: the child gets 0 at once, the parent the pid of the child when it is switched to again.
-/

namespace Raampjes.Entry

open Progs Flat Runs

/-- What `do_fork` returns, with the page of the new task: the words are `pid`. -/
def forkResult (link : Link) (newTask : Nat) (mem : Nat → Nat) : Nat :=
  if mem (mem link.current + 20) = mem (newTask + 20) then 0 else mem (newTask + 20)

/-- What `syscall_handler` has on the stack of a task that serves a call of user code: it ends the page. -/
def callFrame (u : Cpu) (ctx : Context) : List Nat := callArguments u ++ ctx.words u.esp

/-- The pages of the parent `p` and the child `q` when the parent switches with the machine `c`; the child waits with the
machine `cc`. `copied` is the memory that `do_fork` copied the page from. -/
structure Forking (p q : Nat) (u : Cpu) (ctx : Context) (copied : Nat → Nat) (c cc : Cpu) : Prop where
  user : ctx.user = true
  flag : u.interruptible = interruptFlag ctx.eflags
  args : WordsAt copied (p + 4052) (callFrame u ctx)
  parent : ∀ a, p + 4052 ≤ a → a < p + 4096 → c.mem a = copied a
  child : ∀ o, 4052 ≤ o → o < 4096 → cc.mem (q + o) = copied (p + o)
  below : c.esp ≤ p + 4052
  child_below : cc.esp ≤ q + 4052

/-- The rest of `do_fork` on the stack of task `t`, from the machine `m` on: it compares the pids, goes back to
`syscall_handler` and leaves the words of that alone. -/
def EndsFork (link : Link) (t newTask behind : Nat) (finish : OnCpu Nat) (m : Cpu) : Prop :=
  ∃ w, Returns finish m behind w ∧ w.esp = t + 4052 ∧ w.cr3 = m.cr3 ∧ w.eax = forkResult link newTask m.mem ∧
    ∀ a, t + 4052 ≤ a → a < t + 4096 → w.mem a = m.mem a

/-- The end of a function that serves a system call, and of the call. -/
def endCall (behind : Nat) (finish : OnCpu Nat) : OnCpu Context := do
  let address ← finish
  if address = behind then leaveSyscall else stop (.jumped address)

section Fork

variable {link : Link} {t p q behind start : Nat} {u c cc m : Cpu} {ctx : Context} {copied : Nat → Nat} {finish : OnCpu Nat}

/-- Words that were copied elsewhere. -/
theorem wordsAt_moved {mem mem' : Nat → Nat} {a b : Nat} {ws : List Nat} (h : WordsAt mem a ws)
    (hsame : ∀ i < 4 * ws.length, mem' (b + i) = mem (a + i)) : WordsAt mem' b ws := by
  induction ws generalizing a b with
  | nil => trivial
  | cons w ws ih =>
    rw [List.length_cons] at hsame
    refine ⟨(hsame 0 (by omega)).trans h.1, ih h.2 fun i hi => ?_⟩
    rw [Nat.add_assoc, Nat.add_assoc]
    exact hsame (4 + i) (by omega)

theorem length_callFrame (huser : ctx.user = true) : (callFrame u ctx).length = 11 := by
  rw [callFrame, List.length_append, length_words, huser]
  rfl

/-- A system call ends on any page that holds its words. -/
theorem EndsFork.leaves_call (h : EndsFork link t q behind finish m) (hpage : Page link t) (huser : ctx.user = true)
    (hflag : u.interruptible = interruptFlag ctx.eflags) (hwords : WordsAt m.mem (t + 4052) (callFrame u ctx)) :
    ∃ mem, Returns (endCall behind finish) m ctx
      { u with eax := forkResult link q m.mem, mem := mem, cr3 := m.cr3 } := by
  obtain ⟨w, hw, hesp, hcr3, heax, hkept⟩ := h
  have haligned := hpage.aligned
  have hfits := hpage.fits
  have hlen : (ctx.words u.esp).length = 5 := by rw [length_words, huser]; rfl
  have hframe : WordsAt w.mem w.esp (callArguments u ++ ctx.words u.esp) := by
    rw [hesp]
    refine hwords.congr fun a hge hlt => hkept a hge ?_
    rw [length_callFrame huser] at hlt
    omega
  have hleave := @leaveSyscall_returns u w ctx u.esp (by omega) (by omega) hframe
    fun hno => absurd (hno.symm.trans huser) (by decide)
  have hend : (if ctx.user then u.esp else w.esp + 36) = u.esp := if_pos huser
  rw [hend, ← hflag, hcr3, heax] at hleave
  refine ⟨w.mem, ?_⟩
  rw [endCall, Returns.bind_iff hw, if_pos rfl]
  exact hleave

/-- **Fork returns twice.** The switch to the new task goes through, and ends its system call with 0: the child goes on at
the instruction behind that of its parent, with every register, the flags and the stack of its parent, and with its own
page directory. When the parent is switched to again, after any turns that pass it over, it goes on there too, with the
pid of the child unless that has become its own. -/
theorem fork_returns_twice (hcur4 : link.current % 4 = 0) (hne : link.tssEsp0 ≠ link.current) {s₀ a : System}
    (h0 : Start link s₀) {xs : List (Runs.Step System Turn Nat)} {away : Turn} {finishParent finishChild : OnCpu Nat}
    (hbefore : Run (step link) s₀ xs a) (hfair : ∀ x ∈ xs, Fair link x.before x.act)
    (haway : Fair link a away) (hborn : away.waiting away.next = some (.born start cc))
    (hf : Forking a.running away.next u ctx copied away.cpu cc)
    (hchild : ∀ m : Cpu, m.esp = cc.esp → m.ebp = cc.ebp →
      (∀ x, cc.esp ≤ x → x < away.next + 4096 → m.mem x = cc.mem x) →
        EndsFork link away.next away.next behind finishChild m)
    (hparent : ∀ m : Cpu, m.esp = away.cpu.esp + 4 → m.ebx = away.cpu.ebx → m.esi = away.cpu.esi →
      m.edi = away.cpu.edi → m.ebp = away.cpu.ebp →
      (∀ x, away.cpu.esp ≤ x → x < a.running + 4096 → m.mem x = away.cpu.mem x) →
        EndsFork link a.running away.next behind finishParent m) :
    ∃ b mem, step link a away = some (b, [away.next]) ∧ b.eip = start ∧ Loaded link away.cpu.mem away.next b ∧
      Returns (endCall behind finishChild) b.cpu ctx { u with eax := 0, mem := mem, cr3 := b.cpu.cr3 } ∧
      ∀ ys s back, Run (step link) b ys s → (∀ y ∈ ys, Fair link y.before y.act) →
        (∀ y ∈ ys, Passes a.running y.before y.act) → Fair link s back → back.next = a.running →
        back.waiting a.running = s.waiting a.running →
        ∃ s', step link s back = some (s', [a.running]) ∧ Loaded link back.cpu.mem a.running s' ∧
          (s'.cpu.mem (a.running + 20) ≠ s'.cpu.mem (away.next + 20) → ∃ mem,
            Returns (endCall behind finishParent) s'.cpu ctx
              { u with eax := s'.cpu.mem (away.next + 20), mem := mem, cr3 := s'.cpu.cr3 }) := by
  have hinv := inv_run hcur4 hne h0 hbefore hfair
  obtain ⟨hother, hpage, _⟩ := haway.holds hinv hborn
  obtain ⟨w, b, hw, hst, hgoes, hloaded, hinvb⟩ := step_resumes hcur4 hne hinv haway
  obtain rfl := Option.some.inj (hw.symm.trans ((if_neg hother).trans hborn))
  obtain ⟨heip, hesp, hebp, hstack⟩ := hgoes
  have hlen : (callFrame u ctx).length = 11 := length_callFrame hf.user
  -- the child: its page has the words that were copied
  have hchildWords : WordsAt b.cpu.mem (away.next + 4052) (callFrame u ctx) := by
    refine wordsAt_moved hf.args fun i hi => ?_
    have hbelow := hf.child_below
    rw [Nat.add_assoc, Nat.add_assoc, hstack _ (by omega) (by omega)]
    exact hf.child (4052 + i) (by omega) (by omega)
  obtain ⟨mem, hreturns⟩ := (hchild b.cpu hesp hebp hstack).leaves_call hpage hf.user hf.flag hchildWords
  have hzero : forkResult link away.next b.cpu.mem = 0 := by rw [forkResult, hloaded.current, if_pos rfl]
  rw [hzero] at hreturns
  refine ⟨b, mem, hst, heip, hloaded, hreturns, fun ys s back hrun hfair' hpass hback hnext hkept => ?_⟩
  -- the parent: it waits as it called
  obtain ⟨hrunning, hwaiting⟩ := step_waiting hst
  have hcalled : b.waiting a.running = some (.called away.cpu) := by
    rw [hwaiting, if_neg hother.symm, Turn.callers, if_pos rfl]
  obtain ⟨s', hst', hgoes', hloaded'⟩ := goes_on_later hcur4 hne hinvb (hrunning ▸ hother) hcalled hrun hfair' hpass
    hback hnext hkept
  refine ⟨s', hst', hloaded', fun hpids => ?_⟩
  obtain ⟨_, hesp', hebx, hesi, hedi, hebp', hstack'⟩ := hgoes'
  have hparentWords : WordsAt s'.cpu.mem (a.running + 4052) (callFrame u ctx) := by
    refine hf.args.congr fun x hge hlt => ?_
    have hbelow := hf.below
    rw [hstack' x (by omega) (by omega), hf.parent x hge (by omega)]
  obtain ⟨mem', hreturns'⟩ := (hparent s'.cpu hesp' hebx hesi hedi hebp' hstack').leaves_call hinv.page hf.user hf.flag
    hparentWords
  have hpid : forkResult link away.next s'.cpu.mem = s'.cpu.mem (away.next + 20) := by
    rw [forkResult, hloaded'.current, if_neg hpids]
  rw [hpid] at hreturns'
  exact ⟨mem', hreturns'⟩

end Fork

/-! ## A small fork -/

/-- The pages at 4096 and 8192 end in the words of the same call; behind them stand the addresses to go back to. The tasks
have the pids 0 and 1. -/
def twoPages (a : Nat) : Nat :=
  if a = 8212 then 1
  else if 8144 ≤ a ∧ a < 8192 then (3 :: callFrame stopped program).getD ((a - 8144) / 4) 0
  else if 12240 ≤ a ∧ a < 12288 then (3 :: callFrame stopped program).getD ((a - 12240) / 4) 0
  else forkedWords a

theorem twoPages_forking : Forking 4096 8192 stopped program twoPages (forking twoPages).cpu
    { parent.cpu with esp := 12200, ebp := 12220, mem := twoPages } where
  user := rfl
  flag := rfl
  args := by
    have hlist : callFrame stopped program = [2, 3, 4, 5, 6, 7, 40, 0x23, 0x202, 100, 0x2B] := rfl
    rw [hlist]
    refine ⟨?_, ?_, ?_, ?_, ?_, ?_, ?_, ?_, ?_, ?_, ?_, trivial⟩ <;> rfl
  parent _ _ _ := rfl
  child o hge hlt := by
    show twoPages (8192 + o) = twoPages (4096 + o)
    rw [twoPages, twoPages, if_neg (by omega), if_neg (by omega), if_pos (by omega), if_neg (by omega), if_pos (by omega)]
    rw [show 8192 + o - 12240 = 4096 + o - 8144 by omega]
  below := show 8096 ≤ 4096 + 4052 by decide
  child_below := show 12200 ≤ 8192 + 4052 by decide

/-- The result, and so many bytes of stack. -/
def finishFork (n : Nat) : OnCpu Nat := do
  update fun s => { s with eax := forkResult smallLink 8192 s.mem }
  drop n
  ret

theorem finishFork_ends {t n : Nat} {m : Cpu} (h : m.esp % 4 = 0) (hn : n % 4 = 0) (hesp : m.esp + n + 4 = t + 4052)
    (hlt : t + 4096 < 2 ^ 32) (hback : m.mem (m.esp + n) = 3) : EndsFork smallLink t 8192 3 (finishFork n) m := by
  refine ⟨{ m with eax := forkResult smallLink 8192 m.mem, esp := m.esp + n + 4 }, ?_, hesp, rfl, rfl, fun _ _ _ => rfl⟩
  rw [finishFork, move_bind, drop_bind _ (by dsimp only; omega), ← hback]
  exact ret_returns (by dsimp only; omega) (by dsimp only; omega)

set_option maxRecDepth 4000 in
/-- The pids are still there when the parent goes on. -/
theorem twoPages_pids : ((step smallLink parent (forking twoPages)).bind fun r => step smallLink r.1 (switchBack r.1)).map
    (fun r => (r.1.cpu.mem 4116, r.1.cpu.mem 8212)) = some (0, 1) := by decide

theorem fork_returns_twice_parent : ∃ b mem s' mem', step smallLink parent (forking twoPages) = some (b, [8192]) ∧
    Returns (endCall 3 (finishFork 40)) b.cpu program { stopped with eax := 0, mem := mem, cr3 := b.cpu.cr3 } ∧
    step smallLink b (switchBack b) = some (s', [4096]) ∧
    Returns (endCall 3 (finishFork 44)) s'.cpu program { stopped with eax := 1, mem := mem', cr3 := s'.cpu.cr3 } := by
  have hstart : Start smallLink parent := ⟨smallLink_page (Or.inl rfl), rfl⟩
  have hfair : Fair smallLink parent (forking twoPages) := forking_fair rfl rfl rfl rfl rfl
  obtain ⟨b, mem, hst, _, _, hreturns, hlater⟩ := @fork_returns_twice smallLink 3 6 stopped
    { parent.cpu with esp := 12200, ebp := 12220, mem := twoPages } program twoPages (by decide) (by decide) parent parent
    hstart [] (forking twoPages) (finishFork 44) (finishFork 40) Run.refl (by simp) hfair rfl twoPages_forking
    (fun m hesp _ hstack => by
      have hesp' : m.esp = 12200 := hesp
      have hword : m.mem 12240 = 3 := hstack 12240 (by decide) (by decide)
      exact @finishFork_ends 8192 40 m (by omega) rfl (by omega) (by decide) (by rw [hesp']; exact hword))
    (fun m hesp _ _ _ _ hstack => by
      have hesp' : m.esp = 8100 := hesp
      have hword : m.mem 8144 = 3 := hstack 8144 (by decide) (by decide)
      exact @finishFork_ends 4096 44 m (by omega) rfl (by omega) (by decide) (by rw [hesp']; exact hword))
  obtain ⟨hrun, hwait⟩ := step_waiting hst
  have hparent : b.waiting 4096 = some (.called (forking twoPages).cpu) := hwait 4096
  have hinvb : Inv smallLink b := hstart.inv.step (by decide) (by decide) hfair hst
  obtain ⟨s', hst', _, hagain⟩ := hlater [] b (switchBack b) Run.refl (by simp) (by simp)
    (switchBack_fair hinvb hrun (by rw [hparent]; rfl)) rfl rfl
  have hpids := twoPages_pids
  rw [hst, Option.bind_some, hst', Option.map_some, Option.some_inj, Prod.mk.injEq] at hpids
  obtain ⟨hzero, hone⟩ := hpids
  have hne : s'.cpu.mem 4116 ≠ s'.cpu.mem 8212 := by
    rw [hzero, hone]
    decide
  obtain ⟨mem', hreturns'⟩ := hagain hne
  exact ⟨b, mem, s', mem', hst, hreturns, hst', hone ▸ hreturns'⟩

end Raampjes.Entry
