import Raampjes.Lib.Flat

/-!
# Switching tasks

`switch_task`, in assembly: it saves the registers of the running task on its stack, and where its stack is in its task
structure, and continues where the next task says.

- `saveRegisters_returns`, `enterNext_returns`, `swapStacks_returns`: its parts;
- `callWith_returns` of `Flat` gives the calls of the compiled functions `switch_tss` and `page_frame`;
- `switchTask_returns`: what it does to the machine.
-/

namespace Raampjes.Entry

open Progs Flat

/-- What the compiler and the linker decide. -/
structure Link where
  /-- Where `current` is. -/
  current : Nat
  /-- Where `main_tss.esp0` is. -/
  tssEsp0 : Nat
  /-- The label `.1` in `switch_task`. -/
  resumed : Nat
  behindTss : Nat
  behindFrame : Nat
  /-- How much stack the compiled functions use, and what they leave there. -/
  depth : Nat
  junk : Cpu → Junk
  /-- `page_frame`, of the page directories. -/
  pageFrame : Nat → Nat

section Code

variable (link : Link)

/-- `switch_tss`. -/
def switchTss : OnCpu Nat :=
  compiled link.junk link.depth 1 (fun s => put s.mem link.tssEsp0 (s.mem (s.mem (s.esp + 4) + 16))) fun s => (link.junk s).eax

def pageFrame : OnCpu Nat :=
  compiled link.junk link.depth 1 (fun s => s.mem) fun s => link.pageFrame (s.mem (s.esp + 4))

/-- The start of `switch_task`: the registers are saved, and the arguments loaded. -/
def saveRegisters : OnCpu Unit := do
  push Cpu.ebp
  update fun s => { s with ebp := s.esp }
  push Cpu.edi
  push Cpu.esi
  push Cpu.ebx
  loadTo (fun v s => { s with esi := v }) fun s => plus s.ebp 8
  loadTo (fun v s => { s with edi := v }) fun s => plus s.ebp 12

/-- From the store to `current` to that to `cr3`. -/
def enterNext : OnCpu Unit := do
  store (fun _ => link.current) Cpu.edi
  callWith link.behindTss Cpu.edi (switchTss link)
  let directory ← load fun s => plus s.edi 12
  callWith link.behindFrame (fun _ => directory) (pageFrame link)
  update fun s => { s with cr3 := s.eax }

/-- The rest, up to the label `.1`. -/
def swapStacks : OnCpu Nat := do
  store Cpu.esi Cpu.esp
  loadTo (fun v s => { s with esp := v }) Cpu.edi
  store (fun s => plus s.esi 8) Cpu.ebp
  loadTo (fun v s => { s with ebp := v }) fun s => plus s.edi 8
  store (fun s => plus s.esi 4) fun _ => link.resumed
  let eip ← load fun s => plus s.edi 4
  push fun _ => eip
  ret

def switchTask : OnCpu Nat := do
  saveRegisters
  enterNext link
  swapStacks link

/-- From the label `.1` on. -/
def resume : OnCpu Nat := do
  pop fun v s => { s with ebx := v }
  pop fun v s => { s with esi := v }
  pop fun v s => { s with edi := v }
  leave
  ret

end Code

/-! ## What it does -/

/-- A task page: the task structure at its start, the stack at its end; the variables of the kernel lie elsewhere. -/
structure Page (link : Link) (t : Nat) : Prop where
  aligned : t % 4096 = 0
  fits : t + 4096 < 2 ^ 32
  current : link.current < t ∨ t + 4096 ≤ link.current
  tss : link.tssEsp0 < t ∨ t + 4096 ≤ link.tssEsp0

/-- `switch_task(p, q)` is called on the stack of `p`, which has room for it. -/
structure Called (link : Link) (s : Cpu) (p q : Nat) : Prop where
  prev : s.mem (s.esp + 4) = p
  next : s.mem (s.esp + 8) = q
  prev_page : Page link p
  next_page : Page link q
  aligned : s.esp % 4 = 0
  low : p + 80 + link.depth ≤ s.esp
  high : s.esp + 12 ≤ p + 4096

/-- Where the stack of a task is. -/
def StackOk (mem : Nat → Nat) (t : Nat) : Prop := mem t % 4 = 0 ∧ t + 60 ≤ mem t ∧ mem t ≤ t + 4096

/-- What `switch_task` leaves. -/
structure Switched (link : Link) (s : Cpu) (p q there : Nat) (s' : Cpu) : Prop where
  goes : there = if q = p then link.resumed else s.mem (q + 4)
  ebx : s'.ebx = s.ebx
  esp : s'.esp = if q = p then s.esp - 16 else s.mem q
  ebp : s'.ebp = if q = p then s.esp - 4 else s.mem (q + 8)
  cr3 : s'.cr3 = link.pageFrame (s.mem (q + 12))
  current : s'.mem link.current = q
  tss : s'.mem link.tssEsp0 = s.mem (q + 16)
  saved : s'.mem p = s.esp - 16 ∧ s'.mem (p + 4) = link.resumed ∧ s'.mem (p + 8) = s.esp - 4
  frame : s'.mem (s.esp - 16) = s.ebx ∧ s'.mem (s.esp - 12) = s.esi ∧ s'.mem (s.esp - 8) = s.edi ∧
    s'.mem (s.esp - 4) = s.ebp
  kept : ∀ a, a ≠ link.current → a ≠ link.tssEsp0 → a ≠ p → a ≠ p + 4 → a ≠ p + 8 →
    (a < s.esp - 24 - link.depth ∨ s.esp ≤ a) → (q ≠ p → a ≠ s.mem q - 4) → s'.mem a = s.mem a

section Switch

variable {link : Link} {s : Cpu} {p q : Nat}

/-- The four words on the stack. -/
def pushedRegisters (s : Cpu) : Nat → Nat :=
  put (put (put (put s.mem (s.esp - 4) s.ebp) (s.esp - 8) s.edi) (s.esp - 12) s.esi) (s.esp - 16) s.ebx

theorem pushedRegisters_saved (h : 16 ≤ s.esp) : pushedRegisters s (s.esp - 16) = s.ebx ∧
    pushedRegisters s (s.esp - 12) = s.esi ∧ pushedRegisters s (s.esp - 8) = s.edi ∧ pushedRegisters s (s.esp - 4) = s.ebp := by
  refine ⟨put_self .., ?_, ?_, ?_⟩
  · rw [pushedRegisters, put_of_ne _ (by omega), put_self]
  · rw [pushedRegisters, put_of_ne _ (by omega), put_of_ne _ (by omega), put_self]
  · rw [pushedRegisters, put_of_ne _ (by omega), put_of_ne _ (by omega), put_of_ne _ (by omega), put_self]

theorem pushedRegisters_other {a : Nat} (h : 16 ≤ s.esp) (ha : a < s.esp - 16 ∨ s.esp ≤ a) :
    pushedRegisters s a = s.mem a := by
  rw [pushedRegisters, put_of_ne _ (by omega), put_of_ne _ (by omega), put_of_ne _ (by omega), put_of_ne _ (by omega)]

theorem saveRegisters_returns (h4 : s.esp % 4 = 0) (hge : 16 ≤ s.esp) (hlt : s.esp + 12 < 2 ^ 32) :
    Returns saveRegisters s () { s with
      esp := s.esp - 16, ebp := s.esp - 4, esi := s.mem (s.esp + 4), edi := s.mem (s.esp + 8), mem := pushedRegisters s } := by
  have hprev : plus (s.esp - 4) 8 = s.esp + 4 := by rw [plus_eq (by omega)]; omega
  have hnext : plus (s.esp - 4) 12 = s.esp + 8 := by rw [plus_eq (by omega)]; omega
  have hword : ∀ a, s.esp ≤ a → pushedRegisters s a = s.mem a := fun a ha => pushedRegisters_other hge (Or.inr ha)
  rw [saveRegisters]
  refine (push_bind _ _ h4 (by omega) (by omega)).mpr ?_
  refine (move_bind _ _).mpr ?_
  refine (push_bind _ _ (by dsimp only; omega) (by dsimp only; omega) (by dsimp only; omega)).mpr ?_
  refine (push_bind _ _ (by dsimp only; omega) (by dsimp only; omega) (by dsimp only; omega)).mpr ?_
  refine (push_bind _ _ (by dsimp only; omega) (by dsimp only; omega) (by dsimp only; omega)).mpr ?_
  refine (loadTo_bind _ _ (by dsimp only; rw [hprev]; omega)).mpr ?_
  refine (loadTo_ok _ (by dsimp only; rw [hnext]; omega)).mpr ?_
  simp only [Nat.sub_sub, Nat.reduceAdd]
  rw [hprev, hnext, ← pushedRegisters, hword _ (by omega), hword _ (by omega)]

/-- The address lies outside the stack that a compiled function with one argument uses. -/
def OffStack (link : Link) (s : Cpu) (a : Nat) : Prop := a < s.esp - 8 - link.depth ∨ s.esp ≤ a

/-- The effect of `switch_tss` on memory. -/
def tssSet (link : Link) (s : Cpu) (a : Nat) : Nat := put s.mem link.tssEsp0 (s.mem (s.edi + 16)) a

theorem callSwitchTss_returns (h4 : s.esp % 4 = 0) (hge : 8 + link.depth ≤ s.esp) (hlt : s.esp < 2 ^ 32)
    (htss : OffStack link s link.tssEsp0) (hq : OffStack link s (s.edi + 16)) :
    ∃ t, Returns (callWith link.behindTss Cpu.edi (switchTss link)) s () t ∧ (∃ r, Passed link.depth r (tssSet link s) s t) := by
  have harg : (passing link.behindTss Cpu.edi s).mem ((passing link.behindTss Cpu.edi s).esp + 4) = s.edi := by
    show put (put s.mem (s.esp - 4) s.edi) (s.esp - 8) link.behindTss (s.esp - 8 + 4) = s.edi
    rw [put_of_ne _ (by omega), show s.esp - 8 + 4 = s.esp - 4 by omega, put_self]
  have hword : ∀ a, OffStack link s a → (passing link.behindTss Cpu.edi s).mem a = s.mem a := by
    intro a ha
    show put (put s.mem (s.esp - 4) s.edi) (s.esp - 8) link.behindTss a = s.mem a
    rw [OffStack] at ha
    rw [put_of_ne _ (by omega), put_of_ne _ (by omega)]
  obtain ⟨t, hr, ht⟩ := @callWith_returns s link.junk link.depth link.behindTss Cpu.edi
    (fun s => put s.mem link.tssEsp0 (s.mem (s.mem (s.esp + 4) + 16))) (fun s => (link.junk s).eax) h4 (by omega) hlt <| by
      rw [OffStack] at htss
      rw [put_of_ne _ (by omega)]
      exact put_self ..
  refine ⟨t, hr, _, ht.eax, ht.ebx, ht.esi, ht.edi, ht.ebp, ht.esp, ht.cr3, fun a ha => ?_⟩
  rw [ht.mem a ha, harg, hword _ hq, tssSet, put, put, hword a ha]

theorem callPageFrame_returns {directory : Nat} (h4 : s.esp % 4 = 0) (hge : 8 + link.depth ≤ s.esp) (hlt : s.esp < 2 ^ 32) :
    ∃ t, Returns (callWith link.behindFrame (fun _ => directory) (pageFrame link)) s () t ∧
      Passed link.depth (link.pageFrame directory) s.mem s t := by
  have harg : (passing link.behindFrame (fun _ => directory) s).mem
      ((passing link.behindFrame (fun _ => directory) s).esp + 4) = directory := by
    show put (put s.mem (s.esp - 4) directory) (s.esp - 8) link.behindFrame (s.esp - 8 + 4) = directory
    rw [put_of_ne _ (by omega), show s.esp - 8 + 4 = s.esp - 4 by omega, put_self]
  obtain ⟨t, hr, ht⟩ := @callWith_returns s link.junk link.depth link.behindFrame (fun _ => directory) (fun s => s.mem)
    (fun s => link.pageFrame (s.mem (s.esp + 4))) h4 (by omega) hlt (put_self ..)
  refine ⟨t, hr, by rw [ht.eax, harg], ht.ebx, ht.esi, ht.edi, ht.ebp, ht.esp, ht.cr3, fun a ha => ?_⟩
  rw [ht.mem a ha]
  show put (put s.mem (s.esp - 4) directory) (s.esp - 8) link.behindFrame a = s.mem a
  rw [put_of_ne _ (by omega), put_of_ne _ (by omega)]

/-- What is there before the stacks are swapped. -/
structure Entered (link : Link) (s s' : Cpu) : Prop where
  ebx : s'.ebx = s.ebx
  esi : s'.esi = s.esi
  edi : s'.edi = s.edi
  ebp : s'.ebp = s.ebp
  esp : s'.esp = s.esp
  cr3 : s'.cr3 = link.pageFrame (s.mem (s.edi + 12))
  current : s'.mem link.current = s.edi
  tss : s'.mem link.tssEsp0 = s.mem (s.edi + 16)
  kept : ∀ a, a ≠ link.current → a ≠ link.tssEsp0 → OffStack link s a → s'.mem a = s.mem a

/-- A word of the next task that the two functions leave alone. -/
structure Clear (link : Link) (s : Cpu) (a : Nat) : Prop where
  current : a ≠ link.current
  tss : a ≠ link.tssEsp0
  stack : OffStack link s a

theorem enterNext_returns (h4 : s.esp % 4 = 0) (hge : 8 + link.depth ≤ s.esp) (hlt : s.esp < 2 ^ 32)
    (hcur4 : link.current % 4 = 0) (hne : link.tssEsp0 ≠ link.current) (hcur : OffStack link s link.current)
    (htss : OffStack link s link.tssEsp0) (hq4 : s.edi % 4 = 0) (hqlt : s.edi + 12 < 2 ^ 32)
    (hdir : Clear link s (s.edi + 12)) (hesp0 : Clear link s (s.edi + 16)) :
    ∃ s', Returns (enterNext link) s () s' ∧ Entered link s s' := by
  set s1 : Cpu := { s with mem := put s.mem link.current s.edi }
  obtain ⟨s2, hr2, _, h2⟩ := @callSwitchTss_returns link s1 h4 hge hlt htss hesp0.stack
  have hesp2 : s2.esp = s.esp := h2.esp
  have hedi2 : s2.edi = s.edi := h2.edi
  have hmem2 : ∀ a, OffStack link s a → s2.mem a = tssSet link s1 a := h2.mem
  obtain ⟨s3, hr3, h3⟩ := @callPageFrame_returns link s2 (s2.mem (s2.edi + 12)) (by omega) (by omega) (by omega)
  have hmem3 : ∀ a, OffStack link s a → s3.mem a = tssSet link s1 a := fun a ha => by
    rw [h3.mem a (hesp2.symm ▸ ha), hmem2 a ha]
  have hword : ∀ a, a ≠ link.current → s1.mem a = s.mem a := fun a ha => put_of_ne _ ha
  have hkept : ∀ a, Clear link s a → tssSet link s1 a = s.mem a := fun a ha => by
    rw [tssSet, put_of_ne _ ha.tss, hword _ ha.current]
  refine ⟨{ s3 with cr3 := s3.eax }, ?_, h3.ebx.trans h2.ebx, h3.esi.trans h2.esi, h3.edi.trans h2.edi,
    h3.ebp.trans h2.ebp, h3.esp.trans h2.esp, ?_, ?_, ?_, fun a h1 h2 h3 => ?_⟩
  · rw [enterNext]
    refine (store_bind _ hcur4).mpr ?_
    rw [Returns.bind_iff hr2, load_bind _ (by rw [hedi2, plus_eq hqlt]; omega), plus_eq (by omega), Returns.bind_iff hr3,
      update_ok]
  · show s3.eax = _
    rw [h3.eax, hedi2, hmem2 _ hdir.stack, hkept _ hdir]
  · show s3.mem link.current = _
    rw [hmem3 _ hcur, tssSet, put_of_ne _ hne.symm]
    exact put_self ..
  · show s3.mem link.tssEsp0 = _
    rw [hmem3 _ htss, tssSet, put_self]
    exact hword _ hesp0.current
  · exact (hmem3 a h3).trans (hkept a ⟨h1, h2, h3⟩)

/-- What swapping the stacks leaves. -/
structure Swapped (link : Link) (s : Cpu) (there : Nat) (s' : Cpu) : Prop where
  goes : there = if s.edi = s.esi then link.resumed else s.mem (s.edi + 4)
  ebx : s'.ebx = s.ebx
  cr3 : s'.cr3 = s.cr3
  esp : s'.esp = if s.edi = s.esi then s.esp else s.mem s.edi
  ebp : s'.ebp = if s.edi = s.esi then s.ebp else s.mem (s.edi + 8)
  saved : s'.mem s.esi = s.esp ∧ s'.mem (s.esi + 4) = link.resumed ∧ s'.mem (s.esi + 8) = s.ebp
  kept : ∀ a, a ≠ s.esi → a ≠ s.esi + 4 → a ≠ s.esi + 8 → a ≠ s'.esp - 4 → s'.mem a = s.mem a

/-- Three words from `p` on. -/
def threeWords (mem : Nat → Nat) (p esp eip ebp : Nat) : Nat → Nat := put (put (put mem p esp) (p + 8) ebp) (p + 4) eip

theorem threeWords_saved (mem : Nat → Nat) (p esp eip ebp : Nat) : threeWords mem p esp eip ebp p = esp ∧
    threeWords mem p esp eip ebp (p + 4) = eip ∧ threeWords mem p esp eip ebp (p + 8) = ebp := by
  refine ⟨?_, put_self .., ?_⟩
  · rw [threeWords, put_of_ne _ (by omega), put_of_ne _ (by omega), put_self]
  · rw [threeWords, put_of_ne _ (by omega), put_self]

theorem threeWords_other {mem : Nat → Nat} {p esp eip ebp a : Nat} (h : a ≠ p ∧ a ≠ p + 4 ∧ a ≠ p + 8) :
    threeWords mem p esp eip ebp a = mem a := by
  rw [threeWords, put_of_ne _ h.2.1, put_of_ne _ h.2.2, put_of_ne _ h.1]

theorem swapStacks_returns (hp4 : s.esi % 4 = 0) (hplt : s.esi + 8 < 2 ^ 32) (hq4 : s.edi % 4 = 0)
    (hqlt : s.edi + 8 < 2 ^ 32) (hapart : s.edi = s.esi ∨ s.edi + 12 ≤ s.esi ∨ s.esi + 12 ≤ s.edi) {esp : Nat}
    (hesp : esp = if s.edi = s.esi then s.esp else s.mem s.edi) (h4 : esp % 4 = 0) (hlt : esp + 4 < 2 ^ 32)
    (hoff : esp < s.esi + 4 ∧ 4 ≤ esp ∨ s.esi + 16 ≤ esp) :
    ∃ there s', Returns (swapStacks link) s there s' ∧ Swapped link s there s' := by
  set M := threeWords s.mem s.esi s.esp link.resumed s.ebp with hM
  obtain ⟨hM0, hM4, hM8⟩ := threeWords_saved s.mem s.esi s.esp link.resumed s.ebp
  rw [← hM] at hM0 hM4 hM8
  have hMo : ∀ {a}, a ≠ s.esi ∧ a ≠ s.esi + 4 ∧ a ≠ s.esi + 8 → M a = s.mem a := threeWords_other
  -- each word of the next task is loaded after it may have been stored
  have hloadEsp : put s.mem s.esi s.esp s.edi = esp := by
    rw [put, hesp]
  have hloadEbp : put (put s.mem s.esi s.esp) (s.esi + 8) s.ebp (s.edi + 8) =
      if s.edi = s.esi then s.ebp else s.mem (s.edi + 8) := by
    rcases hapart with h | h
    · rw [h, put_self, if_pos rfl]
    · rw [put_of_ne _ (by omega), put_of_ne _ (by omega), if_neg (by omega)]
  have hloadEip : M (s.edi + 4) = if s.edi = s.esi then link.resumed else s.mem (s.edi + 4) := by
    rcases hapart with h | h
    · rw [h, hM4, if_pos rfl]
    · rw [hMo (by omega), if_neg (by omega)]
  refine ⟨M (s.edi + 4), { s with
    esp := esp, ebp := if s.edi = s.esi then s.ebp else s.mem (s.edi + 8), mem := put M (esp - 4) (M (s.edi + 4)) }, ?_,
    hloadEip, rfl, rfl, hesp, rfl, ⟨?_, ?_, ?_⟩, fun a h0 h4 h8 ha => ?_⟩
  · have hp8 := plus_eq hplt
    have hq8 := plus_eq hqlt
    have hp4' : plus s.esi 4 = s.esi + 4 := plus_eq (by omega)
    have hq4' : plus s.edi 4 = s.edi + 4 := plus_eq (by omega)
    rw [swapStacks]
    refine (store_bind _ hp4).mpr ((loadTo_bind _ _ (by dsimp only; omega)).mpr ?_)
    refine (store_bind _ (by dsimp only; omega)).mpr ((loadTo_bind _ _ (by dsimp only; omega)).mpr ?_)
    refine (store_bind _ (by dsimp only; omega)).mpr ((load_bind _ (by dsimp only; omega)).mpr ?_)
    dsimp only
    rw [hp8, hq8, hp4', hq4', hloadEsp, hloadEbp, ← threeWords, ← hM]
    refine (push_bind _ _ h4 (by dsimp only; omega) (by dsimp only; omega)).mpr ?_
    have hret := @ret_returns { s with
      esp := esp - 4, ebp := if s.edi = s.esi then s.ebp else s.mem (s.edi + 8)
      mem := put M (esp - 4) (M (s.edi + 4)) } (by dsimp only; omega) (by dsimp only; omega)
    dsimp only at hret
    rwa [put_self, Nat.sub_add_cancel (by omega)] at hret
  · exact (put_of_ne _ (by omega)).trans hM0
  · exact (put_of_ne _ (by omega)).trans hM4
  · exact (put_of_ne _ (by omega)).trans hM8
  · exact (put_of_ne _ ha).trans (hMo ⟨h0, h4, h8⟩)

/-- Pages are the same or apart. -/
theorem Page.apart (hp : Page link p) (hq : Page link q) : q = p ∨ q + 4096 ≤ p ∨ p + 4096 ≤ q := by
  have := hp.aligned
  have := hq.aligned
  omega

/-- The machine with the registers saved and the arguments loaded. -/
def savedFor (s : Cpu) (p q : Nat) : Cpu :=
  { s with esp := s.esp - 16, ebp := s.esp - 4, esi := p, edi := q, mem := pushedRegisters s }

section Called

variable {a i there : Nat} {s2 s3 : Cpu} (hc : Called link s p q)

theorem offStack_saved : OffStack link (savedFor s p q) a ↔ a < s.esp - 16 - 8 - link.depth ∨ s.esp - 16 ≤ a := Iff.rfl

include hc

theorem Called.saves : Returns saveRegisters s () (savedFor s p q) := by
  have hlow := hc.low
  have hhigh := hc.high
  have hfits := hc.prev_page.fits
  have hsave := saveRegisters_returns hc.aligned (by omega) (by omega)
  rwa [hc.prev, hc.next] at hsave

/-- The words of the next task are neither on this stack nor the two variables. -/
theorem Called.clear (hi : i < 20) : Clear link (savedFor s p q) (q + i) := by
  have hapart := hc.prev_page.apart hc.next_page
  have hlow := hc.low
  have hhigh := hc.high
  have hcur := hc.next_page.current
  have htss := hc.next_page.tss
  exact ⟨by omega, by omega, offStack_saved.mpr (by omega)⟩

theorem Called.word (hi : i < 20) : pushedRegisters s (q + i) = s.mem (q + i) := by
  have hapart := hc.prev_page.apart hc.next_page
  have hlow := hc.low
  have hhigh := hc.high
  exact pushedRegisters_other (by omega) (by omega)

theorem Called.enters (hcur4 : link.current % 4 = 0) (hne : link.tssEsp0 ≠ link.current) :
    ∃ s2, Returns (enterNext link) (savedFor s p q) () s2 ∧ Entered link (savedFor s p q) s2 := by
  have hlow := hc.low
  have hhigh := hc.high
  have hfits := hc.prev_page.fits
  have haligned := hc.aligned
  have hq4 := hc.next_page.aligned
  have hqfits := hc.next_page.fits
  have hcur := hc.prev_page.current
  have htss := hc.prev_page.tss
  have hesp : (savedFor s p q).esp = s.esp - 16 := rfl
  have hedi : (savedFor s p q).edi = q := rfl
  exact enterNext_returns (by omega) (by omega) (by omega) hcur4 hne (offStack_saved.mpr (by omega))
    (offStack_saved.mpr (by omega)) (by omega) (by omega) (hc.clear (by omega)) (hc.clear (by omega))

variable (h2 : Entered link (savedFor s p q) s2)

include h2

theorem Called.entered (hi : i < 20) : s2.mem (q + i) = s.mem (q + i) := by
  obtain ⟨hcur, htss, hstack⟩ := hc.clear hi
  exact (h2.kept _ hcur htss hstack).trans (hc.word hi)

omit hc in
theorem Entered.registers : s2.esi = p ∧ s2.edi = q ∧ s2.esp = s.esp - 16 ∧ s2.ebp = s.esp - 4 ∧ s2.ebx = s.ebx :=
  ⟨h2.esi, h2.edi, h2.esp, h2.ebp, h2.ebx⟩

/-- The stack that is gone to. -/
theorem Called.stack (hq : q = p ∨ StackOk s.mem q) :
    ∃ esp, esp = (if s2.edi = s2.esi then s2.esp else s2.mem s2.edi) ∧ esp = (if q = p then s.esp - 16 else s.mem q) ∧
      esp % 4 = 0 ∧ q + 60 ≤ esp ∧ esp ≤ q + 4096 := by
  obtain ⟨hesi, hedi, hesp, _⟩ := h2.registers
  have hword : s2.mem q = s.mem q := hc.entered h2 (i := 0) (by omega)
  have hlow := hc.low
  have hhigh := hc.high
  have haligned := hc.aligned
  refine ⟨_, rfl, ?_⟩
  rw [hedi, hesi, hesp, hword]
  by_cases hqp : q = p
  · rw [if_pos hqp]
    exact ⟨rfl, by omega, by omega, by omega⟩
  · rw [if_neg hqp]
    exact ⟨rfl, hq.resolve_left hqp⟩

variable (hq : q = p ∨ StackOk s.mem q) (h3 : Swapped link s2 there s3)

include hq h3

/-- Apart from three words of its task structure, swapping the stacks changes the word below the stack that is gone to. -/
theorem Called.swapped : ∃ esp, s3.esp = esp ∧ esp = (if q = p then s.esp - 16 else s.mem q) ∧ q + 60 ≤ esp ∧
    esp ≤ q + 4096 ∧ ∀ b, b ≠ p → b ≠ p + 4 → b ≠ p + 8 → b ≠ esp - 4 → s3.mem b = s2.mem b := by
  obtain ⟨hesi, _⟩ := h2.registers
  obtain ⟨esp, hesp, hesp', _, hge, hle⟩ := hc.stack h2 hq
  have hesp3 : s3.esp = esp := h3.esp.trans hesp.symm
  refine ⟨esp, hesp3, hesp', hge, hle, fun b h0 h4 h8 hne => ?_⟩
  exact h3.kept b (by rwa [hesi]) (by rwa [hesi]) (by rwa [hesi]) (by rwa [hesp3])

/-- The words that swapping the stacks leaves alone, besides those of its own task structure. -/
theorem Called.below : ∀ b, b ≠ p → b ≠ p + 4 → b ≠ p + 8 → (q = p → b ≠ s.esp - 20) → (q ≠ p → b ≠ s.mem q - 4) →
    s3.mem b = s2.mem b := by
  obtain ⟨esp, _, hesp, _, _, hkept⟩ := hc.swapped h2 hq h3
  intro b h0 h4 h8 hp hn
  refine hkept b h0 h4 h8 ?_
  rw [hesp]
  by_cases hqp : q = p
  · rw [if_pos hqp, Nat.sub_sub]
    exact hp hqp
  · rw [if_neg hqp]
    exact hn hqp

theorem Called.variables : s3.mem link.current = q ∧ s3.mem link.tssEsp0 = s.mem (q + 16) := by
  obtain ⟨esp, _, _, hge, hle, hkept⟩ := hc.swapped h2 hq h3
  have hpcur := hc.prev_page.current
  have hqcur := hc.next_page.current
  have hptss := hc.prev_page.tss
  have hqtss := hc.next_page.tss
  constructor
  · rw [hkept _ (by omega) (by omega) (by omega) (by omega)]
    exact h2.current
  · rw [hkept _ (by omega) (by omega) (by omega) (by omega), h2.tss]
    exact hc.word (by omega)

theorem Called.frame {b : Nat} (hb : s.esp - 16 ≤ b) (hlt : b < s.esp) : s3.mem b = pushedRegisters s b := by
  have hlow := hc.low
  have hhigh := hc.high
  have hpcur := hc.prev_page.current
  have hptss := hc.prev_page.tss
  have hsame : s2.mem b = pushedRegisters s b := h2.kept b (by omega) (by omega) (offStack_saved.mpr (by omega))
  rw [← hsame]
  refine hc.below h2 hq h3 b (by omega) (by omega) (by omega) (by omega) fun hqp => ?_
  have hstack := hq.resolve_left hqp
  have hapart := (hc.prev_page.apart hc.next_page).resolve_left hqp
  have hge := hstack.2.1
  have hle := hstack.2.2
  omega

theorem Called.kept {b : Nat} (hcur : b ≠ link.current) (htss : b ≠ link.tssEsp0) (h0 : b ≠ p) (h4 : b ≠ p + 4)
    (h8 : b ≠ p + 8) (hb : b < s.esp - 24 - link.depth ∨ s.esp ≤ b) (hn : q ≠ p → b ≠ s.mem q - 4) :
    s3.mem b = s.mem b := by
  have hlow := hc.low
  have hsame : s2.mem b = pushedRegisters s b := h2.kept b hcur htss (offStack_saved.mpr (by omega))
  rw [hc.below h2 hq h3 b h0 h4 h8 (by omega) hn, hsame]
  exact pushedRegisters_other (by omega) (by omega)

theorem Called.switched : Switched link s p q there s3 := by
  obtain ⟨hesi, hedi, hesp2, hebp2, hebx2⟩ := h2.registers
  obtain ⟨esp, hesp3, hesp, _⟩ := hc.swapped h2 hq h3
  obtain ⟨hcur, htss⟩ := hc.variables h2 hq h3
  have hlow := hc.low
  obtain ⟨hebx, hesi', hedi', hebp⟩ := pushedRegisters_saved (s := s) (by omega)
  obtain ⟨hsaved, hlabel, hsavedEbp⟩ := h3.saved
  rw [hesi] at hsaved hlabel hsavedEbp
  refine ⟨?_, h3.ebx.trans hebx2, hesp3.trans hesp, ?_, ?_, hcur, htss, ⟨hsaved.trans hesp2, hlabel, hsavedEbp.trans hebp2⟩,
    ⟨?_, ?_, ?_, ?_⟩, fun b => hc.kept h2 hq h3⟩
  · rw [h3.goes, hedi, hesi, hc.entered h2 (by omega)]
  · rw [h3.ebp, hedi, hesi, hebp2, hc.entered h2 (by omega)]
  · rw [h3.cr3, h2.cr3]
    exact congrArg link.pageFrame (hc.word (by omega))
  · rw [hc.frame h2 hq h3 (by omega) (by omega), hebx]
  · rw [hc.frame h2 hq h3 (by omega) (by omega), hesi']
  · rw [hc.frame h2 hq h3 (by omega) (by omega), hedi']
  · rw [hc.frame h2 hq h3 (by omega) (by omega), hebp]

end Called

/-- **`switch_task`.** -/
theorem switchTask_returns (hc : Called link s p q) (hcur4 : link.current % 4 = 0) (hne : link.tssEsp0 ≠ link.current)
    (hq : q = p ∨ StackOk s.mem q) : ∃ there s', Returns (switchTask link) s there s' ∧ Switched link s p q there s' := by
  have hapart := hc.prev_page.apart hc.next_page
  have hp4 := hc.prev_page.aligned
  have hpfits := hc.prev_page.fits
  have hq4 := hc.next_page.aligned
  have hqfits := hc.next_page.fits
  have hlow := hc.low
  have hhigh := hc.high
  obtain ⟨s2, hr2, h2⟩ := hc.enters hcur4 hne
  obtain ⟨hesi, hedi, _⟩ := h2.registers
  obtain ⟨esp, hesp, hesp', hesp4, hge, hle⟩ := hc.stack h2 hq
  obtain ⟨there, s3, hr3, h3⟩ := @swapStacks_returns link s2 (by omega) (by omega) (by omega) (by omega) (by omega) esp hesp
    hesp4 (by omega) (by split at hesp' <;> omega)
  refine ⟨there, s3, ?_, hc.switched h2 hq h3⟩
  rw [switchTask, Returns.bind_iff hc.saves, Returns.bind_iff hr2]
  exact hr3

end Switch

end Raampjes.Entry
