import Raampjes.Mm.Fork

/-!
# Tasks that come and go

- `Sound.addTask`, `Sound.dropTask`: a task enters and leaves the layout;
- `switchTask_ok`: what a switch does, and `Sound.switch`: the layout does not depend on who is running;
- `doFork_ok`, `doFork_cases`: the state after a fork; `doExit_sound`, `doWait_sound`: the other system calls.
-/

namespace Raampjes.Mm

open Progs Sched

/-! ## A new task -/

/-- The layout with a new task. -/
def Uses.withTask (L : Layout) (p D f : Nat) : Layout :=
  { (L.use D (.dir p)).use f (.task p) with
    dir := Function.update L.dir p D
    own := Function.update L.own p f }

/-- The task `t`, not in the table yet, is a copy of the running one. -/
structure ChildOk (m : Machine) (L : Layout) (p D f K a b : Nat) (t : TaskStruct) : Prop where
  slot : m.tasks p = none
  lt : p < MAX_TASKS
  ne_zero : p ≠ 0
  ktab : L.ktab = some K
  a_lt : a < 1024
  b_lt : b < 1024
  ne : a ≠ b
  pid : t.pid = p
  addr : t.addr = slotAddr a
  addr_word : m.ram K a = mkEntry f 3#32
  dir : t.pageDirectory = slotAddr b
  dir_word : m.ram K b = mkEntry D 3#32
  f_lt : f < 2 ^ 20
  D_lt : D < 2 ^ 20
  frame : L.role f = .unused
  dirFrame : L.role D = .unused
  frames_ne : f ≠ D
  entries : ∀ d, d < 1023 → m.ram D d = m.ram m.cr3 d
  self : m.ram D 1023 = mkEntry D 7#32
  flagged : ∀ d, d < 768 → shared (m.ram m.cr3 d) = true

section AddTask

variable {m m' : Machine} {L L' : Layout} {T : Finset Nat} {p q D C f K a b : Nat} {t : TaskStruct}
  {ram : Nat → Nat → Word}

/-- A user half with the same entries. -/
theorem SpaceOk.copy (h : SpaceOk ram L C) (hw : ∀ d, d < 768 → ram D d = ram C d) (hr : L'.role = L.role) :
    SpaceOk ram L' D := by
  have hpage : ∀ d i, HasPage ram D d i → HasPage ram C d i ∧ pageOf ram D d i = pageOf ram C d i := by
    rintro d i ⟨hd, hi, hp, hq⟩
    rw [pageOf, pageOf]
    rw [hw d hd] at hp hq ⊢
    exact ⟨⟨hd, hi, hp, hq⟩, rfl⟩
  refine ⟨?_, ?_, ?_, ?_, ?_, ?_⟩
  · intro d hd hp
    rw [hw d hd] at hp ⊢
    rw [hr]
    exact h.table d hd hp
  · intro d i hp
    obtain ⟨hold, hf⟩ := hpage d i hp
    rw [hf, hr]
    exact h.page d i hold
  · intro hs d i d' i' hp hp' heq
    obtain ⟨hold, hf⟩ := hpage d i hp
    obtain ⟨hold', hf'⟩ := hpage d' i' hp'
    rw [hf, hf'] at heq
    exact h.inj hs d i d' i' hold hold' heq
  · intro hs d hd
    rw [hw d hd]
    exact h.cow hs d hd
  · intro hs d hd
    rw [hw d hd]
    exact h.protect hs d hd
  · intro hs d i hp
    obtain ⟨hold, _⟩ := hpage d i hp
    rw [hw d hp.1]
    exact h.unlock hs d i hold

/-- The kernel half of the child. -/
theorem ChildOk.dirOk (hc : ChildOk m L p D f K a b t) (h : Holds m L) : DirOk m.ram (L.withTask p D f) D := by
  have hC := h.curDir
  have h768 := hc.entries 768 (by decide)
  have h769 := hc.entries 769 (by decide)
  refine ⟨?_, ?_, ?_, ?_, ?_, ?_, ?_, ?_, ?_, ?_⟩
  · rw [hc.self]
    simp
  · rw [hc.self, frameOf_mkEntry hc.D_lt (by decide)]
  · rw [hc.self, shared_mkEntry]
    decide
  · rw [h768]; exact hC.low
  · rw [h768]; exact hC.low_frame
  · rw [h768]; exact hC.low_private
  · rw [h769]; exact hC.ktab
  · rw [h769]; exact hC.no_ktab
  · intro d hd hlt
    rw [hc.entries d hlt]
    exact hC.rest d hd hlt
  · intro d hd hlt hp
    by_cases hlast : d = 1023
    · rw [hlast, hc.self, cowDir_mkEntry]
      decide
    · rw [hc.entries d (by omega)] at hp ⊢
      exact hC.uncow d hd hlt hp

theorem withTask_dir (hq : q ≠ p) : (L.withTask p D f).dir q = L.dir q := Function.update_of_ne hq ..

theorem withTask_self : (L.withTask p D f).dir p = D := Function.update_self ..

/-- The layout with the uses of the child's two frames. -/
theorem ChildOk.used (hc : ChildOk m L p D f K a b t) (h : Holds m L) :
    Holds m ((L.use D (.dir p)).use f (.task p)) := by
  have hsf := h.spare_of_unused hc.frame
  exact (h.use (h.spare_of_unused hc.dirFrame) (.dir p)).use ⟨hsf.noTable.use, hsf.page, hsf.own⟩ (.task p)

theorem ChildOk.current_ne (hc : ChildOk m L p D f K a b t) (h : Holds m L) : m.current ≠ p := by
  intro he
  have := h.cur
  rw [he, hc.slot] at this
  cases this

theorem ChildOk.old (hc : ChildOk m L p D f K a b t) (h : Holds m L) {u : TaskStruct} (hu : m.tasks q = some u)
    (hne : q ≠ p) : TaskOk m.ram (L.withTask p D f) q u := by
  have ho := (hc.used h).task q u hu
  have hqo : (L.withTask p D f).own q = L.own q := Function.update_of_ne hne ..
  refine ⟨ho.pid, ho.lt, ?_, ?_, ?_, ?_, ?_, ?_⟩
  · rw [withTask_dir hne]
    exact ho.role
  · rw [withTask_dir hne]
    exact ho.dirOk.congr (fun _ _ _ => rfl) rfl rfl
  · rw [withTask_dir hne]
    exact ho.spaceOk.copy (fun _ _ => rfl) rfl
  · rw [withTask_dir hc.ne_zero.symm]
    exact ho.boot
  · rw [withTask_dir hne, hqo]
    exact ho.slots
  · rw [hqo]
    exact ho.own

theorem ChildOk.taskOk (hc : ChildOk m L p D f K a b t) (h : Holds m L) : TaskOk m.ram (L.withTask p D f) p t := by
  have hfp : (L.withTask p D f).own p = f := Function.update_self ..
  refine ⟨hc.pid, hc.lt, ?_, ?_, ?_, fun h0 => absurd h0 hc.ne_zero, fun _ => ?_, fun _ => ?_⟩
  · rw [withTask_self]
    exact (use_role_of_ne _ _ hc.frames_ne.symm).trans (use_role_self ..)
  · rw [withTask_self]
    exact hc.dirOk h
  · rw [withTask_self]
    exact (hc.used h).curSpace.copy (fun d hd => hc.entries d (by omega)) rfl
  · rw [withTask_self, hfp]
    refine ⟨K, a, b, hc.ktab, hc.a_lt, hc.b_lt, hc.ne, hc.addr, ?_, ?_, hc.dir, ?_, ?_⟩
    · rw [hc.addr_word]
      simp
    · rw [hc.addr_word, frameOf_mkEntry hc.f_lt (by decide)]
    · rw [hc.dir_word]
      simp
    · rw [hc.dir_word, frameOf_mkEntry hc.D_lt (by decide)]
  · rw [hfp]
    exact use_role_self ..

/-- The tasks are those before and the child. -/
theorem tasks_update {u : TaskStruct} (hu : Function.update m.tasks p (some t) q = some u) :
    (q = p ∧ u = t) ∨ (q ≠ p ∧ m.tasks q = some u) := by
  by_cases hq : q = p
  · subst hq
    rw [Function.update_self] at hu
    exact Or.inl ⟨rfl, (Option.some.inj hu).symm⟩
  · rw [Function.update_of_ne hq] at hu
    exact Or.inr ⟨hq, hu⟩

/-- Who shares a table with the child shares it with the running task. -/
theorem ChildOk.sharing (hc : ChildOk m L p D f K a b t) (h : Holds m L) {q' d d' : Nat} {u u' : TaskStruct}
    (hq : Function.update m.tasks p (some t) q = some u) (hq' : Function.update m.tasks p (some t) q' = some u')
    (hne : q ≠ q' ∨ d ≠ d') (hd : d < 768) (hd' : d' < 768)
    (hp : present (m.ram ((L.withTask p D f).dir q) d) = true) (hp' : present (m.ram ((L.withTask p D f).dir q') d') = true)
    (heq : frameOf (m.ram ((L.withTask p D f).dir q) d) = frameOf (m.ram ((L.withTask p D f).dir q') d')) :
    shared (m.ram ((L.withTask p D f).dir q) d) = true := by
  have hcurne := hc.current_ne h
  rcases tasks_update hq with ⟨rfl, rfl⟩ | ⟨hqp, hold⟩
  · rw [withTask_self, hc.entries d (by omega)]
    exact hc.flagged d hd
  · rcases tasks_update hq' with ⟨rfl, rfl⟩ | ⟨hqp', hold'⟩
    · by_cases hqc : q = m.current
      · rw [hqc, withTask_dir hcurne, ← h.cr3]
        exact hc.flagged d hd
      · rw [withTask_self, hc.entries d' (by omega), h.cr3] at hp' heq
        rw [withTask_dir hqp] at hp heq ⊢
        exact h.sharing q u _ _ d d' hold h.curTask (Or.inl hqc) hd hd' hp hp' heq
    · rw [withTask_dir hqp] at hp heq ⊢
      rw [withTask_dir hqp'] at hp' heq
      exact h.sharing q u q' u' d d' hold hold' hne hd hd' hp hp' heq

/-- **A child enters.** -/
theorem Sound.addTask (h : Sound m L {b, a}) (hc : ChildOk m L p D f K a b t) :
    Sound { m with tasks := Function.update m.tasks p (some t) } (L.withTask p D f) ∅ := by
  have hu := hc.used h.holds
  have hcurne := hc.current_ne h.holds
  refine ⟨⟨h.holds.low, hu.low_role, hu.ktab_role, ?_, ?_, ?_, ?_, ?_, ?_⟩, ?_, ?_, ?_⟩
  · intro q u hq
    rcases tasks_update hq with ⟨rfl, rfl⟩ | ⟨hqp, hq⟩
    · exact hc.taskOk h.holds
    · exact hc.old h.holds hq hqp
  · show (Function.update m.tasks p (some t) 0).isSome
    rw [Function.update_of_ne hc.ne_zero.symm]
    exact h.holds.init
  · show (Function.update m.tasks p (some t) m.current).isSome
    rw [Function.update_of_ne hcurne]
    exact h.holds.cur
  · show m.cr3 = _
    rw [withTask_dir hcurne]
    exact h.holds.cr3
  · exact fun q u q' u' d d' hq hq' => hc.sharing h.holds hq hq'
  · intro hnone
    exact absurd (hc.ktab.symm.trans hnone) (by simp)
  · exact h.tidy.low
  · -- the two slots were open, and are the child's
    intro K' k hK' hk hp
    obtain rfl : K' = K := Option.some.inj (hK'.symm.trans hc.ktab)
    obtain ⟨h1, h2⟩ := h.tidy.slot K' k hc.ktab hk hp
    refine ⟨h1, Or.inr ?_⟩
    rcases h2 with hmem | ⟨q, u, hq, haddr⟩
    · refine ⟨p, t, Function.update_self .., ?_⟩
      rw [Finset.mem_insert, Finset.mem_singleton] at hmem
      rcases hmem with rfl | rfl
      · exact Or.inr hc.dir
      · exact Or.inl hc.addr
    · have hqp : q ≠ p := by
        rintro rfl
        rw [hc.slot] at hq
        cases hq
      exact ⟨q, u, (Function.update_of_ne hqp ..).trans hq, haddr⟩
  · intro hnone
    exact absurd (hc.ktab.symm.trans hnone) (by simp)

/-! ## A task that leaves -/

/-- **A task leaves**; its two slots are left over. -/
theorem Sound.dropTask (h : Sound m L ∅) (hp0 : p ≠ 0) (hpc : p ≠ m.current)
    (hab : ∀ u, m.tasks p = some u → ∀ k, u.addr = slotAddr k ∨ u.pageDirectory = slotAddr k → k ∈ T) :
    Sound { m with tasks := Function.update m.tasks p none } L T := by
  have hget : ∀ q u, Function.update m.tasks p none q = some u → q ≠ p ∧ m.tasks q = some u := by
    intro q u hq
    by_cases hne : q = p
    · subst hne
      rw [Function.update_self] at hq
      cases hq
    · rw [Function.update_of_ne hne] at hq
      exact ⟨hne, hq⟩
  refine ⟨⟨h.holds.low, h.holds.low_role, h.holds.ktab_role, ?_, ?_, ?_, h.holds.cr3, ?_, ?_⟩, ⟨h.tidy.low, ?_, h.tidy.plain⟩⟩
  · exact fun q u hq => h.holds.task q u (hget q u hq).2
  · show (Function.update m.tasks p none 0).isSome
    rw [Function.update_of_ne hp0.symm]
    exact h.holds.init
  · show (Function.update m.tasks p none m.current).isSome
    rw [Function.update_of_ne hpc.symm]
    exact h.holds.cur
  · exact fun q u q' u' d d' hq hq' => h.holds.sharing q u q' u' d d' (hget q u hq).2 (hget q' u' hq').2
  · intro hnone
    obtain ⟨h1, h2⟩ := h.holds.single hnone
    refine ⟨fun q hq => ?_, h2⟩
    obtain ⟨u, hu⟩ := Option.isSome_iff_exists.mp hq
    exact h1 q (by rw [(hget q u hu).2]; rfl)
  · intro K k hK hk hpres
    obtain ⟨h1, h2⟩ := h.tidy.slot K k hK hk hpres
    refine ⟨h1, ?_⟩
    rcases h2 with hmem | ⟨q, u, hq, haddr⟩
    · exact absurd hmem (Finset.notMem_empty k)
    · by_cases hqp : q = p
      · subst hqp
        exact Or.inl (hab u hq k haddr)
      · exact Or.inr ⟨q, u, (Function.update_of_ne hqp ..).trans hq, haddr⟩

/-- A left-over slot is cleared. -/
theorem Sound.clearSlot (h : Sound m L (insert a T)) (hK : L.ktab = some K) (ha : a < 1024) {w : Word}
    (hw : present w = false)
    (hfree : ∀ p t, m.tasks p = some t → t.addr ≠ slotAddr a ∧ t.pageDirectory ≠ slotAddr a) :
    Sound (m.setWord K a w) L T := by
  have hrole := h.holds.ktab_role K hK
  refine ⟨h.holds.setSlot hK ha w hfree, ?_, ?_, ?_⟩
  · intro i hi
    rw [setWord_of_ne _ _ _ _ (Or.inl (ne_of_role h.holds.low_role hrole (by simp)))]
    exact h.tidy.low i hi
  · intro K' j hK' hj hp
    obtain rfl : K' = K := Option.some.inj (hK'.symm.trans hK)
    by_cases hja : j = a
    · subst hja
      rw [setWord_self, hw] at hp
      cases hp
    · rw [setWord_of_ne _ _ _ _ (Or.inr hja)] at hp ⊢
      obtain ⟨h1, h2⟩ := h.tidy.slot K' j hK' hj hp
      exact ⟨h1, h2.imp (fun hm => Finset.mem_of_mem_insert_of_ne hm hja) id⟩
  · intro hnone
    rw [hK] at hnone
    cases hnone

end AddTask

/-! ## Switching -/

section Switch

variable {s : Bool} {m m' : Machine} {L : Uses s} {T : Finset Nat} {p : Nat} {t : TaskStruct} {u : Unit}

/-- The layout does not depend on who is running. -/
theorem Sound.switch (h : Sound m L T) (ht : m.tasks p = some t) :
    Sound { m with current := p, cr3 := L.dir p } L T := by
  have hH := h.holds
  refine ⟨⟨hH.low, hH.low_role, hH.ktab_role, hH.task, hH.init, ?_, rfl, hH.sharing, hH.single⟩,
    ⟨h.tidy.low, h.tidy.slot, ?_⟩⟩
  · show (m.tasks p).isSome
    rw [ht]
    rfl
  · intro hnone d i hp
    have h1 := (hH.single hnone).1
    have hcur : p = m.current := (h1 p (by rw [ht]; rfl)).trans (h1 _ hH.cur).symm
    subst hcur
    rw [← hH.cr3] at hp ⊢
    exact h.tidy.plain hnone d i hp

/-- The way to the page directory of a task is the same in every address space. -/
theorem TaskOk.dir_path (hm : Holds m L) (h : TaskOk m.ram L p t) :
    t.pageDirectory % PAGE_SIZE = 0 ∧ dirIndex t.pageDirectory < 1024 ∧
      ∃ Q, frameOf (m.ram Q (pageTableIndex t.pageDirectory)) = L.dir p ∧
        ∀ D, DirOk m.ram L D → present (m.ram D (dirIndex t.pageDirectory)) = true ∧
          frameOf (m.ram D (dirIndex t.pageDirectory)) = Q := by
  by_cases hp : p = 0
  · obtain ⟨haddr, hlt, _⟩ := h.boot hp
    have hd : dirIndex t.pageDirectory = 768 := by
      rw [haddr, dirIndex, KERNEL_MEMORY, PAGE_SIZE]
      omega
    have hi : pageTableIndex t.pageDirectory = L.dir 0 := by
      rw [haddr, pageTableIndex, KERNEL_MEMORY, PAGE_SIZE]
      omega
    refine ⟨?_, by rw [hd]; decide, L.pt1, ?_, fun D hD => ?_⟩
    · rw [haddr, KERNEL_MEMORY, PAGE_SIZE]
      omega
    · rw [hi, (hm.low _ hlt).2, hp]
    · rw [hd]
      exact ⟨hD.low, hD.low_frame⟩
  · obtain ⟨K, a, b, hK, _, hb, _, _, _, _, haddr, _, hfb⟩ := h.slots hp
    have hd : dirIndex t.pageDirectory = 769 := by
      rw [haddr]
      exact @dirIndex_slot b 0 hb (by decide)
    have hi : pageTableIndex t.pageDirectory = b := by
      rw [haddr]
      exact @pageTableIndex_slot b 0 hb (by decide)
    refine ⟨?_, by rw [hd]; decide, K, ?_, fun D hD => ?_⟩
    · rw [haddr]
      exact slot_aligned b
    · rw [hi, hfb]
    · rw [hd]
      exact ⟨(hD.ktab K hK).1, (hD.ktab K hK).2.1⟩

/-- **`switch_task`**, with the directory of the next task read through the one still in CR3. -/
theorem switchTask_ok (h : Holds m L) (ht : m.tasks p = some t) :
    Returns (switchTask p) m u m' ↔ m' = { m with current := p, cr3 := L.dir p } := by
  have hT := h.task p t ht
  obtain ⟨halign, hd, Q, hQ, hpath⟩ := hT.dir_path h
  have hE := h.env
  have hi := pageTableIndex_lt t.pageDirectory
  have hcur : Machine.cur { m with current := p } = t := by rw [Machine.cur, ht, Option.getD_some]
  have hdir : Returns (dirEntry (dirIndex t.pageDirectory)) { m with current := p }
      (m.ram (L.dir p) (dirIndex t.pageDirectory)) { m with current := p } := by
    rw [dirEntry, Returns.bind_iff ((gets_ok _).mpr ⟨rfl, rfl⟩), hcur]
    refine loadWord_ok.mpr ⟨L.dir p, ?_, ?_, rfl⟩
    · show walk m.ram m.cr3 _ = _
      rw [walk_add _ _ halign (entry_offset hd), hT.walk_dir h h.curDir]
    · rw [wordIndex_add halign hd]
  have hentry : Returns (getPageEntry t.pageDirectory) { m with current := p } (entryAddr t.pageDirectory)
      { m with current := p } := by
    rw [getPageEntry, Returns.bind_iff hdir, (hpath _ hT.dirOk).1, getPageTable_eq hd.le]
    exact pure_ok.mpr ⟨rfl, rfl⟩
  have hload : Returns (loadWord (entryAddr t.pageDirectory)) { m with current := p }
      (m.ram Q (pageTableIndex t.pageDirectory)) { m with current := p } := by
    refine loadWord_ok.mpr ⟨Q, ?_, ?_, rfl⟩
    · show walk m.ram m.cr3 _ = _
      rw [entryAddr, hE.walk_window hd (entry_offset hi), (hpath _ h.curDir).1, if_pos rfl, (hpath _ h.curDir).2]
    · rw [entryAddr, wordIndex_add (window_aligned _) hi]
  have hframe : Returns (pageFrame t.pageDirectory) { m with current := p } (L.dir p) { m with current := p } := by
    rw [pageFrame, Returns.bind_iff hentry, if_neg (entryAddr_ne _), Returns.bind_iff hload, hQ]
    exact pure_ok.mpr ⟨rfl, rfl⟩
  rw [switchTask, Returns.bind_iff ((update_ok _ ()).mpr rfl), Returns.bind_iff ((gets_ok _).mpr ⟨rfl, rfl⟩), hcur,
    Returns.bind_iff hframe, update_ok]

end Switch

/-! ## Fork -/

/-- The state after a fork: the child in slot `p` runs. -/
structure Forked (m : Machine) (L : Layout) (m' : Machine) (L' : Layout) (p : Nat) (child : TaskStruct) : Prop where
  slot : m.tasks p = none
  lt : p < MAX_TASKS
  ne_zero : p ≠ 0
  fields : ∃ a b, child = { m.cur with
    addr := slotAddr a, esp0 := slotAddr a + PAGE_SIZE, pageDirectory := slotAddr b, pid := p, ppid := m.cur.pid }
  tasks : m'.tasks = Function.update m.tasks p (some child)
  current : m'.current = p
  cr3 : m'.cr3 = L'.dir p
  dir : ∀ q, q ≠ p → L'.dir q = L.dir q
  pt1 : L'.pt1 = L.pt1
  fresh : ¬ Reaches m (L'.dir p)
  user : ∀ d, d < 768 → m'.ram m.cr3 d = cowEntry (m.ram m.cr3 d) ∧ m'.ram (L'.dir p) d = cowEntry (m.ram m.cr3 d)
  high : ∀ d, 768 ≤ d → d < 1023 → m'.ram (L'.dir p) d = m'.ram m.cr3 d
  old : ∀ d, 768 ≤ d → d < 1024 → d ≠ 769 → m'.ram m.cr3 d = m.ram m.cr3 d
  top : m'.ram m.cr3 769 = m.ram m.cr3 769 ∨ ∃ K, m'.ram m.cr3 769 = mkEntry K 3#32
  self : m'.ram (L'.dir p) 1023 = mkEntry (L'.dir p) 7#32
  rest : ∀ g, Reaches m g → L.role g ≠ .kernelTable → g ≠ m.cr3 → m'.ram g = m.ram g

section DoFork

variable {alloc : Kernel Nat} {m m' : Machine} {L : Layout} {T : Finset Nat} {p D : Nat} {u : Unit}

theorem emptySlot_ok (hp : emptySlot m ≠ 0) : m.tasks (emptySlot m) = none ∧ emptySlot m < MAX_TASKS := by
  rw [emptySlot] at hp ⊢
  cases hf : (List.range MAX_TASKS).find? fun i => (m.tasks i).isNone with
  | none =>
    rw [hf] at hp
    exact absurd rfl hp
  | some i =>
    rw [Option.getD_some]
    have hnone := List.find?_some hf
    exact ⟨Option.isNone_iff_eq_none.mp hnone, List.mem_range.mp (List.mem_of_find?_eq_some hf)⟩

/-- The layout holds while the kernel forks. -/
theorem Sound.forking (h : Sound m L T) (hK : L.ktab ≠ none) (hspare : Spare m L D) (g : Nat → Word) :
    Sound (m.forking D g (flagged 768 (m.ram m.cr3))) L T := by
  have hne : m.cr3 ≠ D := by
    rw [h.holds.cr3]
    exact (hspare.noTable.dir _ _ h.holds.curTask).symm
  have hflag := ((h.setFrame hspare g).1.flagDir hK).1
  rw [setFrame_cr3, setFrame_of_ne _ _ _ hne] at hflag
  exact hflag

/-- The two pages of the kernel that a fork takes: for the task in slot `a`, and for its directory in slot `b`. -/
structure ForkPages (alloc : Kernel Nat) (m : Machine) (L : Layout) (m1 : Machine) (L1 : Layout) (m2 : Machine) (L2 : Layout)
    (K a f b D : Nat) : Prop where
  task : NewPage alloc m L m1 K a f
  taskPage : KernelPage m L m1 L1 K a f
  taskSound : Sound m1 L1 {a}
  dir : NewPage alloc m1 L1 m2 K b D
  dirPage : KernelPage m1 L1 m2 L2 K b D
  dirSound : Sound m2 L2 {b, a}

/-- The child in slot `p`. -/
def TaskStruct.child (t : TaskStruct) (a b p : Nat) : TaskStruct :=
  { t with addr := slotAddr a, esp0 := slotAddr a + PAGE_SIZE, pageDirectory := slotAddr b, pid := p, ppid := t.pid }

/-- The machine with the child in the task table. -/
def Machine.enrolled (m : Machine) (D p : Nat) (t : TaskStruct) : Machine :=
  { (m.copied D).referred with tasks := Function.update m.tasks p (some t) }

/-- The machine after a fork. -/
def Machine.forked (m : Machine) (D p : Nat) (t : TaskStruct) : Machine :=
  { m.enrolled D p t with current := p, cr3 := D }

section Pages

variable {m1 m2 : Machine} {L1 L2 : Layout} {K a f b : Nat} (hF : ForkPages alloc m L m1 L1 m2 L2 K a f b D)

include hF

theorem ForkPages.cr3 : m2.cr3 = m.cr3 := hF.dirPage.untouched.2.2.trans hF.taskPage.untouched.2.2

theorem ForkPages.tasks : m2.tasks = m.tasks := hF.dirPage.untouched.1.trans hF.taskPage.untouched.1

theorem ForkPages.spare : Spare m2 L2 D := hF.dirSound.holds.spare_of_unused hF.dirPage.role

theorem ForkPages.dir_ne : m2.cr3 ≠ D := by
  rw [hF.dirSound.holds.cr3]
  exact (hF.spare.noTable.dir _ _ hF.dirSound.holds.curTask).symm

/-- The words of the child's directory, of the parent's, and the others. -/
theorem ForkPages.words : (m2.copied D).ram D = filled 1024 (childDir D (m2.ram m2.cr3)) (m2.ram D) ∧
    (m2.copied D).ram m2.cr3 = flagged 768 (m2.ram m2.cr3) ∧ ∀ g, g ≠ D → g ≠ m2.cr3 → (m2.copied D).ram g = m2.ram g := by
  refine ⟨?_, ?_, fun g hD hc => ?_⟩
  · rw [Machine.copied, Machine.forking, setFrame_of_ne _ _ _ hF.dir_ne.symm, setFrame_self]
  · rw [Machine.copied, Machine.forking, setFrame_self]
  · rw [Machine.copied, Machine.forking, setFrame_of_ne _ _ _ hc, setFrame_of_ne _ _ _ hD]

/-- The parent's directory, but for the entry of the kernel's page table. -/
theorem ForkPages.dir_words (h : Holds m L) {d : Nat} (hd : d ≠ 769) : m2.ram m.cr3 d = m.ram m.cr3 d := by
  have h1 := hF.taskSound.holds
  rw [← hF.taskPage.rest m.cr3 d h.reaches_cr3 (by rw [h.current_role]; simp) (Or.inr hd), ← hF.taskPage.untouched.2.2]
  exact hF.dirPage.rest m1.cr3 d h1.reaches_cr3 (by rw [h1.current_role]; simp) (Or.inr hd)

/-- **The child enters.** -/
theorem ForkPages.addTask (h0 : emptySlot m ≠ 0) :
    Sound (m2.enrolled D (emptySlot m) (m.cur.child a b (emptySlot m))) (L2.withTask (emptySlot m) D f) ∅ := by
  have p1 := hF.taskPage
  have p2 := hF.dirPage
  have hs2 := hF.dirSound
  obtain ⟨hslot, hlt⟩ := emptySlot_ok h0
  obtain ⟨hnew, hold, hfar⟩ := hF.words
  set c := flagged 768 (m2.ram m2.cr3) with hc
  set g := filled 1024 (childDir D (m2.ram m2.cr3)) (m2.ram D) with hg
  -- the two new frames
  have hKD : K ≠ D := (hF.spare.noTable.ktab K p2.ktab).symm
  have hKc : K ≠ m2.cr3 := ne_of_role (hs2.holds.ktab_role K p2.ktab) hs2.holds.current_role (by simp)
  obtain ⟨_, habs, hother⟩ := p2.old K p1.ktab
  have hpres : present (m1.ram K a) = true := by
    rw [p1.word]
    simp
  have hab : a ≠ b := by
    rintro rfl
    rw [hpres] at habs
    cases habs
  have hfr : Reaches m1 f := by
    have hw := hF.taskSound.holds.curOk.dirOk.walk_slot p1.ktab p1.lt hpres
    rw [p1.word, frameOf_mkEntry p1.frame_lt (by decide)] at hw
    exact hF.taskSound.holds.reaches hF.taskSound.holds.curTask (slot_lt p1.lt) hw
  have hfD : f ≠ D := fun he => p2.fresh (he ▸ hfr)
  have hsame : SameTasks (m2.forking D g (flagged 768 (m2.ram m2.cr3))) (m2.copied D).referred :=
    SameTasks.of_tasks rfl rfl rfl
  have hs3 : Sound (m2.copied D).referred L2 {b, a} :=
    ((hs2.forking (by rw [p2.ktab]; simp) hF.spare g).retask hsame rfl).1
  have hchild : ChildOk (m2.copied D).referred L2 (emptySlot m) D f K a b (m.cur.child a b (emptySlot m)) := by
    refine ⟨?_, hlt, h0, p2.ktab, p1.lt, p2.lt, hab, rfl, rfl, ?_, rfl, ?_, p1.frame_lt, p2.frame_lt, ?_, p2.role, hfD,
      ?_, ?_, ?_⟩
    · show m2.tasks _ = none
      rw [hF.tasks]
      exact hslot
    · show (m2.copied D).ram K a = _
      rw [hfar K hKD hKc, hother a hab, p1.word]
    · show (m2.copied D).ram K b = _
      rw [hfar K hKD hKc, p2.word]
    · rw [p2.roles f hfr, p1.role]
    · intro d hd
      show (m2.copied D).ram D d = (m2.copied D).ram m2.cr3 d
      rw [hnew, hold, hg, filled_lt (by omega), childDir, if_neg (by omega)]
    · show (m2.copied D).ram D 1023 = _
      rw [hnew, hg, filled_lt (by decide), childDir, if_pos rfl]
    · intro d hd
      show shared ((m2.copied D).ram m2.cr3 d) = true
      rw [hold, hc, flagged_lt _ hd]
      simp
  exact hs3.addTask hchild

theorem ForkPages.sound (h0 : emptySlot m ≠ 0) :
    Sound (m2.forked D (emptySlot m) (m.cur.child a b (emptySlot m))) (L2.withTask (emptySlot m) D f) ∅ := by
  have hs := (hF.addTask h0).switch (p := emptySlot m) (Function.update_self ..)
  rwa [show (L2.withTask (emptySlot m) D f).dir (emptySlot m) = D from Function.update_self ..] at hs

/-- What a fork leaves. -/
theorem ForkPages.forked (h : Sound m L ∅) (h0 : emptySlot m ≠ 0) :
    Forked m L (m2.forked D (emptySlot m) (m.cur.child a b (emptySlot m))) (L2.withTask (emptySlot m) D f) (emptySlot m)
      (m.cur.child a b (emptySlot m)) := by
  have p1 := hF.taskPage
  have p2 := hF.dirPage
  have hcr3 := hF.cr3
  obtain ⟨hslot, hlt⟩ := emptySlot_ok h0
  obtain ⟨hnew, hold, hfar⟩ := hF.words
  have hdirp : (L2.withTask (emptySlot m) D f).dir (emptySlot m) = D := Function.update_self ..
  refine ⟨hslot, hlt, h0, ⟨a, b, rfl⟩, ?_, rfl, hdirp.symm, ?_, ?_, ?_, ?_, ?_, ?_, ?_, ?_, ?_⟩
  · show Function.update m2.tasks _ _ = _
    rw [hF.tasks]
  · intro q hq
    show Function.update L2.dir _ D q = _
    rw [Function.update_of_ne hq, p2.dir, p1.dir]
  · exact p2.pt1.trans p1.pt1
  · rw [hdirp]
    exact fun hr => p2.fresh (p1.reaches D hr)
  · intro d hd
    rw [hdirp]
    show (m2.copied D).ram _ _ = _ ∧ (m2.copied D).ram _ _ = _
    rw [← hcr3, hold, hnew, filled_lt (by omega), childDir, if_neg (by omega), flagged_lt _ hd, hcr3,
      hF.dir_words h.holds (by omega)]
    exact ⟨rfl, rfl⟩
  · intro d hd hlt'
    rw [hdirp]
    show (m2.copied D).ram _ _ = (m2.copied D).ram _ _
    rw [← hcr3, hold, hnew, filled_lt (by omega), childDir, if_neg (by omega)]
  · intro d hd hlt' hne
    show (m2.copied D).ram _ _ = _
    rw [← hcr3, hold, flagged_ge _ hd, hcr3, hF.dir_words h.holds hne]
  · show (m2.copied D).ram _ _ = _ ∨ ∃ K, (m2.copied D).ram _ _ = _
    have h769 : (m2.copied D).ram m.cr3 769 = m2.ram m.cr3 769 := by
      rw [← hcr3, hold, flagged_ge _ (by decide)]
    rw [h769]
    have ht1 := p1.top
    have ht2 := p2.top
    rw [p1.untouched.2.2] at ht2
    rcases ht2 with ht2 | ht2
    · rw [ht2]
      exact ht1.imp id fun he => ⟨K, he⟩
    · exact Or.inr ⟨K, ht2⟩
  · rw [hdirp]
    show (m2.copied D).ram _ _ = _
    rw [hnew, filled_lt (by decide), childDir, if_pos rfl]
  · intro g' hg' hrole hne
    have hg1 := p1.reaches g' hg'
    have hne1 : g' ≠ m1.cr3 := by rwa [p1.untouched.2.2]
    have hne2 : g' ≠ m2.cr3 := by rwa [hcr3]
    show (m2.copied D).ram _ = _
    rw [hfar g' (fun he => p2.fresh (he ▸ hg1)) hne2]
    funext j
    rw [p2.rest g' j hg1 (by rw [p1.roles g' hg']; exact hrole) (Or.inl hne1),
      p1.rest g' j hg' hrole (Or.inl hne)]

end Pages

/-- **`do_fork`.** -/
theorem doFork_ok (h : Sound m L ∅) (hA : Hands alloc m) (hA1 : ∀ f, Hands alloc (m.setCount f 1))
    (hA2 : ∀ m1 K k f, NewPage alloc m L m1 K k f → Hands alloc m1 ∧ ∀ g, Hands alloc (m1.setCount g 1)) :
    Returns (doFork alloc) m u m' ↔ ∃ m1 L1 m2 L2 K a f b D, ForkPages alloc m L m1 L1 m2 L2 K a f b D ∧ emptySlot m ≠ 0 ∧
      m' = m2.forked D (emptySlot m) (m.cur.child a b (emptySlot m)) := by
  -- the rest, once the first page is there
  have hrest : ∀ {m1 K a f}, NewPage alloc m L m1 K a f → (Returns (do
      onlyIf (slotAddr a < KERNEL_MEMORY) (stop .panic)
      let t ← gets Machine.cur
      let pageDirectory ← forkMem alloc t.pageDirectory
      let newPid ← gets emptySlot
      onlyIf (newPid = 0) (stop .panic)
      let child : TaskStruct :=
        { t with
          addr := slotAddr a, esp0 := slotAddr a + PAGE_SIZE, pageDirectory := pageDirectory, pid := newPid, ppid := t.pid }
      update fun m => { m with tasks := Function.update m.tasks newPid (some child) }
      switchTask newPid) m1 u m' ↔ ∃ L1 m2 L2 b D, ForkPages alloc m L m1 L1 m2 L2 K a f b D ∧ emptySlot m ≠ 0 ∧
        m' = m2.forked D (emptySlot m) (m.cur.child a b (emptySlot m))) := by
    intro m1 K a f hN
    obtain ⟨L1, p1, hs1⟩ := hN.kernelPage h hA (hA1 f)
    obtain ⟨hA3, hA4⟩ := hA2 m1 K a f hN
    have hge : ¬ slotAddr a < KERNEL_MEMORY := by
      rw [slotAddr, KERNEL_MEMORY]
      omega
    have hpages : ∀ {m2 b D}, NewPage alloc m1 L1 m2 K b D → ∃ L2, ForkPages alloc m L m1 L1 m2 L2 K a f b D := by
      intro m2 b D hN2
      obtain ⟨L2, p2, hs2⟩ := hN2.kernelPage hs1 hA3 (hA4 D)
      exact ⟨L2, hN, p1, hs1, hN2, p2, hs2⟩
    rw [onlyIf_neg (decide_eq_false hge), Returns.bind_iff (pure_ok.mpr ⟨rfl, rfl⟩),
      Returns.bind_iff ((gets_ok _).mpr ⟨rfl, rfl⟩), bind_ok]
    have hcur : m1.cur = m.cur := p1.untouched.cur
    have hlast : ∀ {L1 m2 L2 b D}, ForkPages alloc m L m1 L1 m2 L2 K a f b D → (Returns (do
        let newPid ← gets emptySlot
        onlyIf (newPid = 0) (stop .panic)
        let child : TaskStruct :=
          { m1.cur with
            addr := slotAddr a, esp0 := slotAddr a + PAGE_SIZE, pageDirectory := slotAddr b, pid := newPid, ppid := m1.cur.pid }
        update fun m => { m with tasks := Function.update m.tasks newPid (some child) }
        switchTask newPid) (m2.copied D).referred u m' ↔ emptySlot m ≠ 0 ∧
          m' = m2.forked D (emptySlot m) (m.cur.child a b (emptySlot m))) := by
      intro L1 m2 L2 b D hF
      have hslot : emptySlot (m2.copied D).referred = emptySlot m := by
        rw [emptySlot, emptySlot]
        show Option.getD (List.find? (fun i => (m2.tasks i).isNone) _) 0 = _
        rw [hF.tasks]
      rw [Returns.bind_iff ((gets_ok _).mpr ⟨rfl, rfl⟩), hslot, hcur]
      by_cases h0 : emptySlot m = 0
      · rw [onlyIf_pos (decide_eq_true h0)]
        constructor
        · intro hr
          obtain ⟨_, _, hstop, _⟩ := (bind_ok _ _ _).mp hr
          exact absurd hstop (stop_ok _)
        · exact fun hr => absurd h0 hr.1
      · have hs4 := hF.addTask h0
        have hget : (m2.enrolled D (emptySlot m) (m.cur.child a b (emptySlot m))).tasks (emptySlot m) =
            some (m.cur.child a b (emptySlot m)) := Function.update_self ..
        have hdirp : (L2.withTask (emptySlot m) D f).dir (emptySlot m) = D := Function.update_self ..
        have hswitch := @switchTask_ok _ _ m' _ _ _ u hs4.holds hget
        rw [hdirp] at hswitch
        rw [onlyIf_neg (decide_eq_false h0), Returns.bind_iff (pure_ok.mpr ⟨rfl, rfl⟩),
          Returns.bind_iff ((update_ok _ ()).mpr rfl)]
        refine Iff.trans hswitch ?_
        exact ⟨fun hr => ⟨h0, hr⟩, fun hr => hr.2⟩
    constructor
    · rintro ⟨v, m3, h3, hr⟩
      obtain ⟨b, D, m2, rfl, hN2, rfl⟩ := (forkMem_ok hs1 (by simp) hA3 hA4 p1.ktab).mp h3
      obtain ⟨L2, hF⟩ := hpages hN2
      obtain ⟨h0, hm'⟩ := (hlast hF).mp hr
      exact ⟨L1, m2, L2, b, D, hF, h0, hm'⟩
    · rintro ⟨L1', m2, L2, b, D, hF, h0, hm'⟩
      exact ⟨slotAddr b, _, (forkMem_ok hF.taskSound (by simp) hA3 hA4 hF.taskPage.ktab).mpr ⟨b, D, m2, rfl, hF.dir, rfl⟩,
        (hlast hF).mpr ⟨h0, hm'⟩⟩
  rw [doFork, bind_ok]
  constructor
  · rintro ⟨v, m1, h1, hr⟩
    obtain ⟨K, a, f, rfl, hN⟩ := (allocPage_ok h (by simp) hA hA1).mp h1
    obtain ⟨L1, m2, L2, b, D, hF, h0, hm'⟩ := (hrest hN).mp hr
    exact ⟨m1, L1, m2, L2, K, a, f, b, D, hF, h0, hm'⟩
  · rintro ⟨m1, L1, m2, L2, K, a, f, b, D, hF, h0, hm'⟩
    exact ⟨slotAddr a, m1, (allocPage_ok h (by simp) hA hA1).mpr ⟨K, a, f, rfl, hF.task⟩,
      (hrest hF.task).mpr ⟨L1, m2, L2, b, D, hF, h0, hm'⟩⟩

theorem doFork_cases (h : Sound m L ∅) (hA : ∀ m, Hands alloc m) (hr : Returns (doFork alloc) m u m') :
    ∃ L' p child, Forked m L m' L' p child ∧ Sound m' L' ∅ := by
  obtain ⟨m1, L1, m2, L2, K, a, f, b, D, hF, h0, rfl⟩ :=
    (doFork_ok h (hA m) (fun _ => hA _) fun _ _ _ _ _ => ⟨hA _, fun _ => hA _⟩).mp hr
  exact ⟨_, _, _, hF.forked h h0, hF.sound h0⟩

end DoFork

end Raampjes.Mm
