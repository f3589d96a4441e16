import Raampjes.Mm.Tasks

/-!
# The steps of the processes

- `Halves`: what every step but a fork leaves alone in the directories of all tasks;
- `doExit_sound`, `freeTask_sound`, `doWait_sound`, ...: by the system calls;
- `Bounded`: the heaps of the tasks end below the kernel;
- `step_cases`: one step keeps the layout, and what it does to the kernel halves.
-/

namespace Raampjes.Mm

open Progs Sched

/-! ## The kernel halves -/

/-- The tasks that are left keep their directories, and these their kernel halves. -/
structure Halves (c c' : Machine × Layout) : Prop where
  dir : c'.2.dir = c.2.dir
  tasks : ∀ q t', c'.1.tasks q = some t' → ∃ t, c.1.tasks q = some t ∧ t'.key = t.key
  high : ∀ q, (c'.1.tasks q).isSome → ∀ d, 768 ≤ d → d < 1024 → c'.1.ram (c.2.dir q) d = c.1.ram (c.2.dir q) d

instance : Std.Refl Halves := ⟨fun _ => ⟨rfl, fun _ t' ht' => ⟨t', ht', rfl⟩, fun _ _ _ _ _ => rfl⟩⟩

instance : IsTrans (Machine × Layout) Halves := by
  refine ⟨fun a b c h h' => ⟨h'.dir.trans h.dir, fun q t' ht' => ?_, fun q hq d hd hlt => ?_⟩⟩
  · obtain ⟨t1, ht1, hk1⟩ := h'.tasks q t' ht'
    obtain ⟨t, ht, hk⟩ := h.tasks q t1 ht1
    exact ⟨t, ht, hk1.trans hk⟩
  · obtain ⟨t', ht'⟩ := Option.isSome_iff_exists.mp hq
    obtain ⟨t1, ht1, _⟩ := h'.tasks q t' ht'
    have hnext := h'.high q hq d hd hlt
    rw [h.dir] at hnext
    exact hnext.trans (h.high q (by rw [ht1]; rfl) d hd hlt)

section Halves

variable {m m' : Machine} {L L' : Layout} {T : Finset Nat}

theorem Kept.halves (h : Sound m L T) (hk : Kept (m, L) (m', L')) : Halves (m, L) (m', L') := by
  refine ⟨hk.dir, fun q t' ht' => ?_, fun q hq d hd hlt => ?_⟩
  · obtain ⟨t, ht, hkey⟩ := hk.same.symm.get ht'
    exact ⟨t, ht, hkey.symm⟩
  · rw [hk.same.isSome] at hq
    by_cases hc : q = m.current
    · subst hc
      have hcur := hk.high d hd hlt
      simp only [h.holds.cr3] at hcur
      exact hcur
    · obtain ⟨t, ht⟩ := Option.isSome_iff_exists.mp hq
      exact congrFun (hk.dirs q t ht hc) d

theorem Local.halves (h : Sound m L T) (hl : Local m L m' L') : Halves (m, L) (m', L') := hl.kept.halves h

end Halves

/-! ## Exit -/

section Exit

variable {alloc : Kernel Nat} {m m' : Machine} {L : Layout} {T : Finset Nat} {p q k : Nat} {t u : TaskStruct} {r : Unit}

theorem sameTasks_setCur (hcur : (m.tasks m.current).isSome) (ht : t.key = m.cur.key) : SameTasks m (m.setCur t) := by
  refine ⟨fun p => ?_, rfl, rfl⟩
  obtain ⟨t0, ht0⟩ := Option.isSome_iff_exists.mp hcur
  by_cases hp : p = m.current
  · subst hp
    have hc : m.cur = t0 := by rw [Machine.cur, ht0, Option.getD_some]
    show (Function.update m.tasks m.current (some t) m.current).map _ = _
    rw [Function.update_self, ht0, Option.map_some, Option.map_some, ht, hc]
  · show (Function.update m.tasks m.current (some t) p).map _ = _
    rw [Function.update_of_ne hp]

theorem sameTasks_wakeParent (m : Machine) : SameTasks m (wakeParent m) := by
  rw [wakeParent]
  cases hp : m.tasks m.cur.ppid with
  | none => exact SameTasks.refl m
  | some p =>
    show SameTasks m (if p.state = .waiting then _ else m)
    by_cases hw : p.state = .waiting
    · rw [if_pos hw]
      refine ⟨fun q => ?_, rfl, rfl⟩
      by_cases hq : q = m.cur.ppid
      · subst hq
        show (Function.update m.tasks m.cur.ppid _ m.cur.ppid).map _ = _
        rw [Function.update_self, hp]
        rfl
      · show (Function.update m.tasks m.cur.ppid _ q).map _ = _
        rw [Function.update_of_ne hq]
    · rw [if_neg hw]
      exact SameTasks.refl m

theorem wakeParent_ram (m : Machine) : (wakeParent m).ram = m.ram := by
  rw [wakeParent]
  split
  · split <;> rfl
  · rfl

/-- **`do_exit`.** -/
theorem doExit_sound (h : Sound m L ∅) (hA : ∀ m, Hands alloc m) {status : Int}
    (hr : Returns (doExit alloc status) m r m') : ∃ L', Sound m' L' ∅ ∧ Local m L m' L' := by
  rw [doExit, Returns.bind_iff ((gets_ok _).mpr ⟨rfl, rfl⟩)] at hr
  obtain ⟨_, hr⟩ := check_bind_ok.mp hr
  rw [Returns.bind_iff ((update_ok _ ()).mpr rfl)] at hr
  obtain ⟨_, m2, h2, hr⟩ := (bind_ok _ _ _).mp hr
  have hs : SameTasks m (m.setCur { m.cur with exitStatus := status, state := .stopped }) :=
    sameTasks_setCur h.holds.cur rfl
  obtain ⟨hs1, l1⟩ := h.retask hs rfl
  obtain ⟨L2, hs2, l2, _⟩ := freeMemUsr_empty hA hs1 h2
  obtain ⟨hs3, l3⟩ := hs2.retask (sameTasks_wakeParent m2) (wakeParent_ram m2)
  rw [(update_ok _ _).mp hr]
  exact ⟨L2, hs3, l1.trans (l2.trans l3)⟩

end Exit

/-! ## Wait -/

theorem Hands.untouched {alloc : Kernel Nat} (hA : ∀ m, Hands alloc m) : Within Untouched alloc := by
  intro m f m' hr
  obtain ⟨_, _, rfl⟩ := (hA m).ok m f m' hr
  exact ⟨rfl, rfl, rfl⟩

section Wait

variable {alloc : Kernel Nat} {copy : Nat → Kernel Unit} {m m' : Machine} {L : Layout} {T : Finset Nat} {K p q k : Nat}
  {t u : TaskStruct} {r : Unit}

/-- No two tasks have a slot in common. -/
theorem Holds.slots_apart (h : Holds m L) (ht : m.tasks p = some t) (hu : m.tasks q = some u) (hp : p ≠ 0) (hne : q ≠ p)
    (ha : t.addr = slotAddr k ∨ t.pageDirectory = slotAddr k) : u.addr ≠ slotAddr k ∧ u.pageDirectory ≠ slotAddr k := by
  have hT := h.task p t ht
  have hU := h.task q u hu
  obtain ⟨K, a, b, hK, _, _, _, haddr, _, hfa, hdir, _, hfb⟩ := hT.slots hp
  have hrole : L.role (frameOf (m.ram K k)) = .task p ∨ L.role (frameOf (m.ram K k)) = .dir p := by
    rcases ha with ha | ha
    · rw [← slotAddr_inj (haddr.symm.trans ha), hfa]
      exact Or.inl (hT.own hp)
    · rw [← slotAddr_inj (hdir.symm.trans ha), hfb]
      exact Or.inr hT.role
  by_cases hq : q = 0
  · obtain ⟨hdir0, hlt, _, haddr0, _⟩ := hU.boot hq
    simp only [KERNEL_MEMORY, PAGE_SIZE] at hdir0 haddr0
    constructor
    · intro he
      rw [he, slotAddr, PAGE_SIZE] at haddr0
      omega
    · intro he
      rw [he, slotAddr, PAGE_SIZE] at hdir0
      omega
  · obtain ⟨K', a', b', hK', _, _, _, haddr', _, hfa', hdir', _, hfb'⟩ := hU.slots hq
    obtain rfl : K' = K := Option.some.inj (hK'.symm.trans hK)
    constructor
    · intro he
      rw [← slotAddr_inj (haddr'.symm.trans he), hfa', hU.own hq] at hrole
      rcases hrole with hc | hc
      · exact hne (by simpa using hc)
      · cases hc
    · intro he
      rw [← slotAddr_inj (hdir'.symm.trans he), hfb', hU.role] at hrole
      rcases hrole with hc | hc
      · cases hc
      · exact hne (by simpa using hc)

/-- A slot of the kernel's page table is freed, with its frame. -/
def Machine.slotCleared (m : Machine) (K k : Nat) : Machine :=
  (m.drop (frameOf (m.ram K k))).setWord K k (absent (m.ram K k))

/-- `free_page` of a slot, in an address space with the page table `K` there. -/
theorem freeSlot_env (h : Env m) (h1 : present (m.ram m.cr3 769) = true) (h2 : frameOf (m.ram m.cr3 769) = K)
    (h3 : shared (m.ram m.cr3 769) = false) (hk : k < 1024) (hp : present (m.ram K k) = true) :
    Returns (freePageWith copy (slotAddr k)) m r m' ↔ m' = m.slotCleared K k := by
  have hpde : m.pde (slotAddr k) = m.ram m.cr3 769 := by
    rw [Machine.pde, show dirIndex (slotAddr k) = 769 from @dirIndex_slot k 0 hk (by decide)]
  have hi : pageTableIndex (slotAddr k) = k := @pageTableIndex_slot k 0 hk (by decide)
  have hpte : m.pte (slotAddr k) = m.ram K k := by rw [Machine.pte, hpde, h2, hi]
  rw [freePage_ok h (slot_lt hk) (hpde ▸ h3), hpde, hpte, h1, hp, h2, hi]
  exact Iff.rfl

theorem freeSlot_ok (h : Holds m L) (hK : L.ktab = some K) (hk : k < 1024) (hp : present (m.ram K k) = true) :
    Returns (freePageWith copy (slotAddr k)) m r m' ↔ m' = m.slotCleared K k := by
  obtain ⟨h1, h2, h3⟩ := h.curDir.ktab K hK
  exact freeSlot_env h.env h1 h2 h3 hk hp

/-- What `free_task` does to the task in slot `p`: the slots `b` of its directory and `a` of its structure are cleared. -/
structure TaskFreed (m : Machine) (L : Layout) (p K a b : Nat) (m' : Machine) : Prop where
  ktab : L.ktab = some K
  a_lt : a < 1024
  b_lt : b < 1024
  ne : a ≠ b
  a_present : present (m.ram K a) = true
  b_present : present (m.ram K b) = true
  gone : Sound { m with tasks := Function.update m.tasks p none } L (insert b (insert a ∅))
  dir : Sound (Machine.slotCleared { m with tasks := Function.update m.tasks p none } K b) L (insert a ∅)
  sound : Sound m' L ∅
  eq : m' = (Machine.slotCleared { m with tasks := Function.update m.tasks p none } K b).slotCleared K a

/-- **`free_task`.** -/
theorem freeTask_cases (alloc : Kernel Nat) (h : Sound m L ∅) (ht : m.tasks p = some t) (hp0 : p ≠ 0) (hpc : p ≠ m.current) :
    ∃ K a b s, t.addr = slotAddr a ∧ t.pageDirectory = slotAddr b ∧ TaskFreed m L p K a b s ∧
      ∀ r m', Returns (freeTask alloc t) m r m' ↔ m' = s := by
  have hT := h.holds.task p t ht
  obtain ⟨K, a, b, hK, ha, hb, hab, haddr, hpa, _, hdir, hpb, _⟩ := hT.slots hp0
  set m1 : Machine := { m with tasks := Function.update m.tasks p none } with hm1
  have hs1 : Sound m1 L (insert b (insert a ∅)) := by
    refine h.dropTask hp0 hpc fun u hu k hk => ?_
    obtain rfl : t = u := Option.some.inj (ht.symm.trans hu)
    rw [haddr, hdir] at hk
    rcases hk with hk | hk
    · rw [slotAddr_inj hk]
      simp
    · rw [slotAddr_inj hk]
      simp
  have hfree : ∀ {k}, (t.addr = slotAddr k ∨ t.pageDirectory = slotAddr k) → ∀ q u, m1.tasks q = some u →
      u.addr ≠ slotAddr k ∧ u.pageDirectory ≠ slotAddr k := by
    intro k hk q u hu
    have hq : q ≠ p := by
      rintro rfl
      rw [hm1] at hu
      exact absurd ((Function.update_self q none m.tasks).symm.trans hu) (by simp)
    have hu' : m.tasks q = some u := (Function.update_of_ne hq ..).symm.trans hu
    exact h.holds.slots_apart ht hu' hp0 hq hk
  -- the directory, and then the task structure
  have hs2 : Sound (m1.slotCleared K b) L (insert a ∅) :=
    (hs1.drop _).1.clearSlot hK hb (present_absent _) (by simpa using hfree (Or.inr hdir))
  have hKa : (m1.slotCleared K b).ram K a = m.ram K a := by
    rw [Machine.slotCleared, setWord_of_ne _ _ _ _ (Or.inr hab), drop_ram]
  have hs3 : Sound ((m1.slotCleared K b).slotCleared K a) L ∅ :=
    (hs2.drop _).1.clearSlot hK ha (present_absent _) (by simpa [Machine.slotCleared] using hfree (Or.inl haddr))
  refine ⟨K, a, b, (m1.slotCleared K b).slotCleared K a, haddr, hdir, ⟨hK, ha, hb, hab, hpa, hpb, hs1, hs2, hs3, rfl⟩, ?_⟩
  intro r m'
  rw [freeTask, hT.pid, Returns.bind_iff ((update_ok _ ()).mpr rfl), hdir, haddr, freePage, freePage,
    Returns.bind_iff ((freeSlot_ok (r := ()) hs1.holds hK hb hpb).mpr rfl)]
  exact freeSlot_ok hs2.holds hK ha (hKa.symm ▸ hpa)

theorem freeTask_ok (h : Sound m L ∅) (ht : m.tasks p = some t) (hp0 : p ≠ 0) (hpc : p ≠ m.current)
    (hr : Returns (freeTask alloc t) m r m') : ∃ K a b, TaskFreed m L p K a b m' := by
  obtain ⟨K, a, b, s, _, _, hF, hiff⟩ := freeTask_cases alloc h ht hp0 hpc
  obtain rfl := (hiff r m').mp hr
  exact ⟨K, a, b, hF⟩

theorem freeTask_sound (h : Sound m L ∅) (ht : m.tasks p = some t) (hp0 : p ≠ 0) (hpc : p ≠ m.current)
    (hr : Returns (freeTask alloc t) m r m') :
    Sound m' L ∅ ∧ m'.tasks = Function.update m.tasks p none ∧ m'.current = m.current ∧ m'.cr3 = m.cr3 ∧
      ∀ g, L.role g ≠ .kernelTable → m'.ram g = m.ram g := by
  obtain ⟨K, a, b, hF⟩ := freeTask_ok h ht hp0 hpc hr
  refine ⟨hF.sound, ?_, ?_, ?_, fun g hg => ?_⟩
  · rw [hF.eq, Machine.slotCleared, setWord_tasks, drop_tasks, Machine.slotCleared, setWord_tasks, drop_tasks]
  · rw [hF.eq, Machine.slotCleared, setWord_current, drop_current, Machine.slotCleared, setWord_current, drop_current]
  · rw [hF.eq, Machine.slotCleared, setWord_cr3, drop_cr3, Machine.slotCleared, setWord_cr3, drop_cr3]
  · have hgK : g ≠ K := fun he => hg (he ▸ h.holds.ktab_role K hF.ktab)
    funext j
    rw [hF.eq, Machine.slotCleared, setWord_of_ne _ _ _ _ (Or.inl hgK), drop_ram, Machine.slotCleared,
      setWord_of_ne _ _ _ _ (Or.inl hgK), drop_ram]

/-- **A round of `do_wait` that finds nothing** changes nothing. -/
theorem waitSlot_skip {statLoc i : Nat} (hskip : ∀ t, m.tasks i = some t → ¬ (t.ppid = m.cur.pid ∧ t.state = .stopped)) :
    Returns (waitSlot alloc statLoc i) m r m' ↔ m' = m := by
  rw [waitSlot, Returns.bind_iff ((gets_ok _).mpr ⟨rfl, rfl⟩), Returns.bind_iff ((gets_ok _).mpr ⟨rfl, rfl⟩)]
  cases ht : m.tasks i with
  | none => simp [pure_ok]
  | some t =>
    dsimp only
    rw [onlyIf_neg (decide_eq_false (hskip t ht))]
    simp [pure_ok]

theorem findsChild_iff :
    findsChild m = true ↔ ∃ i < MAX_TASKS, ∃ t, m.tasks i = some t ∧ t.ppid = m.cur.pid ∧ t.state = .stopped := by
  simp [findsChild, Option.any_eq_true]

/-- A scan that finds nothing changes nothing. -/
theorem scan_skip (hf : findsChild m = false) {statLoc : Nat}
    (hr : Returns (loop (waitSlot alloc statLoc) MAX_TASKS) m r m') : m' = m := by
  refine loop_ok (fun _ t => t = m) hr rfl ?_
  rintro i t t' hi rfl hround
  refine (waitSlot_skip fun u hu hc => ?_).mp hround
  exact Bool.false_ne_true (hf.symm.trans (findsChild_iff.mpr ⟨i, hi, u, hu, hc⟩))

/-- **One round of `do_wait`** by a task that is not stopped, with a status that goes below the kernel. -/
theorem waitSlot_sound (h : Sound m L ∅) (hA : ∀ m, Hands alloc m) (hrun : m.cur.state ≠ .stopped) {statLoc i : Nat}
    (hu : statLoc ≠ NULL → InUser statLoc 4) (hr : Returns (waitSlot alloc statLoc i) m r m') :
    ∃ L', Sound m' L' ∅ ∧ Halves (m, L) (m', L') ∧ m'.cur = m.cur := by
  rw [waitSlot, Returns.bind_iff ((gets_ok _).mpr ⟨rfl, rfl⟩), Returns.bind_iff ((gets_ok _).mpr ⟨rfl, rfl⟩)] at hr
  cases ht : m.tasks i with
  | none =>
    rw [ht] at hr
    obtain ⟨_, rfl⟩ := pure_ok.mp hr
    exact ⟨L, h, Std.Refl.refl _, rfl⟩
  | some t =>
    rw [ht] at hr
    dsimp only at hr
    by_cases hc : t.ppid = m.cur.pid ∧ t.state = .stopped
    swap
    · rw [onlyIf_neg (decide_eq_false hc)] at hr
      obtain ⟨_, rfl⟩ := pure_ok.mp hr
      exact ⟨L, h, Std.Refl.refl _, rfl⟩
    · rw [onlyIf_pos (decide_eq_true hc)] at hr
      have hic : i ≠ m.current := by
        rintro rfl
        rw [Machine.cur, ht, Option.getD_some] at hrun
        exact hrun hc.2
      have hi0 : i ≠ 0 := by
        intro hi
        have hppid := ((h.holds.task i t ht).boot hi).2.2.2.2
        rw [hppid, h.holds.curOk.pid] at hc
        exact hic (hi.trans hc.1)
      obtain ⟨_, m1, h1, hr⟩ := (bind_ok _ _ _).mp hr
      have hstore : Guards Stores (onlyIf (decide (statLoc ≠ NULL)) (storeBytes alloc statLoc (intByte t.exitStatus) 4)) :=
        Upholds.onlyIf_of fun hs => guards_storeBytes hA (hu hs) _
      obtain ⟨L1, hs1, l1⟩ := hstore m L _ m1 h h1
      have hun : Untouched m m1 := Within.onlyIf ((accesses_untouched (Hands.untouched hA)).storeBytes _ _ _) _ _ _ h1
      have ht1 : m1.tasks i = some t := by rw [hun.1, ht]
      have hic1 : i ≠ m1.current := by rwa [hun.2.1]
      obtain ⟨hs2, htasks, hcur, hcr3, hram⟩ := freeTask_sound hs1 ht1 hi0 hic1 hr
      refine ⟨L1, hs2, IsTrans.trans _ _ _ (l1.kept.halves h) ⟨rfl, ?_, ?_⟩, ?_⟩
      · intro q t' ht'
        by_cases hq : q = i
        · subst hq
          rw [htasks, Function.update_self] at ht'
          cases ht'
        · rw [htasks, Function.update_of_ne hq] at ht'
          exact ⟨t', ht', rfl⟩
      · intro q hq d _ _
        have hq' : (m1.tasks q).isSome := by
          rw [htasks] at hq
          by_cases hqi : q = i
          · subst hqi
            rw [Function.update_self] at hq
            cases hq
          · rwa [Function.update_of_ne hqi] at hq
        obtain ⟨t', ht'⟩ := Option.isSome_iff_exists.mp hq'
        refine congrFun (hram _ ?_) d
        rw [(hs1.holds.task q t' ht').role]
        simp
      · rw [← hun.cur, Machine.cur, Machine.cur, htasks, hcur, Function.update_of_ne hic1.symm]

/-- **`do_wait`**, one scan. -/
theorem doWait_sound (h : Sound m L ∅) (hA : ∀ m, Hands alloc m) (hrun : m.cur.state ≠ .stopped) {statLoc : Nat}
    (hu : findsChild m = true → statLoc ≠ NULL → InUser statLoc 4) (hr : Returns (doWait alloc statLoc) m r m') :
    ∃ L', Sound m' L' ∅ ∧ Halves (m, L) (m', L') := by
  rw [doWait, Returns.bind_iff ((gets_ok _).mpr ⟨rfl, rfl⟩)] at hr
  obtain ⟨_, m1, h1, hr⟩ := (bind_ok _ _ _).mp hr
  by_cases hf : findsChild m = true
  · obtain ⟨L1, hs1, l1, _⟩ := loop_ok
      (fun _ t => ∃ L', Sound t L' ∅ ∧ Halves (m, L) (t, L') ∧ t.cur = m.cur) h1 ⟨L, h, Std.Refl.refl _, rfl⟩ <| by
        rintro i t t' _ ⟨L1, hs1, l1, hcur⟩ hround
        obtain ⟨L2, hs2, l2, hcur2⟩ := waitSlot_sound hs1 hA (hcur ▸ hrun) (hu hf) hround
        exact ⟨L2, hs2, IsTrans.trans _ _ _ l1 l2, hcur2.trans hcur⟩
    rw [onlyIf_neg (by rw [hf]; rfl)] at hr
    obtain ⟨_, rfl⟩ := pure_ok.mp hr
    exact ⟨L1, hs1, l1⟩
  · have hf := Bool.of_not_eq_true hf
    obtain rfl := scan_skip hf h1
    rw [onlyIf_pos (by rw [hf]; rfl)] at hr
    rw [(update_ok _ _).mp hr]
    obtain ⟨hs2, l2⟩ := h.retask (sameTasks_setCur (t := { m1.cur with state := .waiting }) h.holds.cur rfl) rfl
    exact ⟨L, hs2, l2.halves h⟩

end Wait

/-! ## The bounds of the heaps -/

/-- The break, the data and the stack lie below the kernel. -/
def TaskStruct.InBounds (t : TaskStruct) : Prop :=
  t.brk ≤ KERNEL_MEMORY ∧ t.dataEnd ≤ KERNEL_MEMORY ∧ t.stackStart ≤ KERNEL_MEMORY

def Bounded (m : Machine) : Prop := ∀ p t, m.tasks p = some t → t.InBounds

/-- A relation for `Within`. -/
def KeepsBounds (m m' : Machine) : Prop := Bounded m → Bounded m'

instance : Std.Refl KeepsBounds := ⟨fun _ h => h⟩

instance : IsTrans Machine KeepsBounds := ⟨fun _ _ _ h k hb => k (h hb)⟩

section Bounded

variable {alloc : Kernel Nat} {m m' : Machine} {L L' : Layout} {p : Nat} {t : TaskStruct} {file : File} {u : Unit}

theorem Bounded.cur (h : Bounded m) : m.cur.InBounds := by
  rw [Machine.cur]
  cases ht : m.tasks m.current with
  | none => exact ⟨Nat.zero_le _, Nat.zero_le _, Nat.zero_le _⟩
  | some t => exact h _ t ht

theorem Bounded.update {p : Nat} {o : Option TaskStruct} (h : Bounded m) (ho : ∀ t, o = some t → t.InBounds) {q : Nat}
    {t : TaskStruct} (ht : Function.update m.tasks p o q = some t) : t.InBounds := by
  by_cases hq : q = p
  · subst hq
    rw [Function.update_self] at ht
    exact ho t ht
  · rw [Function.update_of_ne hq] at ht
    exact h q t ht

theorem keepsBounds {α : Type} {x : Kernel α} (h : Within Untouched x) : Within KeepsBounds x := by
  intro m a m' hr hb p t ht
  rw [(h m a m' hr).1] at ht
  exact hb p t ht

theorem bounded_setCur {g : TaskStruct → TaskStruct} (hg : ∀ t, t.InBounds → (g t).InBounds) :
    Within KeepsBounds (update fun m => m.setCur (g m.cur) : Kernel Unit) := by
  refine within_update fun m hb p t ht => ?_
  exact hb.update (fun t' ht' => Option.some.inj ht' ▸ hg _ hb.cur) ht

theorem bounded_wakeParent : Within KeepsBounds (update wakeParent : Kernel Unit) := by
  refine within_update fun m hb => ?_
  rw [wakeParent]
  cases hp : m.tasks m.cur.ppid with
  | none => exact hb
  | some p =>
    show Bounded (if p.state = .waiting then _ else m)
    by_cases hw : p.state = .waiting
    · rw [if_pos hw]
      intro q t ht
      refine hb.update (fun t' ht' => ?_) ht
      obtain rfl := Option.some.inj ht'
      exact hb _ p hp
    · rw [if_neg hw]
      exact hb

theorem bounded_doExit (hA : Within Untouched alloc) (status : Int) : Within KeepsBounds (doExit alloc status) :=
  (within_gets _).bind fun _ => (Within.onlyIf (within_stop _)).bind fun _ =>
    (bounded_setCur (g := fun t => { t with exitStatus := status, state := .stopped }) fun _ h => h).bind fun _ =>
      (keepsBounds ((accesses_untouched hA).freeMemUsr)).bind fun _ => bounded_wakeParent

theorem bounded_freeTask (hA : Within Untouched alloc) (t : TaskStruct) : Within KeepsBounds (freeTask alloc t) := by
  refine Within.bind (within_update fun m hb p t' ht' => ?_) fun _ => ?_
  · exact hb.update (fun t' ht' => by cases ht') ht'
  · exact (keepsBounds ((accesses_untouched hA).freePage _)).bind fun _ => (keepsBounds ((accesses_untouched hA).freePage _))

theorem bounded_doWait (hA : Within Untouched alloc) (statLoc : Nat) : Within KeepsBounds (doWait alloc statLoc) := by
  refine (within_gets _).bind fun _ => (Within.loop (fun i => ?_) _).bind fun _ => Within.onlyIf ?_
  · refine (within_gets _).bind fun cur => (within_gets _).bind fun slot => ?_
    cases slot with
    | none => exact within_pure _
    | some t =>
      refine Within.onlyIf ((Within.onlyIf ?_).bind fun _ => bounded_freeTask hA t)
      exact (keepsBounds ((accesses_untouched hA).storeBytes _ _ _))
  · exact bounded_setCur (g := fun t => { t with state := .waiting }) fun _ h => h

theorem bounded_doSbrk (incr : Int) : Within KeepsBounds (doSbrk incr) := by
  intro m r m' hr hb
  rw [doSbrk, Returns.bind_iff ((gets_ok _).mpr ⟨rfl, rfl⟩)] at hr
  dsimp only at hr
  split at hr
  · rename_i hc
    obtain ⟨_, m1, h1, hr⟩ := (bind_ok _ _ _).mp hr
    obtain ⟨_, rfl⟩ := pure_ok.mp hr
    obtain ⟨_, hd, hs⟩ := hb.cur
    rw [(update_ok _ _).mp h1]
    intro p t ht
    refine hb.update (fun t' ht' => ?_) ht
    obtain rfl := Option.some.inj ht'
    exact ⟨hc.2.le.trans hs, hd, hs⟩
  · obtain ⟨_, rfl⟩ := pure_ok.mp hr
    exact hb

theorem setBounds_inBounds {h : Phdr} (hs : h.stop ≤ KERNEL_MEMORY) {t : TaskStruct} (ht : t.InBounds) :
    (h.setBounds t).InBounds := by
  rw [Phdr.setBounds]
  split
  · exact ht
  · split
    · exact ⟨ht.1, hs, ht.2.2⟩
    · exact ht

theorem bounded_loadSegment (hA : Within Untouched alloc) {h : Phdr}
    (hs : h.pType ≠ PT_NULL → h.pVaddr + h.pMemsz ≤ KERNEL_MEMORY) : Within KeepsBounds (loadSegment alloc file h) := by
  rw [loadSegment]
  by_cases hn : h.pType = PT_NULL
  · rw [if_pos hn]
    exact within_pure _
  · rw [if_neg hn]
    refine (bounded_setCur fun t ht => setBounds_inBounds (stop_le (hs hn) ▸ hs hn) ht).bind fun _ => ?_
    refine (keepsBounds ((accesses_untouched hA).allocPages _ _ _)).bind fun _ => ?_
    refine (keepsBounds ((accesses_untouched hA).storeBytes _ _ _)).bind fun _ => Within.onlyIf ?_
    exact (keepsBounds ((accesses_untouched hA).storeBytes _ _ _))

theorem bounded_forM (hA : Within Untouched alloc) : ∀ hs : List Phdr,
    (∀ h ∈ hs, h.pType ≠ PT_NULL → h.pVaddr + h.pMemsz ≤ KERNEL_MEMORY) →
      Within KeepsBounds (hs.forM (loadSegment alloc file))
  | [], _ => within_pure _
  | h :: hs, hb => (bounded_loadSegment hA (hb h List.mem_cons_self)).bind fun _ =>
      bounded_forM hA hs fun h' hm => hb h' (List.mem_cons_of_mem _ hm)

theorem bounded_loadFile (hA : Within Untouched alloc) (hb : file.Below) : Within KeepsBounds (loadFile alloc file) := by
  rw [loadFile]
  rw [File.Below] at hb
  have heip : ∀ eip, Within KeepsBounds (setEip eip) := fun eip =>
    bounded_setCur (g := fun t => { t with stackFrame := { t.stackFrame with eip := eip } }) fun _ h => h
  cases he : isElfFile file with
  | true =>
    rw [he, if_pos rfl] at hb
    rw [if_pos rfl]
    refine (Within.onlyIf (within_stop _)).bind fun _ => (bounded_forM hA _ fun h hm hn => ?_).bind fun _ => heip _
    exact hb h (List.mem_filter.mpr ⟨hm, decide_eq_true hn⟩)
  | false =>
    rw [he, if_neg Bool.false_ne_true] at hb
    rw [if_neg Bool.false_ne_true]
    refine (keepsBounds ((accesses_untouched hA).allocPages _ _ _)).bind fun _ => ?_
    have hset : Within KeepsBounds (update fun m => m.setCur { m.cur with dataEnd := file.size } : Kernel Unit) :=
      bounded_setCur (g := fun t => { t with dataEnd := file.size }) fun _ h => ⟨h.1, hb, h.2.2⟩
    exact hset.bind fun _ => (keepsBounds ((accesses_untouched hA).storeBytes _ _ _)).bind fun _ => heip 0

theorem mapPage_value {f addr v : Nat} {flags : Word} (hr : Returns (mapPage alloc f addr flags) m v m') : v = addr := by
  obtain ⟨_, _, _, hr⟩ := (bind_ok _ _ _).mp hr
  obtain ⟨_, _, _, hr⟩ := (bind_ok _ _ _).mp hr
  obtain ⟨_, _, _, hr⟩ := (bind_ok _ _ _).mp hr
  obtain ⟨_, _, _, hr⟩ := (bind_ok _ _ _).mp hr
  obtain ⟨_, _, _, hr⟩ := (bind_ok _ _ _).mp hr
  obtain ⟨_, _, _, hr⟩ := (bind_ok _ _ _).mp hr
  exact (pure_ok.mp hr).1

theorem bounded_doExecve (hA : Within Untouched alloc) {o : Option File} (hb : ∀ f, o = some f → f.Below) :
    Within KeepsBounds (doExecve alloc o) := by
  cases o with
  | none => exact within_pure _
  | some file =>
    refine (keepsBounds ((accesses_untouched hA).freeMemUsr)).bind fun _ => (keepsBounds hA).bind fun frame => ?_
    intro m r m' hr hB
    obtain ⟨stack, m1, h1, hr⟩ := (bind_ok _ _ _).mp hr
    obtain rfl := mapPage_value h1
    refine ((bounded_loadFile hA (hb file rfl)).bind fun _ => Within.bind
      (bounded_setCur (g := startTask (KERNEL_MEMORY - PAGE_SIZE)) fun t ht => ?_) fun _ => within_pure _)
      m1 r m' hr ((keepsBounds ((accesses_untouched hA).mapPage _ _ _)) _ _ _ h1 hB)
    exact ⟨ht.2.1, ht.2.1, Nat.sub_le _ _⟩

theorem Forked.bounded {child : TaskStruct} (hF : Forked m L m' L' p child) (hb : Bounded m) : Bounded m' := by
  intro q t ht
  rw [hF.tasks] at ht
  refine hb.update (fun t' ht' => ?_) ht
  obtain ⟨a, b, hfields⟩ := hF.fields
  rw [← Option.some.inj ht', hfields]
  exact hb.cur

end Bounded

/-! ## One step -/

/-- An image lies below the kernel, and so does what `do_wait` and `do_read` store, which do not look; and user mode does
not write to page tables. -/
def Act.Proper (m : Machine) : Act → Prop
  | .execve (some file) => file.Below
  | .wait statLoc => findsChild m = true → statLoc ≠ NULL → InUser statLoc 4
  | .read buf bytes => InUser buf bytes.length
  | .store addr _ => addr < KERNEL_MEMORY ∨ permits m addr true = false
  | _ => True

section Step

variable {alloc : Kernel Nat} {m m' : Machine} {L : Layout} {T : Finset Nat} {a : Act} {es : List Empty} {addr : Nat}
  {b : UInt8} {u : Unit}

theorem step_ok : step alloc m a = some (m', es) ↔ a.enabled m = true ∧ Returns (a.run alloc) m () m' := by
  have hes : es = [] := by
    cases es with
    | nil => rfl
    | cons e _ => cases e
  subst hes
  rw [step]
  by_cases hen : a.enabled m = true
  · rw [if_pos hen]
    unfold Returns
    cases hrun : a.run alloc m with
    | error e => simp
    | ok r => simp [hen, Prod.ext_iff]
  · rw [if_neg hen]
    simp [hen]

theorem userFault_sound (h : Sound m L ∅) (hA : ∀ m, Hands alloc m) (hb : Bounded m) (hlt : addr < 2 ^ 32)
    (hr : Returns (userFault alloc addr) m u m') : ∃ L', Sound m' L' ∅ ∧ Local m L m' L' := by
  rw [userFault, Returns.bind_iff ((gets_ok _).mpr ⟨rfl, rfl⟩)] at hr
  exact pageFault_sound hA h (by simp) hlt hb.cur.1 hr

theorem userStore_sound (h : Sound m L ∅) (hA : ∀ m, Hands alloc m) (hb : Bounded m) (hlt : addr < 2 ^ 32)
    (hc : addr < KERNEL_MEMORY ∨ permits m addr true = false) (hr : Returns (userStore alloc addr b) m u m') :
    ∃ L', Sound m' L' ∅ ∧ Kept (m, L) (m', L') := by
  rw [userStore, Returns.bind_iff ((gets_ok _).mpr ⟨rfl, rfl⟩)] at hr
  cases hp : permits m addr true with
  | true =>
    rw [hp, if_pos rfl] at hr
    have ha : addr < KERNEL_MEMORY := hc.resolve_right (by rw [hp]; simp)
    obtain ⟨L', hs, hl⟩ := guards_pokeByte ha m L u m' h hr
    exact ⟨L', hs, hl.kept⟩
  | false =>
    rw [hp, if_neg Bool.false_ne_true] at hr
    obtain ⟨L', hs, hl⟩ := userFault_sound h hA hb hlt hr
    exact ⟨L', hs, hl.kept⟩

theorem userLoad_sound (h : Sound m L ∅) (hA : ∀ m, Hands alloc m) (hb : Bounded m) (hlt : addr < 2 ^ 32)
    (hr : Returns (userLoad alloc addr) m u m') : ∃ L', Sound m' L' ∅ ∧ Local m L m' L' := by
  rw [userLoad, Returns.bind_iff ((gets_ok _).mpr ⟨rfl, rfl⟩)] at hr
  cases hp : permits m addr false with
  | true =>
    rw [hp, Bool.not_true, onlyIf_neg rfl] at hr
    obtain ⟨_, rfl⟩ := pure_ok.mp hr
    exact ⟨L, h, Local.refl _ _⟩
  | false =>
    rw [hp, Bool.not_false, onlyIf_pos rfl] at hr
    exact userFault_sound h hA hb hlt hr

theorem doSbrk_sound (h : Sound m L ∅) {incr r : Int} (hr : Returns (doSbrk incr) m r m') :
    Sound m' L ∅ ∧ Local m L m' L := by
  rcases doSbrk_ok hr with ⟨_, n, rfl⟩ | ⟨_, rfl⟩
  · exact h.retask (sameTasks_setCur (t := { m.cur with brk := n }) h.holds.cur rfl) rfl
  · exact ⟨h, Local.refl _ _⟩

/-- **One step**: a fork, or a step that leaves the kernel halves alone. -/
theorem step_cases (h : Sound m L ∅) (hA : ∀ m, Hands alloc m) (hb : Bounded m) (hc : a.Proper m)
    (hst : step alloc m a = some (m', es)) :
    (a = .fork ∧ ∃ L' p child, Forked m L m' L' p child ∧ Sound m' L' ∅) ∨
      (a ≠ .fork ∧ ∃ L', Sound m' L' ∅ ∧ Halves (m, L) (m', L')) := by
  obtain ⟨hen, hr⟩ := step_ok.mp hst
  have hlocal : ∀ {L'}, Sound m' L' ∅ ∧ Local m L m' L' → ∃ L', Sound m' L' ∅ ∧ Halves (m, L) (m', L') :=
    fun ⟨hs, hl⟩ => ⟨_, hs, hl.halves h⟩
  cases a with
  | «fork» => exact Or.inl ⟨rfl, doFork_cases h hA hr⟩
  | switch next =>
    refine Or.inr ⟨by simp, ?_⟩
    obtain ⟨t, ht, _⟩ := Option.any_eq_true _ _ |>.mp hen
    rw [(switchTask_ok h.holds ht).mp hr]
    exact ⟨L, h.switch ht, rfl, fun q t' ht' => ⟨t', ht', rfl⟩, fun _ _ _ _ _ => rfl⟩
  | exit status =>
    obtain ⟨L', hs⟩ := doExit_sound h hA hr
    exact Or.inr ⟨by simp, hlocal hs⟩
  | wait statLoc =>
    have hrun : m.cur.state ≠ .stopped := by
      rw [of_decide_eq_true hen]
      decide
    exact Or.inr ⟨by simp, doWait_sound h hA hrun hc hr⟩
  | execve file =>
    obtain ⟨_, m1, h1, hr⟩ := (bind_ok _ _ _).mp hr
    obtain ⟨_, rfl⟩ := pure_ok.mp hr
    have hbelow : ∀ f, file = some f → f.Below := by
      rintro f rfl
      exact hc
    obtain ⟨L', hs⟩ := doExecve_sound hA h hbelow h1
    exact Or.inr ⟨by simp, hlocal hs⟩
  | sbrk incr =>
    obtain ⟨_, m1, h1, hr⟩ := (bind_ok _ _ _).mp hr
    obtain ⟨_, rfl⟩ := pure_ok.mp hr
    exact Or.inr ⟨by simp, hlocal (doSbrk_sound h h1)⟩
  | read buf bytes =>
    obtain ⟨L', hs, hl⟩ := guards_storeBytes hA hc _ m L () m' h hr
    exact Or.inr ⟨by simp, L', hs, hl.kept.halves h⟩
  | store addr b =>
    have hlt : addr < 2 ^ 32 := of_decide_eq_true (Bool.and_eq_true_iff.mp hen).2
    obtain ⟨L', hs, hk⟩ := userStore_sound h hA hb hlt hc hr
    exact Or.inr ⟨by simp, L', hs, hk.halves h⟩
  | load addr =>
    have hlt : addr < 2 ^ 32 := of_decide_eq_true (Bool.and_eq_true_iff.mp hen).2
    obtain ⟨L', hs⟩ := userLoad_sound h hA hb hlt hr
    exact Or.inr ⟨by simp, hlocal hs⟩

/-- The heaps stay below the kernel, when the step is no fork. -/
theorem run_bounded (h : Sound m L T) (hU : Within Untouched alloc) (hb : Bounded m) (hc : a.Proper m) (hne : a ≠ .fork)
    (hst : step alloc m a = some (m', es)) : Bounded m' := by
  obtain ⟨hen, hr⟩ := step_ok.mp hst
  have hfault : ∀ addr, Within KeepsBounds (userFault alloc addr) := fun addr =>
    (within_gets _).bind fun _ => keepsBounds ((accesses_untouched hU).pageFault _ _)
  cases a with
  | «fork» => exact absurd rfl hne
  | switch next =>
    obtain ⟨t, ht, _⟩ := Option.any_eq_true _ _ |>.mp hen
    rw [(switchTask_ok h.holds ht).mp hr]
    exact hb
  | exit status => exact bounded_doExit hU status _ _ _ hr hb
  | wait statLoc => exact bounded_doWait hU statLoc _ _ _ hr hb
  | execve file =>
    refine (bounded_doExecve hU ?_).bind (fun _ => within_pure _) _ _ _ hr hb
    rintro f rfl
    exact hc
  | sbrk incr => exact (bounded_doSbrk incr).bind (fun _ => within_pure _) _ _ _ hr hb
  | read buf bytes => exact keepsBounds ((accesses_untouched hU).storeBytes _ _ _) _ _ _ hr hb
  | store addr b =>
    have hstore : Within KeepsBounds (userStore alloc addr b) :=
      (within_gets _).bind fun _ => Within.ite (keepsBounds ((accesses_untouched hU).pokeByte addr b)) (hfault addr)
    exact hstore _ _ _ hr hb
  | load addr =>
    have hload : Within KeepsBounds (userLoad alloc addr) :=
      (within_gets _).bind fun _ => Within.onlyIf (hfault addr)
    exact hload _ _ _ hr hb

/-- The heaps stay below the kernel. -/
theorem step_bounded (h : Sound m L ∅) (hA : ∀ m, Hands alloc m) (hb : Bounded m) (hc : a.Proper m)
    (hst : step alloc m a = some (m', es)) : Bounded m' := by
  by_cases hf : a = .fork
  · subst hf
    obtain ⟨L', p, child, hF, _⟩ := doFork_cases h hA (step_ok.mp hst).2
    exact hF.bounded hb
  · exact run_bounded h (Hands.untouched hA) hb hc hf hst

end Step

end Raampjes.Mm
