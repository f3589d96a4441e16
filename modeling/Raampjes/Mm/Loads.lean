import Raampjes.Mm.Pages

/-!
# Stores of the kernel, and loading

- `Stores`: what stores to user memory and the loading of a file keep: the layout of the kernel half always, and
  everything of the other tasks when no page is shared with them (`Private`);
- `LoadSteps`: what storing and loading are made of; `LoadSteps.storeBytes`, `LoadSteps.loadFile`: every invariant that
  these steps keep is kept by the functions;
- `loadSteps_sound`, `guards_storeBytes`, `guards_loadFile`: the steps and the functions keep the layout;
- `doExecve_sound`: `do_execve` of an image below the kernel leaves the other tasks alone.
-/

namespace Raampjes.Mm

open Progs Sched

/-! ## What is kept -/

/-- The tasks, the frames of the directories and the kernel half. -/
structure Kept (c c' : Machine × Layout) : Prop where
  same : SameTasks c.1 c'.1
  pt1 : c'.2.pt1 = c.2.pt1
  dir : c'.2.dir = c.2.dir
  own : c'.2.own = c.2.own
  ktab : c'.2.ktab = c.2.ktab
  high : ∀ d, 768 ≤ d → d < 1024 → c'.1.ram c.1.cr3 d = c.1.ram c.1.cr3 d
  dirs : ∀ q t, c.1.tasks q = some t → q ≠ c.1.current → c'.1.ram (c.2.dir q) = c.1.ram (c.2.dir q)

instance : Std.Refl Kept := ⟨fun c => ⟨SameTasks.refl c.1, rfl, rfl, rfl, rfl, fun _ _ _ => rfl, fun _ _ _ _ => rfl⟩⟩

instance : IsTrans (Machine × Layout) Kept := by
  refine ⟨fun a b c h h' => ⟨h.same.trans h'.same, h'.pt1.trans h.pt1, h'.dir.trans h.dir, h'.own.trans h.own,
    h'.ktab.trans h.ktab, fun d hd hlt => ?_, fun q t ht hq => ?_⟩⟩
  · rw [← h.same.cr3, h'.high d hd hlt, h.same.cr3, h.high d hd hlt]
  · obtain ⟨t', ht', _⟩ := h.same.get ht
    have hq' : q ≠ b.1.current := h.same.current ▸ hq
    have hnext := h'.dirs q t' ht' hq'
    rw [h.dir] at hnext
    exact hnext.trans (h.dirs q t ht hq)

/-- No page of the running task is a frame of another. -/
def Private (c : Machine × Layout) : Prop :=
  ∀ d i, HasPage c.1.ram c.1.cr3 d i → ¬ Foreign c.1 c.2 (pageOf c.1.ram c.1.cr3 d i)

/-- What a store of the kernel to user memory keeps. -/
structure Stores (c c' : Machine × Layout) : Prop where
  kept : Kept c c'
  private_ : Private c → Private c' ∧ Local c.1 c.2 c'.1 c'.2

instance : Std.Refl Stores := ⟨fun c => ⟨Std.Refl.refl c, fun h => ⟨h, Local.refl c.1 c.2⟩⟩⟩

instance : IsTrans (Machine × Layout) Stores := by
  refine ⟨fun a b c h h' => ⟨IsTrans.trans _ _ _ h.kept h'.kept, fun hp => ?_⟩⟩
  obtain ⟨hp1, l1⟩ := h.private_ hp
  obtain ⟨hp2, l2⟩ := h'.private_ hp1
  exact ⟨hp2, l1.trans l2⟩

section Kept

variable {m m' : Machine} {L L' : Layout}

theorem Local.kept (h : Local m L m' L') : Kept (m, L) (m', L') :=
  ⟨h.same, h.pt1, h.dir, h.own, h.ktab, h.high, fun q t ht hq => h.other _ ⟨q, t, ht, hq, Or.inl rfl⟩⟩

theorem Local.foreign_iff (h : Local m L m' L') {f : Nat} : Foreign m' L' f ↔ Foreign m L f := by
  refine ⟨?_, h.foreign⟩
  rintro ⟨q, t', ht', hq, hcase⟩
  obtain ⟨t, ht, _⟩ := h.same.symm.get ht'
  have hq' : q ≠ m.current := h.same.current ▸ hq
  have hdir : m'.ram (L.dir q) = m.ram (L.dir q) := h.other _ ⟨q, t, ht, hq', Or.inl rfl⟩
  rw [h.dir, hdir] at hcase
  refine ⟨q, t, ht, hq', ?_⟩
  rcases hcase with rfl | hcase | ⟨d, i, hpage, rfl⟩
  · exact Or.inl rfl
  · exact Or.inr (Or.inl hcase)
  · right; right
    obtain ⟨hd, hi, hp, hpi⟩ := hpage
    rw [hdir] at hp hpi
    have htab : m'.ram (frameOf (m.ram (L.dir q) d)) = m.ram (frameOf (m.ram (L.dir q) d)) :=
      h.other _ ⟨q, t, ht, hq', Or.inr (Or.inl ⟨d, hd, hp, rfl⟩)⟩
    rw [htab] at hpi
    refine ⟨d, i, ⟨hd, hi, hp, hpi⟩, ?_⟩
    rw [pageOf, pageOf, hdir, htab]

/-- The same pages are as private as before. -/
theorem Local.stores_of_samePages (h : Local m L m' L') (hs : SamePages m.ram m'.ram m.cr3) : Stores (m, L) (m', L') := by
  refine ⟨h.kept, fun hp => ⟨?_, h⟩⟩
  intro d i hpage hf
  simp only [h.same.cr3] at hpage hf
  rw [h.foreign_iff, pageOf_eq] at hf
  obtain ⟨hiff, heq⟩ := hs d i
  rw [heq (hiff.mp hpage)] at hf
  exact hp d i (hiff.mp hpage) hf

end Kept

/-! ## Where the kernel stores for a program -/

section Below

variable {alloc : Kernel Nat} {m m' : Machine} {addr n : Nat} {bytes : Nat → UInt8} {u : Unit}

theorem storeUser_user (alloc : Kernel Nat) (ha : addr < KERNEL_MEMORY) {b : UInt8} :
    storeUser alloc addr b = kernelStore alloc addr b 2 := if_pos (Or.inl ha)

/-- The `n` places from `addr` on, which wraps, are below the kernel. -/
def InUser (addr n : Nat) : Prop := ∀ i < n, (addr + i) % 2 ^ 32 < KERNEL_MEMORY

theorem inUser_of_le (hend : addr + n ≤ KERNEL_MEMORY) : InUser addr n := by
  intro i hi
  have hlt : addr + i < KERNEL_MEMORY := by omega
  rwa [Nat.mod_eq_of_lt (user_lt hlt)]

/-- **Stores that begin below the kernel end there**: the first byte of the kernel stops them. -/
theorem storeBytes_inUser (ha : addr ≤ KERNEL_MEMORY) (hr : Returns (storeBytes alloc addr bytes n) m u m') :
    InUser addr n := by
  suffices hend : addr + n ≤ KERNEL_MEMORY from inUser_of_le hend
  induction n generalizing m' u with
  | zero => exact ha
  | succ n ih =>
    obtain ⟨_, m1, h1, hr⟩ := (bind_ok _ _ _).mp hr
    rcases Nat.lt_or_eq_of_le (ih h1) with hlt | heq
    · exact hlt
    · have hlast : (addr + n) % 2 ^ 32 = KERNEL_MEMORY := by
        rw [heq]
        decide
      dsimp only at hr
      rw [hlast, storeUser, if_neg (by decide)] at hr
      exact absurd hr (stop_ok _)

end Below

/-! ## What loading is made of -/

/-- The image of the file ends below the kernel. -/
def File.Below (file : File) : Prop :=
  if isElfFile file then ∀ h ∈ file.taken, h.pVaddr + h.pMemsz ≤ KERNEL_MEMORY else file.size ≤ KERNEL_MEMORY

theorem stop_le {h : Phdr} (hb : h.pVaddr + h.pMemsz ≤ KERNEL_MEMORY) : h.stop = h.pVaddr + h.pMemsz := by
  rw [KERNEL_MEMORY] at hb
  rw [Phdr.stop, Nat.mod_eq_of_lt (by omega)]

theorem plain_pageFlags (h : Phdr) : Plain h.pageFlags := by
  rw [Phdr.pageFlags]
  split
  · exact plain_userRw
  · exact plain_user

theorem setBounds_key (h : Phdr) (t : TaskStruct) :
    (h.setBounds t).key = t.key ∧ (h.setBounds t).state = t.state := by
  rw [Phdr.setBounds]
  split
  · exact ⟨rfl, rfl⟩
  · split <;> exact ⟨rfl, rfl⟩

/-- The steps of `load_file` keep the invariant `I`: stores to present pages, page faults of the kernel, new pages, and
fields of the running task. -/
structure LoadSteps (alloc : Kernel Nat) (I : Machine → Layout → Prop) (R : Machine × Layout → Machine × Layout → Prop) :
    Prop where
  poke : ∀ addr b, addr < KERNEL_MEMORY → Upholds I R (pokeByte addr b)
  fault : ∀ addr m L u m', addr < KERNEL_MEMORY → I m L → walk m.ram m.cr3 addr = none →
    Returns (pfNonPresent alloc addr) m u m' → ∃ L', I m' L' ∧ R (m, L) (m', L')
  page : ∀ flags i, Plain flags → i * PAGE_SIZE ≤ KERNEL_MEMORY → Upholds I R (allocPageAt alloc flags i)
  retask : ∀ g : Machine → TaskStruct, (∀ m, (g m).key = m.cur.key ∧ (g m).state = m.cur.state) → Upholds I R (update fun m => m.setCur (g m) : Kernel Unit)

section LoadSteps

variable {alloc : Kernel Nat} {I : Machine → Layout → Prop} {R : Machine × Layout → Machine × Layout → Prop} [IsTrans _ R]
  (hS : LoadSteps alloc I R)

include hS

theorem LoadSteps.kernelStore {addr : Nat} (ha : addr < KERNEL_MEMORY) (b : UInt8) :
    ∀ n, Upholds I R (kernelStore alloc addr b n)
  | 0 => hS.poke addr b ha
  | n + 1 => by
    intro m L u m' h hr
    rw [Mm.kernelStore, Returns.bind_iff ((gets_ok _).mpr ⟨rfl, rfl⟩)] at hr
    cases hw : walk m.ram m.cr3 addr with
    | some f =>
      rw [hw, Option.isSome_some, if_pos rfl] at hr
      exact hS.poke addr b ha m L u m' h hr
    | none =>
      rw [hw, Option.isSome_none, if_neg Bool.false_ne_true] at hr
      obtain ⟨_, m1, h1, hr⟩ := (bind_ok _ _ _).mp hr
      obtain ⟨L1, hI1, hR1⟩ := hS.fault addr m L _ m1 ha h hw h1
      obtain ⟨L2, hI2, hR2⟩ := LoadSteps.kernelStore ha b n m1 L1 u m' hI1 hr
      exact ⟨L2, hI2, IsTrans.trans _ _ _ hR1 hR2⟩

theorem LoadSteps.storeUser {addr : Nat} (ha : addr < KERNEL_MEMORY) (b : UInt8) : Upholds I R (storeUser alloc addr b) := by
  rw [storeUser_user alloc ha]
  exact hS.kernelStore ha b 2

variable [Std.Refl R]

theorem LoadSteps.storeBytes {addr n : Nat} (hu : InUser addr n) (bytes : Nat → UInt8) :
    Upholds I R (storeBytes alloc addr bytes n) := Upholds.loop fun i hi => hS.storeUser (hu i hi) _

theorem LoadSteps.storeFrom {addr : Nat} (ha : addr ≤ KERNEL_MEMORY) (bytes : Nat → UInt8) (n : Nat) :
    Upholds I R (Mm.storeBytes alloc addr bytes n) := fun m L u m' h hr =>
  hS.storeBytes (storeBytes_inUser ha hr) bytes m L u m' h hr

theorem LoadSteps.allocPages {flags : Word} (hfl : Plain flags) {b e : Nat} (he : e ≤ KERNEL_MEMORY) :
    Upholds I R (allocPages alloc b e flags) := by
  refine Upholds.loop fun i hi => hS.page flags _ hfl ?_
  have hle := Nat.div_mul_le_self e PAGE_SIZE
  have hmul : (b / PAGE_SIZE + i) * PAGE_SIZE ≤ e / PAGE_SIZE * PAGE_SIZE := Nat.mul_le_mul_right _ (by omega)
  exact hmul.trans (hle.trans he)

theorem LoadSteps.loadSegment (file : File) {h : Phdr}
    (hb : h.pType ≠ PT_NULL → h.pVaddr + h.pMemsz ≤ KERNEL_MEMORY) : Upholds I R (loadSegment alloc file h) := by
  rw [Mm.loadSegment]
  by_cases hn : h.pType = PT_NULL
  · rw [if_pos hn]
    exact upholds_pure ()
  · rw [if_neg hn]
    refine (hS.retask _ fun m => setBounds_key h m.cur).bind fun _ => ?_
    refine (hS.allocPages (plain_pageFlags h) (stop_le (hb hn) ▸ hb hn)).bind fun _ => ?_
    have hle := hb hn
    exact (hS.storeFrom (by omega) _ _).bind fun _ => Upholds.onlyIf_of fun hlt => hS.storeFrom (by omega) _ _

/-- **Loading a file** keeps what its steps keep. -/
theorem LoadSteps.loadFile {file : File} (hb : file.Below) : Upholds I R (loadFile alloc file) := by
  rw [Mm.loadFile]
  rw [File.Below] at hb
  have heip : ∀ eip, Upholds I R (setEip eip) := fun eip => hS.retask _ fun _ => ⟨rfl, rfl⟩
  cases he : isElfFile file with
  | true =>
    rw [he, if_pos rfl] at hb
    rw [if_pos rfl]
    refine (Upholds.onlyIf (upholds_stop _)).bind fun _ => (Upholds.forM _ fun h hm => ?_).bind fun _ => heip _
    exact hS.loadSegment file fun hn => hb h (List.mem_filter.mpr ⟨hm, decide_eq_true hn⟩)
  | false =>
    rw [he, if_neg Bool.false_ne_true] at hb
    rw [if_neg Bool.false_ne_true]
    refine (hS.allocPages plain_userRw hb).bind fun _ => ?_
    have hset : Upholds I R (update fun m => m.setCur { m.cur with dataEnd := file.size } : Kernel Unit) :=
      hS.retask (fun m => { m.cur with dataEnd := file.size }) fun _ => ⟨rfl, rfl⟩
    exact hset.bind fun _ => (hS.storeFrom (Nat.zero_le _) file.bytes file.size).bind fun _ => heip 0

end LoadSteps

section Stores

variable {alloc : Kernel Nat} {m m' : Machine} {L L' : Layout} {addr f a : Nat} {flags : Word} {u : Unit}

theorem pokeByte_ok {b : UInt8} :
    Returns (pokeByte addr b) m u m' ↔ ∃ f, walk m.ram m.cr3 addr = some f ∧
      m' = m.setWord f (wordIndex addr) (setByte (m.ram f (wordIndex addr)) (addr % 4) b) := by
  unfold Returns pokeByte
  cases walk m.ram m.cr3 addr with
  | none => simp
  | some f => simp [eq_comm]

/-- The frame of a present user address is a page. -/
theorem walk_user (ha : addr < KERNEL_MEMORY) (hw : walk m.ram m.cr3 addr = some f) :
    HasPage m.ram m.cr3 (dirIndex addr) (pageTableIndex addr) ∧
      f = pageOf m.ram m.cr3 (dirIndex addr) (pageTableIndex addr) := by
  obtain ⟨hp, hq, hf⟩ := walk_eq_some.mp hw
  exact ⟨⟨dirIndex_user ha, pageTableIndex_lt addr, hp, hq⟩, hf.symm⟩

/-- **A store to a page** of the running task. -/
theorem Sound.poke (h : Sound m L ∅) (ha : addr < KERNEL_MEMORY) (hw : walk m.ram m.cr3 addr = some f) (i : Nat)
    (w : Word) : Sound (m.setWord f i w) L ∅ ∧ Stores (m, L) (m.setWord f i w, L) ∧
      SamePages m.ram (m.setWord f i w).ram m.cr3 ∧
      (¬ Foreign m L f → Local m L (m.setWord f i w) L) := by
  obtain ⟨hpage, rfl⟩ := walk_user ha hw
  have hrole := h.holds.curSpace.page _ _ hpage
  set f := pageOf m.ram m.cr3 (dirIndex addr) (pageTableIndex addr) with hf
  have hn := h.holds.noTable_of_role (Or.inl hrole)
  have hne : ∀ {g}, g ≠ f → (m.setWord f i w).ram g = m.ram g := fun hg =>
    funext fun j => setWord_of_ne _ _ _ _ (Or.inl hg)
  have hc : (m.setWord f i w).ram m.cr3 = m.ram m.cr3 := hne (ne_of_role h.holds.current_role hrole (by simp))
  have htab : ∀ d, d < 768 → present (m.ram m.cr3 d) = true →
      (m.setWord f i w).ram (frameOf (m.ram m.cr3 d)) = m.ram (frameOf (m.ram m.cr3 d)) := fun d hd hp =>
    hne (ne_of_role (h.holds.curSpace.table d hd hp) hrole (by simp))
  have hsame : SamePages m.ram (m.setWord f i w).ram m.cr3 :=
    samePages_of_eq (fun d _ => congrFun hc d) fun d hd hp j _ => congrFun (htab d hd hp) j
  have hsound : Sound (m.setWord f i w) L ∅ := by
    refine ⟨h.holds.setWord_data hn i w, h.tidy.congr rfl rfl rfl ?_ ?_ ?_⟩
    · exact fun j _ => congrFun (hne hn.low.symm) j
    · exact fun K k hK _ _ => congrFun (hne (hn.ktab K hK).symm) k
    · rintro hK d j hp
      have hold := (hsame d j).1.mp hp
      rw [setWord_cr3, hc, htab d hold.1 hold.2.2.1]
      exact h.tidy.plain hK d j hold
  have hlocal : ¬ Foreign m L f → Local m L (m.setWord f i w) L := fun hno =>
    ⟨SameTasks.of_tasks rfl rfl rfl, rfl, rfl, rfl, rfl, fun d _ _ => congrFun hc d,
      fun g hg => hne fun he => hno (he ▸ hg)⟩
  refine ⟨hsound, ⟨⟨SameTasks.of_tasks rfl rfl rfl, rfl, rfl, rfl, rfl, fun d _ _ => congrFun hc d,
    fun q t ht _ => hne (hn.dir q t ht).symm⟩, fun hp => ?_⟩, hsame, hlocal⟩
  have hl := hlocal (hp _ _ hpage)
  exact ⟨((hl.stores_of_samePages hsame).private_ hp).1, hl⟩

theorem guards_pokeByte {b : UInt8} (ha : addr < KERNEL_MEMORY) : Guards Stores (pokeByte addr b) := by
  intro m L u m' h hr
  obtain ⟨f, hw, rfl⟩ := pokeByte_ok.mp hr
  obtain ⟨h1, l1, _⟩ := h.poke ha hw (wordIndex addr) (setByte (m.ram f (wordIndex addr)) (addr % 4) b)
  exact ⟨L, h1, l1⟩

/-- A page with a new frame is as private as the frame is new. -/
theorem Filled.stores (hF : Filled alloc m L a flags m' L') (h : Sound m L ∅) (ha : a < KERNEL_MEMORY)
    (hfl : Plain flags) (hA : ∀ m, Hands alloc m) : Sound m' L' ∅ ∧ Stores (m, L) (m', L') := by
  obtain ⟨h', l⟩ := hF.sound h ha hfl fun _ => hA _
  refine ⟨h', l.kept, fun hp => ⟨?_, l⟩⟩
  obtain ⟨f, hlt, _, hfresh, hone⟩ := hF.pages h ha
  intro d i hpage hf
  simp only [l.same.cr3] at hpage hf
  rw [l.foreign_iff, pageOf_eq] at hf
  by_cases hat : d = dirIndex a ∧ i = pageTableIndex a
  · rw [((hone d i).1 hat).2, frameOf_mkEntry hlt (hfl.or plain_one).lt] at hf
    exact hfresh (hf.reaches h.holds)
  · obtain ⟨hiff, heq⟩ := (hone d i).2 hat
    rw [heq (hiff.mp hpage)] at hf
    exact hp d i (hiff.mp hpage) hf

/-! ## Loading -/

theorem guards_allocPageAt (hA : ∀ m, Hands alloc m) (hfl : Plain flags) {i : Nat} (hi : i * PAGE_SIZE ≤ KERNEL_MEMORY) :
    Guards Stores (allocPageAt alloc flags i) := by
  intro m L u m' h hr
  have hlt : i * PAGE_SIZE < 2 ^ 32 := by
    rw [KERNEL_MEMORY] at hi
    omega
  rw [allocPageAt, Returns.bind_iff ((pagePresent_ok h.holds.env hlt).mpr ⟨rfl, rfl⟩)] at hr
  by_cases hpe : (present (m.pde (i * PAGE_SIZE)) && present (m.pte (i * PAGE_SIZE))) = true
  · rw [if_pos hpe] at hr
    obtain ⟨_, rfl⟩ := pure_ok.mp hr
    exact ⟨L, h, Std.Refl.refl _⟩
  · rw [if_neg hpe] at hr
    have ha : i * PAGE_SIZE < KERNEL_MEMORY := by
      rcases Nat.lt_or_eq_of_le hi with ha | he
      · exact ha
      · have hD := h.holds.curDir
        have hpt : pageTableIndex KERNEL_MEMORY = 0 := rfl
        have hd : dirIndex KERNEL_MEMORY = 768 := rfl
        rw [he, Machine.pte, Machine.pde, hd, hD.low, hD.low_frame, hpt, (h.holds.low 0 (by decide)).1] at hpe
        exact absurd rfl hpe
    obtain ⟨f, m1, hf, hr⟩ := (bind_ok _ _ _).mp hr
    obtain ⟨v, m2, hr, hu⟩ := (bind_ok _ _ _).mp hr
    obtain ⟨_, rfl⟩ := pure_ok.mp hu
    obtain ⟨_, L', hF⟩ := take_mapPage h (by simp) ha hfl (hA _) (fun _ => hA _) hf hr
    exact ⟨L', hF.stores h ha hfl hA⟩

/-- A change of the running task that the layout does not speak of. -/
theorem guards_setCur {g : Machine → TaskStruct} (hg : ∀ m, (g m).key = m.cur.key) :
    Guards Stores (update fun m => m.setCur (g m)) := by
  intro m L u m' h hr
  rw [(update_ok _ _).mp hr]
  have hs : SameTasks m (m.setCur (g m)) := by
    refine ⟨fun p => ?_, rfl, rfl⟩
    by_cases hp : p = m.current
    · subst hp
      rw [h.holds.curTask, Option.map_some, Machine.setCur]
      show (Function.update m.tasks m.current (some (g m)) m.current).map _ = _
      rw [Function.update_self, Option.map_some, hg]
    · show (Function.update m.tasks m.current (some (g m)) p).map _ = _
      rw [Function.update_of_ne hp]
  obtain ⟨h', l⟩ := h.retask hs rfl
  exact ⟨L, h', l.stores_of_samePages (SamePages.refl _ _)⟩

/-- **The steps of loading keep the layout.** -/
theorem loadSteps_sound (hA : ∀ m, Hands alloc m) : LoadSteps alloc (fun m L => Sound m L ∅) Stores where
  poke _ _ ha := guards_pokeByte ha
  fault _ _ _ _ _ ha h hw hr := by
    obtain ⟨_, a, L1, ha1, _, _, hF, _⟩ := pfNonPresent_cases h (by simp) ha hw (hA _) (fun _ => hA _) hr
    exact ⟨L1, hF.stores h ha1 plain_userRw hA⟩
  page _ _ hfl hi := guards_allocPageAt hA hfl hi
  retask _ hg := guards_setCur fun m => (hg m).1

theorem guards_storeBytes (hA : ∀ m, Hands alloc m) {n : Nat} (hu : InUser addr n) (bytes : Nat → UInt8) :
    Guards Stores (storeBytes alloc addr bytes n) := (loadSteps_sound hA).storeBytes hu bytes

/-- **Loading a file.** -/
theorem guards_loadFile (hA : ∀ m, Hands alloc m) {file : File} (hb : file.Below) :
    Guards Stores (loadFile alloc file) := (loadSteps_sound hA).loadFile hb

/-! ## Exec -/

/-- After `free_mem_usr` the user half is empty. -/
theorem freeMemUsr_empty (hA : ∀ m, Hands alloc m) (h : Sound m L ∅) (hr : Returns (freeMemUsr alloc) m u m') :
    ∃ L', Sound m' L' ∅ ∧ Local m L m' L' ∧ ∀ d, d < 768 → present (m'.ram m'.cr3 d) = false := by
  obtain ⟨_, m1, h1, hr⟩ := (bind_ok _ _ _).mp hr
  have hfirst : Guards Leaves (loop (fun i => freePage alloc (i * PAGE_SIZE)) (KERNEL_MEMORY / PAGE_SIZE)) := by
    refine Guards.loop fun i hi => guards_freePage hA ?_
    rw [KERNEL_MEMORY, PAGE_SIZE] at hi
    rw [KERNEL_MEMORY, PAGE_SIZE]
    omega
  obtain ⟨L1, hs1, l1⟩ := hfirst m L _ m1 h h1
  have hsize : (getPageTable KERNEL_MEMORY - getPageTable 0) / PAGE_SIZE = 768 := by
    norm_num [getPageTable, KERNEL_MEMORY, PAGE_SIZE, dirIndex]
  rw [hsize] at hr
  have hI := loop_ok (fun i t => ∃ L', Sound t L' ∅ ∧ Local m L t L' ∧ ∀ d, d < i → present (t.ram t.cr3 d) = false) hr
    ⟨L1, hs1, l1, fun d hd => absurd hd (Nat.not_lt_zero d)⟩ ?_
  · exact hI
  · rintro i t t' hi ⟨L2, hs2, l2, hempty⟩ hround
    have haddr : getPageTable 0 + i * PAGE_SIZE = window i := by
      rw [getPageTable, window, PAGE_SIZE, dirIndex]
      omega
    rw [haddr, freePage] at hround
    obtain ⟨L3, hs3, l3⟩ := guards_freeTable hi t L2 () t' hs2 hround
    refine ⟨L3, hs3, l2.trans l3, fun d hd => ?_⟩
    have hword := (freeTable_ok hs2.holds hi).mp hround
    by_cases hp : present (t.ram t.cr3 i) = true
    · rw [if_pos hp] at hword
      rw [hword, setWord_cr3, drop_cr3]
      by_cases hdi : d = i
      · subst hdi
        rw [setWord_self, present_absent]
      · rw [setWord_of_ne _ _ _ _ (Or.inr hdi), drop_ram]
        exact hempty d (by omega)
    · rw [if_neg hp] at hword
      rw [hword]
      by_cases hdi : d = i
      · subst hdi
        exact Bool.of_not_eq_true hp
      · exact hempty d (by omega)

/-- **`do_execve`** of an image below the kernel. -/
theorem doExecve_sound (hA : ∀ m, Hands alloc m) (h : Sound m L ∅) {file : Option File}
    (hb : ∀ f, file = some f → f.Below) {r : Int} (hr : Returns (doExecve alloc file) m r m') :
    ∃ L', Sound m' L' ∅ ∧ Local m L m' L' := by
  cases file with
  | none =>
    obtain ⟨_, rfl⟩ := pure_ok.mp hr
    exact ⟨L, h, Local.refl _ _⟩
  | some file =>
    obtain ⟨_, m1, h1, hr⟩ := (bind_ok _ _ _).mp hr
    obtain ⟨f, m2, h2, hr⟩ := (bind_ok _ _ _).mp hr
    obtain ⟨stack, m3, h3, hr⟩ := (bind_ok _ _ _).mp hr
    obtain ⟨_, m4, h4, hr⟩ := (bind_ok _ _ _).mp hr
    obtain ⟨_, m5, h5, hr⟩ := (bind_ok _ _ _).mp hr
    obtain ⟨_, rfl⟩ := pure_ok.mp hr
    obtain ⟨L1, hs1, l1, hempty⟩ := freeMemUsr_empty hA h h1
    have hpriv : Private (m1, L1) := by
      rintro d i ⟨hd, _, hp, _⟩
      rw [hempty d hd] at hp
      cases hp
    have ha : KERNEL_MEMORY - PAGE_SIZE < KERNEL_MEMORY := by
      rw [KERNEL_MEMORY, PAGE_SIZE]
      omega
    obtain ⟨_, L3, hF⟩ := take_mapPage hs1 (by simp) ha plain_userRw (hA _) (fun _ => hA _) h2 h3
    obtain ⟨hs3, l3⟩ := hF.stores hs1 ha plain_userRw hA
    obtain ⟨L4, hs4, l4⟩ := guards_loadFile hA (hb file rfl) m3 L3 _ m4 hs3 h4
    have hset : Guards Stores (update fun m => m.setCur (startTask stack m.cur)) :=
      guards_setCur (g := fun m => startTask stack m.cur) fun _ => rfl
    obtain ⟨L5, hs5, l5⟩ := hset m4 L4 _ _ hs4 h5
    obtain ⟨_, l⟩ := (IsTrans.trans _ _ _ l3 (IsTrans.trans _ _ _ l4 l5)).private_ hpriv
    exact ⟨L5, hs5, l1.trans l⟩

end Stores

end Raampjes.Mm
