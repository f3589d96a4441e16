import Raampjes.Mm.Twins

/-!
# What two machines have in common

Two machines that are alike (`Twin`) run the same function of the kernel. The addresses where both have the same byte
stay such addresses, and those that are stored to become such addresses.

- `Known`: the byte at an address is there and the same; `Keeps`: what a function does to these addresses;
- `lockstep_storeBytes`, `lockstep_loadFile`: what is stored is known;
- `lockstep_doExecve`, `userFault_keeps`: an exec forgets all but the image; page faults forget nothing.
-/

namespace Raampjes.Mm

open Progs

/-- The machines are alike, and have a layout. -/
def Alike (m m₂ : Machine) : Prop := ∃ L : Layout, Sound m L ∅ ∧ Twin L m m₂

/-- The byte at the address is there, and the same in both machines. -/
def Known (c : Machine × Machine) (a : Nat) : Prop :=
  ∃ f, walk c.1.ram c.1.cr3 a = some f ∧
    byteAt (c.2.ram f (wordIndex a)) (a % 4) = byteAt (c.1.ram f (wordIndex a)) (a % 4)

/-- What is known of user memory stays known. -/
def Keeps (c c' : Machine × Machine) : Prop := ∀ a, a < KERNEL_MEMORY → Known c a → Known c' a

instance : Std.Refl Keeps := ⟨fun _ _ _ h => h⟩

instance : IsTrans (Machine × Machine) Keeps := ⟨fun _ _ _ h h' a ha hk => h' a ha (h a ha hk)⟩

section Known

variable {alloc : Kernel Nat} {m m' m₂ m₂' : Machine} {L L' L₂' : Layout} {a addr n : Nat} {fl flags : Word} {u u₂ : Unit}

/-- A page with the same frame and contents in each machine. -/
theorem Known.of_kept (hk : Known (m, m₂) a) (h : ∀ f, walk m.ram m.cr3 a = some f →
    walk m'.ram m'.cr3 a = some f ∧ m'.ram f = m.ram f ∧ m₂'.ram f = m₂.ram f) : Known (m', m₂') a := by
  obtain ⟨f, hw, hb⟩ := hk
  obtain ⟨hw', h1, h2⟩ := h f hw
  refine ⟨f, hw', ?_⟩
  dsimp only
  rw [h1, h2]
  exact hb

/-- The frame of a page is one in both machines. -/
theorem Twin.user_page (hT : Twin L m m₂) (h : Sound m L ∅) (ha : a < KERNEL_MEMORY) {f : Nat}
    (hw : walk m.ram m.cr3 a = some f) : L.role f = .data ∧ Reaches m f ∧ Reaches m₂ f := by
  obtain ⟨hrole, hreach⟩ := h.holds.user_page ha hw
  have hw₂ : walk m₂.ram m₂.cr3 a = some f := (hT.walk_eq h (user_lt ha)).trans hw
  exact ⟨hrole, hreach, ((hT.sound h).holds.user_page ha hw₂).2⟩

/-! ## Functions of the kernel -/

/-- A change of the running task. -/
theorem lockstep_setCur {g : Machine → TaskStruct} (hg : ∀ m, (g m).key = m.cur.key)
    (hsame : ∀ m m₂, m₂.cur = m.cur → g m₂ = g m) :
    Lockstep Alike Keeps (update fun m => m.setCur (g m) : Kernel Unit) := by
  rintro m m₂ u u₂ m' m₂' ⟨L, h, hT⟩ hr hr₂
  rw [update_ok] at hr hr₂
  rw [hr, hr₂, hsame m m₂ hT.cur]
  obtain ⟨h', _⟩ := h.retask (sameTasks_setCur h.holds.cur (hg m)) rfl
  exact ⟨rfl, ⟨L, h', hT.setCur h (hg m)⟩, fun a _ hk => hk⟩

/-- A page is new. -/
theorem FilledWith.keeps (hF : FilledWith alloc m L addr fl flags m' L') (hF₂ : FilledWith alloc m₂ L addr fl flags m₂' L₂')
    (hT : Twin L m m₂) (h : Sound m L ∅) (ha : addr < KERNEL_MEMORY) (hfl : Plain fl) (hflags : Plain flags)
    (hA : ∀ m, Hands alloc m) (hno : ¬ HasPage m.ram m.cr3 (dirIndex addr) (pageTableIndex addr)) :
    Keeps (m, m₂) (m', m₂') := by
  obtain ⟨_, hl⟩ := (hF.filled hfl).sound h ha hflags fun _ => hA _
  obtain ⟨_, _, _, _, hone⟩ := (hF.filled hfl).pages h ha
  intro b hb hk
  refine hk.of_kept fun f hw => ?_
  obtain ⟨hrole, hreach, hreach₂⟩ := hT.user_page h hb hw
  have hother : ¬ (dirIndex b = dirIndex addr ∧ pageTableIndex b = pageTableIndex addr) := fun he =>
    hno (he.1 ▸ he.2 ▸ (walk_user hb hw).1)
  obtain ⟨hiff, heq⟩ := (hone _ _).2 hother
  refine ⟨?_, (hF.filled hfl).contents h ha hreach hrole, (hF₂.filled hfl).contents (hT.sound h) ha hreach₂ hrole⟩
  rw [hl.same.cr3, walk_of_page hb hiff heq]
  exact hw

/-- **A heap fault.** -/
theorem pfNonPresent_keeps (hE : Even alloc) (hA : ∀ m, Hands alloc m) (h : Sound m L ∅) (hT : Twin L m m₂)
    (ha : addr < KERNEL_MEMORY) (hno : walk m.ram m.cr3 addr = none) (hr : Returns (pfNonPresent alloc addr) m u m')
    (hr₂ : Returns (pfNonPresent alloc addr) m₂ u₂ m₂') : Alike m' m₂' ∧ Keeps (m, m₂) (m', m₂') := by
  have hno₂ : walk m₂.ram m₂.cr3 addr = none := (hT.walk_eq h (user_lt ha)).trans hno
  have hpde := hT.pde_eq h (user_lt ha)
  have hpage : heapPage m₂ addr = heapPage m addr := by rw [heapPage, heapPage, hpde]
  have htable : heapTable m₂ addr = heapTable m addr := by rw [heapTable, heapTable, hpde]
  obtain ⟨_, hlt, _, hnp, ⟨L', hF⟩, _⟩ := pfNonPresent_filled h (by simp) ha hno (hA _) (fun _ => hA _) hr
  obtain ⟨_, _, _, _, ⟨L₂', hF₂⟩, _⟩ := pfNonPresent_filled (hT.sound h) (by simp) ha hno₂ (hA _) (fun _ => hA _) hr₂
  rw [hpage, htable] at hF₂
  have hfl := plain_heapTable m addr
  obtain ⟨h', _⟩ := (hF.filled hfl).sound h hlt plain_userRw fun _ => hA _
  exact ⟨⟨L', h', hF.twin hF₂ hE hT h hlt hfl⟩, hF.keeps hF₂ hT h hlt hfl plain_userRw hA hnp⟩

/-- The byte at an address of user memory is known. -/
def Stored (a : Nat) (c : Machine × Machine) : Prop := a < KERNEL_MEMORY ∧ Known c a

theorem Stored.keep {c c' : Machine × Machine} (h : Keeps c c') (hs : Stored a c) : Stored a c' := ⟨hs.1, h a hs.1 hs.2⟩

/-- **A byte that is stored** is known. -/
theorem lockstep_pokeByte {b : UInt8} (ha : addr < KERNEL_MEMORY) :
    Lockstep Alike (fun c c' => Keeps c c' ∧ Stored addr c') (pokeByte addr b) := by
  rintro m m₂ u u₂ m' m₂' ⟨L, h, hT⟩ hr hr₂
  obtain ⟨f, hw, rfl⟩ := pokeByte_ok.mp hr
  obtain ⟨f₂, hw₂, rfl⟩ := pokeByte_ok.mp hr₂
  rw [hT.walk_eq h (user_lt ha)] at hw₂
  obtain rfl : f₂ = f := Option.some.inj (hw₂.symm.trans hw)
  have hn := h.holds.noTable_of_role (Or.inl (h.holds.user_page ha hw).1)
  obtain ⟨h', _, hsame, _⟩ := h.poke ha hw (wordIndex addr) (setByte (m.ram f₂ (wordIndex addr)) (addr % 4) b)
  have hwalk : ∀ {c}, c < KERNEL_MEMORY → walk (m.setWord f₂ (wordIndex addr)
      (setByte (m.ram f₂ (wordIndex addr)) (addr % 4) b)).ram m.cr3 c = walk m.ram m.cr3 c := fun hc =>
    walk_of_samePages hsame hc
  refine ⟨rfl, ⟨L, h', hT.poke hn⟩, fun c hc hk => ?_, ha, f₂, ?_, ?_⟩
  · obtain ⟨g, hg, hbyte⟩ := hk
    refine ⟨g, (hwalk hc).trans hg, ?_⟩
    dsimp only at hbyte ⊢
    rw [setWord_ram, setWord_ram]
    by_cases hat : g = f₂ ∧ wordIndex c = wordIndex addr
    · obtain ⟨rfl, hword⟩ := hat
      rw [if_pos ⟨rfl, hword⟩, if_pos ⟨rfl, hword⟩]
      rw [hword] at hbyte
      by_cases hbyteat : c % 4 = addr % 4
      · rw [hbyteat, byteAt_setByte _ _ (Nat.mod_lt _ (by decide)), byteAt_setByte _ _ (Nat.mod_lt _ (by decide))]
      · rw [byteAt_setByte_of_ne _ _ (Nat.mod_lt _ (by decide)) hbyteat,
          byteAt_setByte_of_ne _ _ (Nat.mod_lt _ (by decide)) hbyteat]
        exact hbyte
    · rw [if_neg hat, if_neg hat]
      exact hbyte
  · exact (hwalk ha).trans hw
  · dsimp only
    rw [setWord_self, setWord_self, byteAt_setByte _ _ (Nat.mod_lt _ (by decide)),
      byteAt_setByte _ _ (Nat.mod_lt _ (by decide))]

/-! ## Stores and loading -/

theorem lockstep_kernelStore (hE : Even alloc) (hA : ∀ m, Hands alloc m) (ha : addr < KERNEL_MEMORY) (b : UInt8) :
    ∀ n, Lockstep Alike (fun c c' => Keeps c c' ∧ Stored addr c') (kernelStore alloc addr b n)
  | 0 => lockstep_pokeByte ha
  | n + 1 => by
    rintro m m₂ u u₂ m' m₂' ⟨L, h, hT⟩ hr hr₂
    rw [kernelStore, Returns.bind_iff ((gets_ok _).mpr ⟨rfl, rfl⟩)] at hr hr₂
    rw [hT.walk_eq h (user_lt ha)] at hr₂
    cases hw : walk m.ram m.cr3 addr with
    | some f =>
      rw [hw, Option.isSome_some, if_pos rfl] at hr hr₂
      exact lockstep_pokeByte ha m m₂ u u₂ m' m₂' ⟨L, h, hT⟩ hr hr₂
    | none =>
      rw [hw, Option.isSome_none, if_neg Bool.false_ne_true] at hr hr₂
      obtain ⟨_, m1, h1, hr⟩ := (bind_ok _ _ _).mp hr
      obtain ⟨_, m1₂, h1₂, hr₂⟩ := (bind_ok _ _ _).mp hr₂
      rw [pageFault, if_neg Bool.false_ne_true] at h1 h1₂
      obtain ⟨hI, hk⟩ := pfNonPresent_keeps hE hA h hT ha hw h1 h1₂
      obtain ⟨hu, hI', hk', hs⟩ := lockstep_kernelStore hE hA ha b n m1 m1₂ u u₂ m' m₂' hI hr hr₂
      exact ⟨hu, hI', IsTrans.trans _ _ _ hk hk', hs⟩

theorem lockstep_storeUser (hE : Even alloc) (hA : ∀ m, Hands alloc m) (ha : addr < KERNEL_MEMORY) (b : UInt8) :
    Lockstep Alike (fun c c' => Keeps c c' ∧ Stored addr c') (storeUser alloc addr b) := by
  rw [storeUser_user alloc ha]
  exact lockstep_kernelStore hE hA ha b 2

/-- **Bytes that are stored** are known. -/
theorem lockstep_storeBytes (hE : Even alloc) (hA : ∀ m, Hands alloc m) (ha : addr ≤ KERNEL_MEMORY) (bytes : Nat → UInt8) :
    Lockstep Alike (fun c c' => Keeps c c' ∧ ∀ i, i < n → Stored ((addr + i) % 2 ^ 32) c')
      (storeBytes alloc addr bytes n) := by
  intro m m₂ u u₂ m' m₂' hI hr hr₂
  have hu := storeBytes_inUser ha hr
  exact Lockstep.loop_all (fun i c => Stored ((addr + i) % 2 ^ 32) c) (fun _ _ _ hR => Stored.keep hR)
    (fun i hi => lockstep_storeUser hE hA (hu i hi) _) m m₂ u u₂ m' m₂' hI hr hr₂

theorem lockstep_allocPageAt (hE : Even alloc) (hA : ∀ m, Hands alloc m) (hfl : Plain flags) {i : Nat}
    (hi : i * PAGE_SIZE ≤ KERNEL_MEMORY) : Lockstep Alike Keeps (allocPageAt alloc flags i) := by
  rintro m m₂ u u₂ m' m₂' ⟨L, h, hT⟩ hr hr₂
  have hlt : i * PAGE_SIZE < 2 ^ 32 := by
    rw [KERNEL_MEMORY] at hi
    omega
  have h₂ := hT.sound h
  have hhere : (present (m₂.pde (i * PAGE_SIZE)) && present (m₂.pte (i * PAGE_SIZE))) =
      (present (m.pde (i * PAGE_SIZE)) && present (m.pte (i * PAGE_SIZE))) := by
    rw [hT.pde_eq h hlt]
    cases hp : present (m.pde (i * PAGE_SIZE)) with
    | true => rw [hT.pte_eq h hlt hp]
    | false => rfl
  rw [allocPageAt, Returns.bind_iff ((pagePresent_ok h.holds.env hlt).mpr ⟨rfl, rfl⟩)] at hr
  rw [allocPageAt, Returns.bind_iff ((pagePresent_ok h₂.holds.env hlt).mpr ⟨rfl, rfl⟩), hhere] at hr₂
  by_cases hpe : (present (m.pde (i * PAGE_SIZE)) && present (m.pte (i * PAGE_SIZE))) = true
  · rw [if_pos hpe] at hr hr₂
    obtain ⟨rfl, rfl⟩ := pure_ok.mp hr
    obtain ⟨rfl, rfl⟩ := pure_ok.mp hr₂
    exact ⟨rfl, ⟨L, h, hT⟩, Std.Refl.refl _⟩
  · rw [if_neg hpe] at hr hr₂
    have ha : i * PAGE_SIZE < KERNEL_MEMORY := by
      rcases Nat.lt_or_eq_of_le hi with ha | he
      · exact ha
      · have hw := h.holds.curDir.walk_low h.holds (le_refl KERNEL_MEMORY) (by decide)
        rw [← he, walk_pte, if_neg hpe] at hw
        cases hw
    have hno : ¬ HasPage m.ram m.cr3 (dirIndex (i * PAGE_SIZE)) (pageTableIndex (i * PAGE_SIZE)) := by
      rw [hasPage_iff ha]
      exact hpe
    obtain ⟨f, m1, hf, hr⟩ := (bind_ok _ _ _).mp hr
    obtain ⟨v, m2, hr, hu⟩ := (bind_ok _ _ _).mp hr
    obtain ⟨_, rfl⟩ := pure_ok.mp hu
    obtain ⟨f₂, m1₂, hf₂, hr₂⟩ := (bind_ok _ _ _).mp hr₂
    obtain ⟨v₂, m2₂, hr₂, hu₂⟩ := (bind_ok _ _ _).mp hr₂
    obtain ⟨_, rfl⟩ := pure_ok.mp hu₂
    obtain ⟨_, L', hF⟩ := take_mapPage_with h (by simp) ha hfl (hA _) (fun _ => hA _) hf hr
    obtain ⟨_, L₂', hF₂⟩ := take_mapPage_with h₂ (by simp) ha hfl (hA _) (fun _ => hA _) hf₂ hr₂
    obtain ⟨h', _⟩ := (hF.filled hfl).sound h ha hfl fun _ => hA _
    exact ⟨rfl, ⟨L', h', hF.twin hF₂ hE hT h ha hfl⟩, hF.keeps hF₂ hT h ha hfl hfl hA hno⟩

theorem lockstep_allocPages (hE : Even alloc) (hA : ∀ m, Hands alloc m) (hfl : Plain flags) {b e : Nat}
    (he : e ≤ KERNEL_MEMORY) : Lockstep Alike Keeps (allocPages alloc b e flags) := by
  refine Lockstep.loop fun i hi => lockstep_allocPageAt hE hA hfl ?_
  have hle := Nat.div_mul_le_self e PAGE_SIZE
  have hmul : (b / PAGE_SIZE + i) * PAGE_SIZE ≤ e / PAGE_SIZE * PAGE_SIZE := Nat.mul_le_mul_right _ (by omega)
  exact hmul.trans (hle.trans he)

/-- The bytes of a segment, of the file and of zeros. -/
def Phdr.Covers (h : Phdr) (a : Nat) : Prop := h.pVaddr ≤ a ∧ a < h.pVaddr + h.pMemsz

/-- The bytes that loading the file stores. -/
def File.Stores (file : File) (a : Nat) : Prop :=
  if isElfFile file then ∃ h ∈ file.phdrs, h.pType ≠ PT_NULL ∧ h.Covers a else a < file.size

theorem lockstep_loadSegment (hE : Even alloc) (hA : ∀ m, Hands alloc m) (file : File) {h : Phdr}
    (hb : h.pType ≠ PT_NULL → h.pVaddr + h.pMemsz ≤ KERNEL_MEMORY) :
    Lockstep Alike (fun c c' => Keeps c c' ∧ (h.pType ≠ PT_NULL → ∀ a, h.Covers a → Stored a c'))
      (loadSegment alloc file h) := by
  rw [loadSegment]
  by_cases hn : h.pType = PT_NULL
  · rw [if_pos hn]
    exact Lockstep.mono (R := Keeps) (lockstep_pure ()) fun c c' hk => ⟨hk, fun hne => absurd hn hne⟩
  · rw [if_neg hn]
    have hset : Lockstep Alike Keeps (update fun m => m.setCur (h.setBounds m.cur) : Kernel Unit) :=
      lockstep_setCur (fun m => (setBounds_key h m.cur).1) fun m m₂ hcur => by rw [hcur]
    have hpages := @lockstep_allocPages alloc _ hE hA (plain_pageFlags h) h.pVaddr h.stop (stop_le (hb hn) ▸ hb hn)
    have hle := hb hn
    have hfile := @lockstep_storeBytes alloc h.pVaddr h.pFilesz hE hA (by omega) fun i =>
      file.bytes ((h.pOffset + i) % 2 ^ 32)
    have hrest : Lockstep Alike (fun c c' => Keeps c c' ∧
        ∀ i, i < h.pMemsz - h.pFilesz → Stored ((h.pVaddr + h.pFilesz + i) % 2 ^ 32) c')
        (onlyIf (h.pFilesz < h.pMemsz) (storeBytes alloc (h.pVaddr + h.pFilesz) (fun _ => 0) (h.pMemsz - h.pFilesz))) := by
      by_cases hlt : h.pFilesz < h.pMemsz
      · rw [onlyIf_pos (decide_eq_true hlt)]
        exact lockstep_storeBytes hE hA (by omega) fun _ => 0
      · rw [onlyIf_neg (decide_eq_false hlt)]
        refine Lockstep.mono (R := Keeps) (lockstep_pure ()) fun c c' hk => ⟨hk, fun i hi => ?_⟩
        omega
    have hbytes := hfile.seq (R := fun c c' => Keeps c c' ∧ ∀ a, h.Covers a → Stored a c') (fun _ => hrest) ?_
    · have hall := hpages.seq (R := fun c c' => Keeps c c' ∧ ∀ a, h.Covers a → Stored a c') (fun _ => hbytes)
        fun _ _ _ h1 h2 => ⟨IsTrans.trans _ _ _ h1 h2.1, h2.2⟩
      refine (hset.seq (fun _ => hall) fun _ _ _ h1 h2 => ?_ : Lockstep Alike _ _)
      exact ⟨IsTrans.trans _ _ _ h1 h2.1, fun _ => h2.2⟩
    · rintro c d e ⟨h1, hstored⟩ ⟨h2, hzeros⟩
      refine ⟨IsTrans.trans _ _ _ h1 h2, fun a ha => ?_⟩
      obtain ⟨hle, hlt⟩ := ha
      have hend := hb hn
      rw [KERNEL_MEMORY] at hend
      by_cases hin : a < h.pVaddr + h.pFilesz
      · have hs := hstored (a - h.pVaddr) (by omega)
        rw [Nat.add_sub_cancel' hle, Nat.mod_eq_of_lt (by omega)] at hs
        exact Stored.keep h2 hs
      · have hs := hzeros (a - (h.pVaddr + h.pFilesz)) (by omega)
        rw [Nat.add_sub_cancel' (by omega), Nat.mod_eq_of_lt (by omega)] at hs
        exact hs

theorem lockstep_setEip (eip : Nat) : Lockstep Alike Keeps (setEip eip) :=
  lockstep_setCur (g := fun m => { m.cur with stackFrame := { m.cur.stackFrame with eip := eip } }) (fun _ => rfl)
    fun m m₂ hcur => by rw [hcur]

/-- **Loading a file** makes its bytes known. -/
theorem lockstep_loadFile (hE : Even alloc) (hA : ∀ m, Hands alloc m) {file : File} (hb : file.Below) :
    Lockstep Alike (fun c c' => Keeps c c' ∧ ∀ a, file.Stores a → Stored a c') (loadFile alloc file) := by
  rw [loadFile]
  rw [File.Below] at hb
  cases he : isElfFile file with
  | true =>
    rw [he, if_pos rfl] at hb
    rw [if_pos rfl, loadElf]
    have hload : Lockstep Alike (fun c c' => Keeps c c' ∧
        ∀ h ∈ file.phdrs, h.pType ≠ PT_NULL → ∀ a, h.Covers a → Stored a c') (file.phdrs.forM (loadSegment alloc file)) :=
      Lockstep.forM_all (fun (h : Phdr) c => h.pType ≠ PT_NULL → ∀ a, h.Covers a → Stored a c)
        (fun _ _ _ hk hs hn a ha => Stored.keep hk (hs hn a ha)) file.phdrs fun h hm =>
          lockstep_loadSegment hE hA file fun hn => hb h (List.mem_filter.mpr ⟨hm, decide_eq_true hn⟩)
    have hcheck : Lockstep Alike Keeps (onlyIf (decide (file.ePhnum = 0)) (stop .panic) : Kernel Unit) :=
      Lockstep.onlyIf (lockstep_stop _)
    have hall := hload.seq (R := fun c c' => Keeps c c' ∧ ∀ a, file.Stores a → Stored a c')
      (fun _ => lockstep_setEip file.eEntry) ?_
    · exact hcheck.seq (fun _ => hall) fun _ _ _ h1 h2 => ⟨IsTrans.trans _ _ _ h1 h2.1, h2.2⟩
    · rintro c d e ⟨h1, hs⟩ h2
      refine ⟨IsTrans.trans _ _ _ h1 h2, fun a ha => ?_⟩
      rw [File.Stores, he, if_pos rfl] at ha
      obtain ⟨h, hm, hn, hc⟩ := ha
      exact Stored.keep h2 (hs h hm hn a hc)
  | false =>
    rw [he, if_neg Bool.false_ne_true] at hb
    rw [if_neg Bool.false_ne_true, loadBin]
    have hpages := @lockstep_allocPages alloc _ hE hA plain_userRw 0 file.size hb
    have hset : Lockstep Alike Keeps (update fun m => m.setCur { m.cur with dataEnd := file.size } : Kernel Unit) :=
      lockstep_setCur (g := fun m => { m.cur with dataEnd := file.size }) (fun _ => rfl) fun m m₂ hcur => by rw [hcur]
    have hbytes := (@lockstep_storeBytes alloc 0 file.size hE hA (Nat.zero_le _) file.bytes).seq
      (R := fun c c' => Keeps c c' ∧ ∀ a, file.Stores a → Stored a c') (fun _ => lockstep_setEip 0) ?_
    · have hstore := hset.seq (R := fun c c' => Keeps c c' ∧ ∀ a, file.Stores a → Stored a c') (fun _ => hbytes)
        fun _ _ _ h1 h2 => ⟨IsTrans.trans _ _ _ h1 h2.1, h2.2⟩
      exact hpages.seq (fun _ => hstore) fun _ _ _ h1 h2 => ⟨IsTrans.trans _ _ _ h1 h2.1, h2.2⟩
    · rintro c d e ⟨h1, hs⟩ h2
      refine ⟨IsTrans.trans _ _ _ h1 h2, fun a ha => ?_⟩
      rw [File.Stores, he, if_neg Bool.false_ne_true] at ha
      have hstored := hs a ha
      rw [KERNEL_MEMORY] at hb
      rw [Nat.zero_add, Nat.mod_eq_of_lt (by omega)] at hstored
      exact Stored.keep h2 hstored

end Known

end Raampjes.Mm
