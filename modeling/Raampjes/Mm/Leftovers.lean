import Raampjes.Mm.Heap
import Raampjes.Mm.Known

/-!
# What programs see of earlier contents

Two machines that differ in what free frames contain, and the same system calls, page faults and stores of one process.
The pages and the permissions are the same at every step. Bytes that were stored since the last `do_execve` are the same,
too; frames are not cleared when they become pages of user memory, so the other bytes are not.

- `lockstep_doExecve`, `pfRoViolation_keeps`, `userFault_keeps`: the system calls and the faults;
- `Act.stores`, `known_step`: what is known after a step;
- `user_memory_agrees`: two runs; `user_memory_reveals`: the stack page of a new program is not cleared.
-/

namespace Raampjes.Mm

open Progs Runs

section Calls

variable {alloc : Kernel Nat} (hE : Even alloc) (hA : ∀ m, Hands alloc m)

/-! ## System calls -/

include hE hA in
/-- **The sweep** of an address space. Nothing is known of it afterwards. -/
theorem lockstep_freeMemUsr : Lockstep Alike (fun _ _ => True) (freeMemUsr alloc) := by
  have hrefl : Std.Refl fun _ _ : Machine × Machine => True := ⟨fun _ => trivial⟩
  have htrans : IsTrans (Machine × Machine) fun _ _ => True := ⟨fun _ _ _ _ _ => trivial⟩
  rw [freeMemUsr]
  refine Lockstep.bind (Lockstep.loop fun i hi => ?_) fun _ => Lockstep.loop fun i hi => ?_
  · rintro m m₂ u u₂ m' m₂' ⟨L, h, hT⟩ hr hr₂
    obtain ⟨L', h', hT'⟩ := hT.freePage h hE hA (pageNumber_user hi) hr hr₂
    exact ⟨rfl, ⟨L', h', hT'⟩, trivial⟩
  · have hsize : (getPageTable KERNEL_MEMORY - getPageTable 0) / PAGE_SIZE = 768 := by
      norm_num [getPageTable, KERNEL_MEMORY, PAGE_SIZE, dirIndex]
    have haddr : getPageTable 0 + i * PAGE_SIZE = window i := by
      rw [getPageTable, window, PAGE_SIZE, dirIndex]
      omega
    rw [hsize] at hi
    rw [haddr]
    rintro m m₂ u u₂ m' m₂' ⟨L, h, hT⟩ hr hr₂
    obtain ⟨h', hT'⟩ := hT.freeTable h hi hr hr₂
    exact ⟨rfl, ⟨L, h', hT'⟩, trivial⟩

include hE hA in
/-- **`do_execve`** makes the bytes of the image known, and forgets all others. -/
theorem lockstep_doExecve {file : File} (hb : file.Below) :
    Lockstep Alike (fun _ c' => ∀ a, file.Stores a → Stored a c') (doExecve alloc (some file)) := by
  intro m m₂ r r₂ m' m₂' hI hr hr₂
  obtain ⟨_, m1, h1, hr⟩ := (bind_ok _ _ _).mp hr
  obtain ⟨f, m2, h2, hr⟩ := (bind_ok _ _ _).mp hr
  obtain ⟨stack, m3, h3, hr⟩ := (bind_ok _ _ _).mp hr
  obtain ⟨_, m4, h4, hr⟩ := (bind_ok _ _ _).mp hr
  obtain ⟨_, m5, h5, hr⟩ := (bind_ok _ _ _).mp hr
  obtain ⟨rfl, rfl⟩ := pure_ok.mp hr
  obtain ⟨_, m1₂, h1₂, hr₂⟩ := (bind_ok _ _ _).mp hr₂
  obtain ⟨f₂, m2₂, h2₂, hr₂⟩ := (bind_ok _ _ _).mp hr₂
  obtain ⟨stack₂, m3₂, h3₂, hr₂⟩ := (bind_ok _ _ _).mp hr₂
  obtain ⟨_, m4₂, h4₂, hr₂⟩ := (bind_ok _ _ _).mp hr₂
  obtain ⟨_, m5₂, h5₂, hr₂⟩ := (bind_ok _ _ _).mp hr₂
  obtain ⟨rfl, rfl⟩ := pure_ok.mp hr₂
  obtain ⟨_, ⟨L1, hs1, hT1⟩, _⟩ := lockstep_freeMemUsr hE hA m m₂ _ _ m1 m1₂ hI h1 h1₂
  have ha : KERNEL_MEMORY - PAGE_SIZE < KERNEL_MEMORY := by
    rw [KERNEL_MEMORY, PAGE_SIZE]
    omega
  obtain ⟨rfl, L3, hF⟩ := take_mapPage_with hs1 (by simp) ha plain_userRw (hA _) (fun _ => hA _) h2 h3
  obtain ⟨rfl, L3₂, hF₂⟩ := take_mapPage_with (hT1.sound hs1) (by simp) ha plain_userRw (hA _) (fun _ => hA _) h2₂ h3₂
  obtain ⟨hs3, _⟩ := (hF.filled plain_userRw).sound hs1 ha plain_userRw fun _ => hA _
  have hI3 : Alike m3 m3₂ := ⟨L3, hs3, hF.twin hF₂ hE hT1 hs1 ha plain_userRw⟩
  obtain ⟨_, hI4, _, hstored⟩ := lockstep_loadFile hE hA hb m3 m3₂ _ _ m4 m4₂ hI3 h4 h4₂
  have hset : Lockstep Alike Keeps
      (update fun m => m.setCur (startTask (KERNEL_MEMORY - PAGE_SIZE) m.cur) : Kernel Unit) :=
    lockstep_setCur (g := fun m => startTask (KERNEL_MEMORY - PAGE_SIZE) m.cur) (fun _ => rfl) fun m m₂ hcur => by rw [hcur]
  obtain ⟨_, hI5, hkeep⟩ := hset m4 m4₂ _ _ _ _ hI4 h5 h5₂
  exact ⟨rfl, hI5, fun a hs => (hstored a hs).keep hkeep⟩

theorem lockstep_doSbrk (incr : Int) : Lockstep Alike Keeps (doSbrk incr) := by
  rw [doSbrk]
  have hcur : ∀ m m₂, Alike m m₂ → m₂.cur = m.cur := by
    rintro m m₂ ⟨L, _, hT⟩
    exact hT.cur
  refine Lockstep.bind (lockstep_gets hcur) fun t => ?_
  dsimp only
  refine Lockstep.ite (Lockstep.bind ?_ fun _ => lockstep_pure _) (lockstep_pure _)
  exact lockstep_setCur (g := fun m => { m.cur with brk := ((t.brk + incr) % 2 ^ 32).toNat }) (fun _ => rfl)
    fun m m₂ hcur => by rw [hcur]

end Calls

/-! ## Write faults -/

section Faults

variable {alloc : Kernel Nat} {m m' m1 m₂ m₂' m1₂ : Machine} {L L1 L1₂ : Layout} {K k addr d new : Nat} {e : Word}
  {u u₂ : Unit}

theorem wordIndex_lt (a : Nat) : wordIndex a < 1024 := by
  rw [wordIndex, PAGE_SIZE]
  omega

/-- A copied table names the same pages. -/
theorem Split.keeps (ho : Split alloc m L d m1 L1) (ho₂ : Split alloc m₂ L d m1₂ L1₂) (hT : Twin L m m₂) (h : Sound m L ∅)
    (hd : d < 768) (hp : present (m.ram m.cr3 d) = true) : Keeps (m, m₂) (m1, m1₂) := by
  have h₂ := hT.sound h
  have hp₂ : present (m₂.ram m₂.cr3 d) = true := by
    rw [hT.cr3, hT.dirWord h (by omega)]
    exact hp
  obtain ⟨_, l1⟩ := ho.sound h hd hp
  intro b hb hk
  refine hk.of_kept fun f hw => ?_
  obtain ⟨hrole, hreach, hreach₂⟩ := hT.user_page h hb hw
  refine ⟨?_, ho.contents h hd hp hrole hreach, ho₂.contents h₂ hd hp₂ hrole hreach₂⟩
  rw [l1.same.cr3, (ho.entries h hd hp).walk_eq hp hb]
  exact hw

/-- The new frame of a page has the bytes of the old one. -/
theorem unsharedPage_keeps (hT : Twin L m m₂) (h : Sound m L ∅) (hK : L.ktab = some K) (ha : addr < KERNEL_MEMORY)
    (hpage : HasPage m.ram m.cr3 (dirIndex addr) (pageTableIndex addr)) (hs : shared (m.pde addr) = false)
    (hlt : new < 2 ^ 20) (hfresh : ¬ Reaches m new) (hfresh₂ : ¬ Reaches m₂ new)
    (hcr3 : (m.unshared K k addr new e).cr3 = m.cr3) :
    Keeps (m, m₂) (m.unshared K k addr new e, m₂.unshared K k addr new e) := by
  have h₂ := hT.sound h
  have hpage₂ := (hT.hasPage_iff h ha).mpr hpage
  have hpde := hT.pde_eq h (user_lt ha)
  have hpte := hT.pte_eq h (user_lt ha) hpage.2.2.1
  have hR := @replaced m L ∅ K k addr new e h hK ha hpage hs hfresh
  have hR₂ := @replaced m₂ L ∅ K k addr new e h₂ hK ha hpage₂ (by rw [hpde]; exact hs) hfresh₂
  intro b hb hk
  by_cases hat : b / PAGE_SIZE = addr / PAGE_SIZE
  · obtain ⟨f, hw, hbyte⟩ := hk
    obtain ⟨hd, hi⟩ := same_page_iff.mp hat
    have hold : f = frameOf (m.pte addr) := by
      rw [(walk_user hb hw).2, hd, hi]
      rfl
    refine ⟨new, ?_, ?_⟩
    · have hself := hR.walk_self hpage.2.2.1 hlt
      rw [hcr3, walk, hd, hi]
      exact hself
    · dsimp only at hbyte ⊢
      rw [hR.bytes _ (wordIndex_lt b), hR₂.bytes _ (wordIndex_lt b), hpte, ← hold]
      exact hbyte
  · refine hk.of_kept fun f hw => ?_
    obtain ⟨hrole, hreach, hreach₂⟩ := hT.user_page h hb hw
    refine ⟨?_, hR.contents f hrole hreach, hR₂.contents f hrole hreach₂⟩
    rw [hcr3, hR.pagesKept b hb hat]
    exact hw

/-- **A write fault** on a page. -/
theorem pfRoViolation_keeps (hE : Even alloc) (hA : ∀ m, Hands alloc m) (h : Sound m L ∅) (hT : Twin L m m₂)
    (ha : addr < KERNEL_MEMORY) (hpage : HasPage m.ram m.cr3 (dirIndex addr) (pageTableIndex addr))
    (hr : Returns (pfRoViolation alloc addr) m u m') (hr₂ : Returns (pfRoViolation alloc addr) m₂ u₂ m₂') :
    Alike m' m₂' ∧ Keeps (m, m₂) (m', m₂') := by
  have hd := hpage.1
  have hp := hpage.2.2.1
  have h₂ := hT.sound h
  have hpage₂ := (hT.hasPage_iff h ha).mpr hpage
  obtain ⟨_, _, m1, L1, K, k, new, m2, ho, hK, hk, hnew, hnlt, _, hfresh, rfl⟩ :=
    pfRoViolation_cases h (by simp) ha hpage (hA _) (fun _ _ _ => hA _) hr
  obtain ⟨_, _, m1₂, L1₂, K₂, k₂, new₂, m2₂, ho₂, hK₂, hk₂, hnew₂, _, _, hfresh₂, rfl⟩ :=
    pfRoViolation_cases h₂ (by simp) ha hpage₂ (hA _) (fun _ _ _ => hA _) hr₂
  -- the first stage
  have hT1 := ho.twin ho₂ hE hT h hd hp
  obtain ⟨h1, l1⟩ := ho.sound h hd hp
  obtain ⟨_, l1₂⟩ := ho₂.sound h₂ hd hpage₂.2.2.1
  obtain ⟨hpage1, hs1, _⟩ := ho.page h hpage
  rw [← l1.same.cr3] at hpage1 hs1
  -- the same slot and the same frame
  rw [l1₂.ktab, ← l1.ktab, hK] at hK₂
  obtain rfl : K = K₂ := Option.some.inj hK₂
  rw [hT1.scan_eq hK _ (le_refl _), hk] at hk₂
  obtain rfl : k = k₂ := Option.some.inj hk₂
  have hbitmap : (m1₂.setWord K k (mkEntry (frameOf (m1₂.pte addr)) 3#32)).bitmap =
      (m1.setWord K k (mkEntry (frameOf (m1.pte addr)) 3#32)).bitmap := hT1.bitmap
  obtain rfl : new₂ = new := hE _ _ _ _ _ _ hbitmap hnew hnew₂
  -- the second stage
  obtain ⟨h2, l2⟩ := h1.unsharedPage hK hk (user_lt ha) hpage1 hs1 (e := 2#32) hnlt hfresh
  refine ⟨⟨_, h2, hT1.unsharedPage h1 hK hk ha hpage1 hs1 hnlt hfresh⟩, ?_⟩
  exact IsTrans.trans _ _ _ (ho.keeps ho₂ hT h hd hp)
    (unsharedPage_keeps hT1 h1 hK ha hpage1 hs1 hnlt hfresh hfresh₂ l2.same.cr3)

/-- A write fault in the window page of a table, which is copied. -/
theorem windowFault_keeps (hE : Even alloc) (hA : ∀ m, Hands alloc m) (h : Sound m L ∅) (hT : Twin L m m₂)
    (ha : KERNEL_MEMORY ≤ addr) (hlt : addr < 2 ^ 32) (hp : present (m.pde addr) = true) (hq : present (m.pte addr) = true)
    (hr : Returns (pfRoViolation alloc addr) m u m') (hr₂ : Returns (pfRoViolation alloc addr) m₂ u₂ m₂') :
    Alike m' m₂' ∧ Keeps (m, m₂) (m', m₂') := by
  have h₂ := hT.sound h
  have hp₂ : present (m₂.pde addr) = true := by rw [hT.pde_eq h hlt, hp]
  have hq₂ : present (m₂.pte addr) = true := by rw [hT.pte_eq h hlt hp, hq]
  obtain ⟨d, K, k, new, m1, hd, hdlt, hpd, _, hK, hk, hnew, hnlt, _, hfresh, rfl⟩ :=
    pfRoViolation_window h (by simp) ha hlt hp hq (hA _) hr
  obtain ⟨d₂, K₂, k₂, new₂, m1₂, hd₂, _, hpd₂, _, hK₂, hk₂, hnew₂, _, _, hfresh₂, rfl⟩ :=
    pfRoViolation_window h₂ (by simp) ha hlt hp₂ hq₂ (hA _) hr₂
  obtain rfl : d₂ = d := hd₂.trans hd.symm
  obtain rfl : K₂ = K := Option.some.inj (hK₂.symm.trans hK)
  rw [hT.scan_eq hK _ (le_refl _), hk] at hk₂
  obtain rfl : k = k₂ := Option.some.inj hk₂
  have hbitmap : (m₂.setWord K₂ k (mkEntry (frameOf (m₂.ram m₂.cr3 d₂)) 3#32)).bitmap =
      (m.setWord K₂ k (mkEntry (frameOf (m.ram m.cr3 d₂)) 3#32)).bitmap := hT.bitmap
  obtain rfl : new₂ = new := hE _ _ _ _ _ _ hbitmap hnew hnew₂
  obtain ⟨h1, l1⟩ := h.unsharedTable hK hk hdlt hpd (e := 2#32) hnlt hfresh
  refine ⟨⟨_, h1, hT.unsharedTable h hK hk hdlt hpd hnlt hfresh⟩, fun b hb hkn => hkn.of_kept fun f hw => ?_⟩
  obtain ⟨hrole, hreach, hreach₂⟩ := hT.user_page h hb hw
  have hdirrole : ∀ {n : Machine}, Sound n L ∅ → L.role (frameOf (n.pde (window d₂))) ≠ .data := by
    intro n hn he
    rw [(window_words hn.holds hdlt).1, hn.holds.current_role] at he
    cases he
  refine ⟨?_, unshared_contents h hK hfresh hreach hrole (hdirrole h),
    unshared_contents h₂ hK hfresh₂ hreach₂ hrole (hdirrole h₂)⟩
  rw [l1.same.cr3, walk_of_samePages (unsharedTable_pages h hK hdlt hpd hnlt hfresh) hb]
  exact hw

/-- **The page faults of user mode.** -/
theorem userFault_keeps (hE : Even alloc) (hA : ∀ m, Hands alloc m) (h : Sound m L ∅) (hT : Twin L m m₂)
    (hb : Bounded m) (hlt : addr < 2 ^ 32) (hr : Returns (userFault alloc addr) m u m')
    (hr₂ : Returns (userFault alloc addr) m₂ u₂ m₂') : Alike m' m₂' ∧ Keeps (m, m₂) (m', m₂') := by
  rw [userFault, Returns.bind_iff ((gets_ok _).mpr ⟨rfl, rfl⟩)] at hr hr₂
  rw [hT.walk_eq h hlt] at hr₂
  cases hw : walk m.ram m.cr3 addr with
  | none =>
    rw [hw, Option.isSome_none, pageFault, if_neg Bool.false_ne_true] at hr hr₂
    exact pfNonPresent_keeps hE hA h hT (pfNonPresent_below h hb.cur.1 hw hr) hw hr hr₂
  | some f =>
    rw [hw, Option.isSome_some, pageFault, if_pos rfl] at hr hr₂
    obtain ⟨hp, hq, _⟩ := walk_eq_some.mp hw
    by_cases ha : addr < KERNEL_MEMORY
    · exact pfRoViolation_keeps hE hA h hT ha (walk_user ha hw).1 hr hr₂
    · exact windowFault_keeps hE hA h hT (not_lt.mp ha) hlt hp hq hr hr₂

end Faults

/-! ## Steps -/

/-- What one process does: the system calls for its memory, and its loads and stores with their faults. -/
def Act.OfProcess : Act → Prop
  | .execve _ | .sbrk _ | .store _ _ | .load _ => True
  | _ => False

/-- The addresses with bytes that the program or the loader stored, after the action. Before it these are `S`. -/
def Act.stores (m : Machine) (S : Nat → Prop) : Act → Nat → Prop
  | .execve (some file), a => file.Stores a
  | .store addr _, a => S a ∨ a = addr ∧ permits m addr true = true
  | _, a => S a

/-- The same after the steps of a run. -/
def stored (S : Nat → Prop) (xs : List (Step Machine Act Empty)) : Nat → Prop :=
  xs.foldl (fun S x => x.act.stores x.before S) S

/-- The byte that a load of user mode reads. -/
def userByte (m : Machine) (addr : Nat) : Option UInt8 :=
  if permits m addr false then (walk m.ram m.cr3 addr).map fun f => byteAt (m.ram f (wordIndex addr)) (addr % 4) else none

section Step

variable {alloc : Kernel Nat} {m m' m₂ m₂' : Machine} {L : Layout} {S : Nat → Prop} {act : Act} {addr : Nat} {b : UInt8}
  {es es₂ : List Empty} {u u₂ : Unit}

theorem stored_snoc (S : Nat → Prop) (xs : List (Step Machine Act Empty)) (x : Step Machine Act Empty) :
    stored S (xs ++ [x]) = x.act.stores x.before (stored S xs) := by
  rw [stored, List.foldl_append]
  rfl

theorem userStore_keeps (hE : Even alloc) (hA : ∀ m, Hands alloc m) (h : Sound m L ∅) (hT : Twin L m m₂) (hb : Bounded m)
    (hlt : addr < 2 ^ 32) (hc : addr < KERNEL_MEMORY ∨ permits m addr true = false)
    (hr : Returns (userStore alloc addr b) m u m') (hr₂ : Returns (userStore alloc addr b) m₂ u₂ m₂') :
    Alike m' m₂' ∧ Keeps (m, m₂) (m', m₂') ∧ (permits m addr true = true → Stored addr (m', m₂')) := by
  rw [userStore, Returns.bind_iff ((gets_ok _).mpr ⟨rfl, rfl⟩)] at hr hr₂
  rw [hT.permits_eq h hlt] at hr₂
  cases hp : permits m addr true with
  | true =>
    rw [hp, if_pos rfl] at hr hr₂
    have ha : addr < KERNEL_MEMORY := hc.resolve_right (by rw [hp]; simp)
    obtain ⟨_, hI, hk, hs⟩ := lockstep_pokeByte ha m m₂ u u₂ m' m₂' ⟨L, h, hT⟩ hr hr₂
    exact ⟨hI, hk, fun _ => hs⟩
  | false =>
    rw [hp, if_neg Bool.false_ne_true] at hr hr₂
    obtain ⟨hI, hk⟩ := userFault_keeps hE hA h hT hb hlt hr hr₂
    exact ⟨hI, hk, fun hn => absurd hn Bool.false_ne_true⟩

theorem userLoad_keeps (hE : Even alloc) (hA : ∀ m, Hands alloc m) (h : Sound m L ∅) (hT : Twin L m m₂) (hb : Bounded m)
    (hlt : addr < 2 ^ 32) (hr : Returns (userLoad alloc addr) m u m') (hr₂ : Returns (userLoad alloc addr) m₂ u₂ m₂') :
    Alike m' m₂' ∧ Keeps (m, m₂) (m', m₂') := by
  rw [userLoad, Returns.bind_iff ((gets_ok _).mpr ⟨rfl, rfl⟩)] at hr hr₂
  rw [hT.permits_eq h hlt] at hr₂
  cases hp : permits m addr false with
  | true =>
    rw [hp, Bool.not_true, onlyIf_neg rfl] at hr hr₂
    obtain ⟨_, rfl⟩ := pure_ok.mp hr
    obtain ⟨_, rfl⟩ := pure_ok.mp hr₂
    exact ⟨⟨L, h, hT⟩, Std.Refl.refl _⟩
  | false =>
    rw [hp, Bool.not_false, onlyIf_pos rfl] at hr hr₂
    exact userFault_keeps hE hA h hT hb hlt hr hr₂

/-- **One step** of both machines: stored bytes are known. -/
theorem known_step (hE : Even alloc) (hA : ∀ m, Hands alloc m) (hI : Alike m m₂) (hb : Bounded m)
    (hS : ∀ a, S a → Stored a (m, m₂)) (hown : act.OfProcess) (hproper : act.Proper m)
    (hst : step alloc m act = some (m', es)) (hst₂ : step alloc m₂ act = some (m₂', es₂)) :
    Alike m' m₂' ∧ ∀ a, act.stores m S a → Stored a (m', m₂') := by
  obtain ⟨hen, hr⟩ := step_ok.mp hst
  obtain ⟨_, hr₂⟩ := step_ok.mp hst₂
  have hkept : Alike m' m₂' ∧ Keeps (m, m₂) (m', m₂') → Alike m' m₂' ∧ ∀ a, S a → Stored a (m', m₂') :=
    fun ⟨hI', hk⟩ => ⟨hI', fun a ha => (hS a ha).keep hk⟩
  obtain ⟨L, h, hT⟩ := hI
  cases act with
  | switch _ => exact absurd hown id
  | fork => exact absurd hown id
  | exit _ => exact absurd hown id
  | wait _ => exact absurd hown id
  | read _ _ => exact absurd hown id
  | execve file =>
    obtain ⟨r, m1, h1, hu⟩ := (bind_ok _ _ _).mp hr
    obtain ⟨_, rfl⟩ := pure_ok.mp hu
    obtain ⟨r₂, m1₂, h1₂, hu₂⟩ := (bind_ok _ _ _).mp hr₂
    obtain ⟨_, rfl⟩ := pure_ok.mp hu₂
    cases file with
    | none =>
      obtain ⟨_, rfl⟩ := pure_ok.mp h1
      obtain ⟨_, rfl⟩ := pure_ok.mp h1₂
      exact ⟨⟨L, h, hT⟩, hS⟩
    | some file =>
      obtain ⟨_, hI', hs⟩ := lockstep_doExecve hE hA hproper m m₂ r r₂ m' m₂' ⟨L, h, hT⟩ h1 h1₂
      exact ⟨hI', hs⟩
  | sbrk incr =>
    obtain ⟨r, m1, h1, hu⟩ := (bind_ok _ _ _).mp hr
    obtain ⟨_, rfl⟩ := pure_ok.mp hu
    obtain ⟨r₂, m1₂, h1₂, hu₂⟩ := (bind_ok _ _ _).mp hr₂
    obtain ⟨_, rfl⟩ := pure_ok.mp hu₂
    obtain ⟨_, hI', hk⟩ := lockstep_doSbrk incr m m₂ r r₂ m' m₂' ⟨L, h, hT⟩ h1 h1₂
    exact hkept ⟨hI', hk⟩
  | store addr b =>
    rw [Act.enabled, Bool.and_eq_true, decide_eq_true_eq, decide_eq_true_eq] at hen
    obtain ⟨hI', hk, hs⟩ := userStore_keeps hE hA h hT hb hen.2 hproper hr hr₂
    refine ⟨hI', ?_⟩
    rintro a (ha | ⟨rfl, hp⟩)
    · exact (hS a ha).keep hk
    · exact hs hp
  | load addr =>
    rw [Act.enabled, Bool.and_eq_true, decide_eq_true_eq, decide_eq_true_eq] at hen
    exact hkept (userLoad_keeps hE hA h hT hb hen.2 hr hr₂)

end Step

/-! ## Runs -/

section Run

variable {img : Image} {tag : MmapTag} {table : FrameTable} {ram ram₂ : Nat → Nat → Word} {m n n₂ : Machine} {L : Layout}
  {xs ys zs : List (Step Machine Act Empty)} {addr : Nat}

/-- Other contents of frames that nothing reaches. -/
theorem Sound.twin (h : Sound m L ∅) (hsame : ∀ f, Reaches m f → ram₂ f = m.ram f) :
    Twin L m { m with ram := ram₂ } := by
  have hH := h.holds
  refine ⟨rfl, rfl, rfl, rfl, fun i _ => ?_, fun K i hK _ => ?_, fun p t d ht _ => ?_, fun p t d i ht hd hp _ => ?_⟩
  · exact congrFun (hsame _ hH.reaches_low) i
  · exact congrFun (hsame _ (hH.reaches_ktab hK)) i
  · exact congrFun (hsame _ (hH.reaches_dir ht)) d
  · exact congrFun (hsame _ (hH.reaches_window ht (by omega) hp)) i

theorem Known.userByte_eq (hT : Twin L m n) (h : Sound m L ∅) (hlt : addr < 2 ^ 32) (hk : Known (m, n) addr) :
    userByte n addr = userByte m addr := by
  obtain ⟨f, hw, hbyte⟩ := hk
  dsimp only at hw hbyte
  rw [userByte, userByte, hT.permits_eq h hlt, hT.walk_eq h hlt, hw, Option.map_some, Option.map_some, hbyte]

/-- **Two runs that differ in what free frames contain**: a process has the same pages with the same permissions, and
reads the same bytes where it or the loader stored something, or where it had pages before. -/
theorem user_memory_agrees (hrun : Run (step allocUnreferenced) (boot img tag table ram) xs m)
    (hC : ∀ x ∈ xs, x.act.Proper x.before) (hfree : ∀ f, m.bitmap f ≠ 0 ∨ Reaches m f → ram₂ f = m.ram f)
    (h₁ : Run (step allocUnreferenced) m ys n) (h₂ : Run (step allocUnreferenced) { m with ram := ram₂ } zs n₂)
    (hacts : acts ys = acts zs) (hown : ∀ y ∈ ys, y.act.OfProcess ∧ y.act.Proper y.before) (ha : addr < KERNEL_MEMORY) :
    walk n₂.ram n₂.cr3 addr = walk n.ram n.cr3 addr ∧ (∀ write, permits n₂ addr write = permits n addr write) ∧
      (stored (fun a => a < KERNEL_MEMORY ∧ (walk m.ram m.cr3 a).isSome) ys addr → userByte n₂ addr = userByte n addr) := by
  obtain ⟨⟨L, h⟩, hb⟩ := run_sound hands_unreferenced hrun hC
  have hT : Twin L m { m with ram := ram₂ } := h.twin fun f hf => hfree f (Or.inr hf)
  have hstart : ∀ a, a < KERNEL_MEMORY ∧ (walk m.ram m.cr3 a).isSome → Stored a (m, { m with ram := ram₂ }) := by
    rintro a ⟨ha, hsome⟩
    obtain ⟨f, hw⟩ := Option.isSome_iff_exists.mp hsome
    refine ⟨ha, f, hw, ?_⟩
    dsimp only
    rw [hfree f (Or.inr (h.holds.user_page ha hw).2)]
  have hboth := h₁.both (C := fun s a => a.OfProcess ∧ a.Proper s)
    (fun hist s t => Alike s t ∧ Bounded s ∧
      ∀ a, stored (fun a => a < KERNEL_MEMORY ∧ (walk m.ram m.cr3 a).isSome) hist a → Stored a (s, t))
    ⟨⟨L, h, hT⟩, hb, hstart⟩ ?_ h₂ hacts hown
  · obtain ⟨⟨L', h', hT'⟩, _, hknown⟩ := hboth
    have hlt := user_lt ha
    exact ⟨hT'.walk_eq h' hlt, fun write => hT'.permits_eq h' hlt write, fun hs =>
      (hknown addr hs).2.userByte_eq hT' h' hlt⟩
  · rintro hist s t act s' t' es es' ⟨hI, hbs, hS⟩ ⟨hof, hproper⟩ hst hst'
    obtain ⟨Ls, hs, _⟩ := id hI
    obtain ⟨hI', hS'⟩ := known_step even_allocUnreferenced hands_unreferenced hI hbs hS hof hproper hst hst'
    refine ⟨hI', step_bounded hs hands_unreferenced hbs hproper hst, ?_⟩
    rw [stored_snoc]
    exact hS'

end Run

/-! ## The stack of the first program -/

section Stack

variable {m : Machine} {L : Layout} {T : Finset Nat} {f t : Nat}

/-- The stack page is open to user mode, and its frame is not cleared. -/
theorem Starts.stack (hS : Starts m f t) (h : Holds m L) (write : Bool) :
    permits (m.stacked f t) 0xBFFFF000 write = true ∧
      walk (m.stacked f t).ram (m.stacked f t).cr3 0xBFFFF000 = some f ∧ (m.stacked f t).ram f = m.ram f := by
  obtain ⟨hflt, _, hnf, htlt, _, hnt, hne⟩ := hS.fresh
  rw [frames_eq] at hflt htlt
  have hfc : f ≠ (m.setCount f 1).cr3 := fun he => hnf (he ▸ h.reaches_cr3)
  have htc : t ≠ (m.setCount f 1).cr3 := fun he => hnt (he ▸ h.reaches_cr3)
  have hframe : frameOf (mkEntry t (PG_USER ||| PG_RW ||| 3#32)) = t := frameOf_mkEntry htlt (by decide)
  have hcr3 : (m.stacked f t).cr3 = m.cr3 := by
    rw [Machine.stacked, addTable_eq htc]
    rfl
  have hpde : (m.stacked f t).ram m.cr3 (dirIndex 0xBFFFF000) = mkEntry t (PG_USER ||| PG_RW ||| 3#32) := by
    rw [hS.dir h, if_pos (by decide)]
  have htable : ((m.setCount f 1).addTable 767 t (PG_USER ||| PG_RW)).pde (KERNEL_MEMORY - PAGE_SIZE) =
      mkEntry t (PG_USER ||| PG_RW ||| 3#32) := @addTable_pde (m.setCount f 1) t (KERNEL_MEMORY - PAGE_SIZE) _ htc
  have hpte : (m.stacked f t).ram t (pageTableIndex 0xBFFFF000) = mkEntry f (PG_USER ||| PG_RW ||| 1#32) := by
    rw [Machine.stacked, Machine.mapped, htable, hframe]
    exact setWord_self ..
  refine ⟨?_, ?_, ?_⟩
  · rw [permits, hcr3, hpde, hframe, hpte]
    simp only [present_mkEntry, user_mkEntry, writable_mkEntry]
    cases write <;> decide
  · rw [hcr3, walk_eq_some, hpde, hframe, hpte, frameOf_mkEntry hflt (by decide)]
    simp
  · rw [Machine.stacked, Machine.mapped, htable, hframe]
    funext j
    rw [setWord_of_ne _ _ _ _ (Or.inl hne.symm), addTable_eq htc, setWord_of_ne _ _ _ _ (Or.inl hfc), setCount_ram,
      setFrame_of_ne _ _ _ hne.symm, setCount_ram]

/-- What the new program reads on its stack. -/
theorem Starts.userByte_stack (hS : Starts m f t) (h : Holds m L) {u : TaskStruct} :
    userByte ((m.stacked f t).setCur u) 0xBFFFF000 = some (byteAt (m.ram f 0) 0) := by
  obtain ⟨hread, hw, hsame⟩ := hS.stack h false
  have hbyte : userByte ((m.stacked f t).setCur u) 0xBFFFF000 = userByte (m.stacked f t) 0xBFFFF000 := rfl
  rw [hbyte, userByte, if_pos hread, hw, Option.map_some, hsame]
  rfl

/-- The first program stores a byte there. -/
theorem Starts.store_stack (hS : Starts m f t) (h : Holds m L) {u : TaskStruct} (hu : u.state = .running) (b : UInt8) :
    ∃ n, step allocUnreferenced ((m.stacked f t).setCur u) (.store 0xBFFFF000 b) = some (n, []) := by
  obtain ⟨hwrite, hw, _⟩ := hS.stack h true
  have hper : permits ((m.stacked f t).setCur u) 0xBFFFF000 true = true := hwrite
  have hstate : ((m.stacked f t).setCur u).cur.state = .running := by rw [setCur_cur, hu]
  obtain ⟨n, hpoke⟩ : ∃ n, Returns (pokeByte 0xBFFFF000 b) ((m.stacked f t).setCur u) () n :=
    ⟨_, pokeByte_ok.mpr ⟨f, hw, rfl⟩⟩
  refine ⟨n, step_ok.mpr ⟨?_, ?_⟩⟩
  · rw [Act.enabled, hstate]
    decide
  · rw [Act.run, userStore, Returns.bind_iff ((gets_ok _).mpr ⟨rfl, rfl⟩), hper, if_pos rfl]
    exact hpoke

/-- The two steps as a run. -/
theorem Starts.stack_run (hS : Starts m f t) (h : Holds m L) {u : TaskStruct} (hu : u.state = .running) (b : UInt8)
    (hexec : step allocUnreferenced m (.execve (some blankElf)) = some ((m.stacked f t).setCur u, [])) :
    ∃ ys n, Run (step allocUnreferenced) m ys n ∧ acts ys = [.execve (some blankElf), .store 0xBFFFF000 b] ∧
      (∀ y ∈ ys, y.act.OfProcess ∧ y.act.Proper y.before) ∧ ∀ S, stored S ys 0xBFFFF000 := by
  obtain ⟨n, hst⟩ := hS.store_stack h hu b
  refine ⟨_, n, Run.snoc (Run.snoc Run.refl hexec) hst, rfl, fun y hy => ?_, fun S => Or.inr ⟨rfl, (hS.stack h true).1⟩⟩
  simp only [List.nil_append, List.cons_append, List.mem_cons, List.not_mem_nil, or_false] at hy
  rcases hy with rfl | rfl
  · exact ⟨trivial, blankElf_below⟩
  · exact ⟨trivial, Or.inl (by decide)⟩

end Stack

/-- Memory with one frame that is not zero. -/
def markedRam (f g _ : Nat) : Word := if g = f then 1#32 else 0#32

/-- The start of the small machine with such a frame. -/
def markedBoot (f : Nat) : Machine := boot smallImage alignedMap ⟨fun _ => 0, []⟩ (markedRam f)

section Marked

variable {f t : Nat}

theorem markedBoot_ram (g : Nat) (hg : g ≠ f) : (markedBoot f).ram g = smallBoot.ram g := by
  have hboot : bootRam smallImage (markedRam f) g = bootRam smallImage (fun _ _ => 0#32) g := by
    funext i
    rw [bootRam, bootRam, markedRam, if_neg hg]
  have hdir : bootRam smallImage (markedRam f) smallImage.directory =
      bootRam smallImage (fun _ _ => 0#32) smallImage.directory := by
    funext i
    rw [bootRam, bootRam, if_neg smallImage.ne, if_pos rfl, if_neg smallImage.ne, if_pos rfl]
  funext i
  show ((Machine.setWord _ _ _ _).setWord _ _ _).ram g i = ((Machine.setWord _ _ _ _).setWord _ _ _).ram g i
  simp only [setWord_ram, hboot, hdir]

theorem markedBoot_self (hf : f ≠ smallImage.directory ∧ f ≠ smallImage.table) (i : Nat) :
    (markedBoot f).ram f i = 1#32 ∧ smallBoot.ram f i = 0#32 := by
  constructor
  · show ((Machine.setWord _ _ _ _).setWord _ _ _).ram f i = _
    rw [setWord_of_ne _ _ _ _ (Or.inl hf.1), setWord_of_ne _ _ _ _ (Or.inl hf.1)]
    show bootRam smallImage (markedRam f) f i = _
    rw [bootRam, if_neg hf.2, if_neg hf.1, markedRam, if_pos rfl]
  · show ((Machine.setWord _ _ _ _).setWord _ _ _).ram f i = _
    rw [setWord_of_ne _ _ _ _ (Or.inl hf.1), setWord_of_ne _ _ _ _ (Or.inl hf.1)]
    show bootRam smallImage (fun _ _ => 0#32) f i = _
    rw [bootRam, if_neg hf.2, if_neg hf.1]

/-- The same frames are taken in both machines. -/
theorem marked_starts : ∃ f t, Starts smallBoot f t ∧ Starts (markedBoot f) f t := by
  have hroom : ∀ ram, 2 ≤ (freeFrames (boot smallImage alignedMap ⟨fun _ => 0, []⟩ ram)).card := fun ram =>
    le_trans (by decide) (Finset.card_le_card (small_freeFrames ram))
  obtain ⟨f, t, hS⟩ : ∃ f t, Starts smallBoot f t := boot_starts (hroom fun _ _ => 0#32)
  obtain ⟨f₂, t₂, hS₂⟩ : ∃ f₂ t₂, Starts (markedBoot f) f₂ t₂ := boot_starts (hroom (markedRam f))
  have hbitmap : (markedBoot f).bitmap = smallBoot.bitmap := rfl
  obtain rfl : f₂ = f := even_allocUnreferenced _ _ _ _ _ _ hbitmap hS.frame hS₂.frame
  have hcount : ((markedBoot f₂).setCount f₂ 1).bitmap = (smallBoot.setCount f₂ 1).bitmap := by
    rw [Machine.setCount, Machine.setCount, hbitmap]
  obtain rfl : t₂ = t := even_allocUnreferenced _ _ _ _ _ _ hcount hS.table hS₂.table
  exact ⟨f₂, t₂, hS, hS₂⟩

theorem marked_free (hS : Starts smallBoot f t) (g : Nat) (hg : smallBoot.bitmap g ≠ 0 ∨ Reaches smallBoot g) :
    (markedBoot f).ram g = smallBoot.ram g := by
  obtain ⟨_, hzero, hnf, _⟩ := hS.fresh
  refine markedBoot_ram g ?_
  rintro rfl
  rcases hg with hb | hr
  · exact hb hzero
  · exact hnf hr

/-- **A new program reads what its frames contained.** Nothing clears the page of the stack. -/
theorem user_memory_reveals : ∃ ram₂ ys zs n n₂, (∀ f, smallBoot.bitmap f ≠ 0 ∨ Reaches smallBoot f → ram₂ f = smallBoot.ram f) ∧
    Run (step allocUnreferenced) smallBoot ys n ∧ Run (step allocUnreferenced) { smallBoot with ram := ram₂ } zs n₂ ∧
    acts ys = [.execve (some blankElf)] ∧ acts zs = acts ys ∧ permits n 0xBFFFF000 false = true ∧
    permits n₂ 0xBFFFF000 false = true ∧ userByte n₂ 0xBFFFF000 ≠ userByte n 0xBFFFF000 := by
  obtain ⟨f, t, hS, hS₂⟩ := marked_starts
  have h : Holds smallBoot (bootLayout smallImage) :=
    (boot_sound smallImage alignedMap ⟨fun _ => 0, []⟩ fun _ _ => 0#32).holds
  have h₂ : Holds (markedBoot f) (bootLayout smallImage) :=
    (boot_sound smallImage alignedMap ⟨fun _ => 0, []⟩ (markedRam f)).holds
  have hf : f ≠ smallImage.directory ∧ f ≠ smallImage.table :=
    ⟨fun he => hS.fresh.2.2.1 (he ▸ h.reaches_cr3), fun he => hS.fresh.2.2.1 (he ▸ h.reaches_low)⟩
  obtain ⟨hone, hzero⟩ := markedBoot_self hf 0
  refine ⟨(markedBoot f).ram, _, _, (smallBoot.stacked f t).setCur smallBoot.cur.started,
    ((markedBoot f).stacked f t).setCur (markedBoot f).cur.started, marked_free hS, Run.snoc Run.refl hS.execve,
    Run.snoc Run.refl hS₂.execve, rfl, rfl, (hS.stack h false).1, (hS₂.stack h₂ false).1, ?_⟩
  rw [hS.userByte_stack h, hS₂.userByte_stack h₂, hone, hzero]
  decide

/-- A byte on the stack that the program stored is the same. -/
theorem user_memory_agrees_stack : ∃ ram₂ ys zs n n₂, (∀ f, smallBoot.bitmap f ≠ 0 ∨ Reaches smallBoot f → ram₂ f = smallBoot.ram f) ∧
    Run (step allocUnreferenced) smallBoot ys n ∧ Run (step allocUnreferenced) { smallBoot with ram := ram₂ } zs n₂ ∧
    acts ys = [.execve (some blankElf), .store 0xBFFFF000 7] ∧ acts zs = acts ys ∧
    userByte n₂ 0xBFFFF000 = userByte n 0xBFFFF000 := by
  obtain ⟨f, t, hS, hS₂⟩ := marked_starts
  have h : Holds smallBoot (bootLayout smallImage) :=
    (boot_sound smallImage alignedMap ⟨fun _ => 0, []⟩ fun _ _ => 0#32).holds
  have h₂ : Holds (markedBoot f) (bootLayout smallImage) :=
    (boot_sound smallImage alignedMap ⟨fun _ => 0, []⟩ (markedRam f)).holds
  obtain ⟨ys, n, hrun, hacts, hown, hstored⟩ := hS.stack_run h (u := smallBoot.cur.started) rfl 7 hS.execve
  obtain ⟨zs, n₂, hrun₂, hacts₂, _⟩ := hS₂.stack_run h₂ (u := (markedBoot f).cur.started) rfl 7 hS₂.execve
  have hsame := hacts₂.trans hacts.symm
  have hstart : Run (step allocUnreferenced) (boot smallImage alignedMap ⟨fun _ => 0, []⟩ fun _ _ => 0#32) [] smallBoot :=
    Run.refl
  have huser : 0xBFFFF000 < KERNEL_MEMORY := by decide
  have hagree := user_memory_agrees hstart (by simp) (marked_free hS) hrun hrun₂ hsame.symm hown huser
  exact ⟨(markedBoot f).ram, ys, zs, n, n₂, marked_free hS, hrun, hrun₂, hacts, hsame, hagree.2.2 (hstored _)⟩

end Marked

end Raampjes.Mm
