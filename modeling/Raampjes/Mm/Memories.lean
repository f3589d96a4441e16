import Raampjes.Mm.Isolation
import Raampjes.Mm.LoadedImage

/-!
# A memory for each task

- `storeBytes_permitted`: a store of the kernel where user mode may write;
- `loadSteps_private`: loading a program, which gets pages of its own;
- `Act.Tame`: the accesses that keep to copy on write; `Act.effect`: what an action does to the memories of the tasks;
- `step_effect`, `memories_private`: so it is in every run;
- `image_loaded`: what a program finds, whatever has run before.
-/

namespace Raampjes.Mm

open Progs Memories Runs Sched

/-! ## Stores -/

section Stores

variable {alloc : Kernel Nat} {m m' : Machine} {L L' : Layout} {T : Finset Nat} {a c f addr n i : Nat} {b : UInt8}
  {flags : Word} {u : Unit}

/-- A page that user mode can write to. -/
theorem permits_page (ha : a < KERNEL_MEMORY) (hp : permits m a true = true) :
    ∃ f, walk m.ram m.cr3 a = some f ∧ HasPage m.ram m.cr3 (dirIndex a) (pageTableIndex a) ∧
      f = pageOf m.ram m.cr3 (dirIndex a) (pageTableIndex a) ∧
      Exposed m.ram m.cr3 (dirIndex a) (pageTableIndex a) := by
  simp only [permits, Bool.and_eq_true, Bool.or_eq_true, Bool.not_true, Bool.false_eq_true, false_or] at hp
  obtain ⟨⟨⟨⟨hpd, hpt⟩, _⟩, _⟩, hwd, hwt⟩ := hp
  exact ⟨_, walk_eq_some.mpr ⟨hpd, hpt, rfl⟩, ⟨dirIndex_user ha, pageTableIndex_lt a, hpd, hpt⟩, rfl, hwd, hwt⟩

/-- What a store where user mode may write leaves. -/
structure Poked (m : Machine) (L : Layout) (m' : Machine) (w : Memory Nat UInt8) : Prop where
  sound : Sound m' L ∅
  kept : Local m L m' L
  sourced : Sourced (m, L) (m', L)
  bytes : userMemory m'.ram m.cr3 = overlay w (userMemory m.ram m.cr3)
  tasks : m'.tasks = m.tasks
  permits : ∀ c, c < KERNEL_MEMORY → permits m' c true = permits m c true

theorem Poked.refl (h : Sound m L ∅) : Poked m L m empty :=
  ⟨h, Local.refl m L, sourced_of_samePages (SamePages.refl m.ram m.cr3) fun _ _ => rfl, (empty_overlay _).symm, rfl,
    fun _ _ => rfl⟩

theorem Poked.trans {m1 m2 : Machine} {v w : Memory Nat UInt8} (h1 : Poked m L m1 w) (h2 : Poked m1 L m2 v) :
    Poked m L m2 (overlay v w) := by
  have hcr3 : m1.cr3 = m.cr3 := h1.kept.same.cr3
  refine ⟨h2.sound, h1.kept.trans h2.kept, h1.sourced.trans h1.kept h2.sourced, ?_,
    h2.tasks.trans h1.tasks, fun c hc => (h2.permits c hc).trans (h1.permits c hc)⟩
  have hb := h2.bytes
  rw [hcr3, h1.bytes] at hb
  rw [hb, overlay_overlay]

/-- The memories after the store. -/
theorem Poked.memories {w : Memory Nat UInt8} (hP : Poked m L m' w) (h : Holds m L) {p : Nat} (hp : m.current = p) (q : Nat) :
    Mm.memories m' q = if q = p then (Mm.memories m q).map (overlay w) else Mm.memories m q := by
  subst hp
  rw [hP.kept.memories h hP.sound.holds, hP.bytes, Function.update_apply]
  split
  · rename_i hq
    rw [hq, Mm.memories, memoryOf_current h, Option.map_some]
  · rfl

/-- **A byte stored where user mode may write.** -/
theorem pokeByte_permitted (h : Sound m L ∅) (hG : Guarded m) (ha : a < KERNEL_MEMORY) (hp : permits m a true = true)
    (hr : Returns (pokeByte a b) m u m') : Poked m L m' (single a b) := by
  obtain ⟨f, hw, rfl⟩ := pokeByte_ok.mp hr
  obtain ⟨f', hw', hpage, hf, hx⟩ := permits_page ha hp
  obtain rfl : f' = f := Option.some.inj (hw'.symm.trans hw)
  obtain ⟨h', _, hsame, hlocal⟩ := h.poke ha hw (wordIndex a) (setByte (m.ram f' (wordIndex a)) (a % 4) b)
  have hn := h.holds.noTable_of_role (Or.inl (h.holds.user_page ha hw).1)
  have hdir : ∀ d, (m.setWord f' (wordIndex a) (setByte (m.ram f' (wordIndex a)) (a % 4) b)).ram m.cr3 d =
      m.ram m.cr3 d := fun d => setWord_of_ne _ _ _ _ (Or.inl (h.holds.cr3 ▸ (hn.dir _ _ h.holds.curTask).symm))
  refine ⟨h', hlocal (hf ▸ hG.not_foreign h.holds hpage hx), sourced_of_samePages hsame fun d _ => hdir d,
    userMemory_poke h ha hw, rfl, fun c hc => ?_⟩
  rw [Mm.permits, Mm.permits]
  dsimp only [setWord_cr3]
  rw [hdir]
  cases hpd : present (m.ram m.cr3 (dirIndex c)) with
  | false => rfl
  | true =>
    have htab := hn.table _ _ h.holds.curTask _ (dirIndex_user hc) (h.holds.cr3 ▸ hpd)
    rw [setWord_of_ne _ _ _ _ (Or.inl (h.holds.cr3 ▸ htab.symm))]

/-- User mode may write to the `n` bytes from `addr` on, as far as they lie below the kernel. -/
def Writable (m : Machine) (addr n : Nat) : Prop :=
  ∀ i, i < n → (addr + i) % 2 ^ 32 < KERNEL_MEMORY → permits m ((addr + i) % 2 ^ 32) true = true

/-- **Bytes that the kernel stores where user mode may write.** -/
theorem storeBytes_permitted {bytes : Nat → UInt8} (h : Sound m L ∅) (hG : Guarded m) (hu : InUser addr n)
    (hw : Writable m addr n) (hr : Returns (storeBytes alloc addr bytes n) m u m') : Poked m L m' (bytesAt addr bytes n) := by
  refine loop_ok (fun i t => Poked m L t (bytesAt addr bytes i)) hr (Poked.refl h) ?_
  intro i t t' hi hP hround
  have ha := hu i hi
  have hperm := hw i hi ha
  set place := (addr + i) % 2 ^ 32
  rw [storeUser_user alloc ha] at hround
  have hperm : permits t place true = true := (hP.permits _ ha).trans hperm
  -- a present page is stored to at once
  obtain ⟨f, hwalk, _⟩ := permits_page ha hperm
  rw [kernelStore, Returns.bind_iff ((gets_ok _).mpr ⟨rfl, rfl⟩), hwalk, Option.isSome_some, if_pos rfl] at hround
  have hG' : Guarded t := hG.change h.holds hP.sound.holds hP.kept hP.sourced
  exact hP.trans (pokeByte_permitted hP.sound hG' ha hperm hround)

/-! ## Loading -/

/-- A page with a new frame is as private as the frame is new. -/
theorem Filled.private_ (hF : Filled alloc m L a flags m' L') (h : Sound m L T) (ha : a < KERNEL_MEMORY) (hfl : Plain flags)
    (hl : Local m L m' L') (hp : Private (m, L)) : Private (m', L') := by
  obtain ⟨g, hlt, _, hfresh, hone⟩ := hF.pages h ha
  intro d i hpage hf
  simp only [hl.same.cr3] at hpage hf
  rw [hl.foreign_iff, pageOf_eq] at hf
  by_cases hat : d = dirIndex a ∧ i = pageTableIndex a
  · rw [((hone d i).1 hat).2, frameOf_mkEntry hlt (hfl.or plain_one).lt] at hf
    exact hfresh (hf.reaches h.holds)
  · obtain ⟨hiff, heq⟩ := (hone d i).2 hat
    rw [heq (hiff.mp hpage)] at hf
    exact hp d i (hiff.mp hpage) hf

/-- The books are right, and no page of the running task is another's. -/
def Alone (m : Machine) (L : Layout) : Prop := Booked m L ∧ Private (m, L)

theorem Alone.fill (hI : Alone m L) (hF : Filled allocPageFrame m L a flags m' L') (ha : a < KERNEL_MEMORY)
    (hfl : Plain flags) (hno : ¬ HasPage m.ram m.cr3 (dirIndex a) (pageTableIndex a)) : Alone m' L' ∧ Leaves (m, L) (m', L') := by
  obtain ⟨hB, hP⟩ := hI
  obtain ⟨h', hp⟩ := hF.pays hB ha hfl hno
  obtain ⟨_, hl⟩ := hF.sound hB.1 ha hfl (hB.2.hands_taken hB.1.holds)
  exact ⟨⟨hp.booked hB h', hF.private_ hB.1 ha hfl hl hP⟩, hl⟩

/-- **The steps of loading** leave the other tasks alone. -/
theorem loadSteps_private : LoadSteps allocPageFrame Alone Leaves where
  poke addr b ha m L u m' hI hr := by
    obtain ⟨f, hw, rfl⟩ := pokeByte_ok.mp hr
    obtain ⟨hB, hP⟩ := hI
    obtain ⟨h', hp⟩ := poke_pays hB ha hw (wordIndex addr) (setByte (m.ram f (wordIndex addr)) (addr % 4) b)
    obtain ⟨_, hs, _, _⟩ := hB.1.poke ha hw (wordIndex addr) (setByte (m.ram f (wordIndex addr)) (addr % 4) b)
    obtain ⟨hP', hl⟩ := hs.private_ hP
    exact ⟨L, ⟨hp.booked hB h', hP'⟩, hl⟩
  fault addr m L u m' ha hI hw hr := by
    obtain ⟨_, c, L', hc, _, hno, hF, _⟩ := pfNonPresent_cases hI.1.1 (by simp) ha hw (hI.1.2.hands hI.1.1.holds)
      (hI.1.2.hands_taken hI.1.1.holds) hr
    exact ⟨L', hI.fill hF hc plain_userRw hno⟩
  page flags i hfl hi m L u m' hI hr := by
    rcases allocPageAt_cases hI.1 hfl hi hr with rfl | ⟨ha, hno, L', hF⟩
    · exact ⟨L, hI, Std.Refl.refl _⟩
    · exact ⟨L', hI.fill hF ha hfl hno⟩
  retask g hg m L u m' hI hr := by
    rw [(update_ok _ _).mp hr]
    obtain ⟨hB, hP⟩ := hI
    obtain ⟨h', hp⟩ := setCur_pays hB (hg m)
    obtain ⟨_, hl⟩ := hB.1.retask (sameTasks_setCur hB.1.holds.cur (hg m).1) rfl
    refine ⟨L, ⟨hp.booked hB h', fun d i hpage hf => ?_⟩, hl⟩
    exact hP d i hpage (hl.foreign_iff.mp hf)

/-- **`do_execve`** leaves the other tasks alone, and the new program has pages of its own. -/
theorem doExecve_private {file : File} (hB : Booked m L) (hb : file.Below) {r : Int}
    (hr : Returns (doExecve allocPageFrame (some file)) m r m') :
    ∃ L', Sound m' L' ∅ ∧ Local m L m' L' ∧ Private (m', L') := by
  obtain ⟨m1, L1, m3, L3, m4, stack, hE⟩ := doExecve_cases hB hr
  have hI1 : Alone m1 L1 := ⟨hE.booked hB, fun d i hp => absurd hp hE.no_page⟩
  obtain ⟨hI3, hl3⟩ := hI1.fill hE.stackPage stackPage_user plain_userRw hE.no_page
  obtain ⟨L4, hI4, hl4⟩ := loadSteps_private.loadFile hb m3 L3 _ m4 hI3 hE.loaded
  obtain ⟨L5, hI5, hl5⟩ := loadSteps_private.retask (fun m => startTask stack m.cur) (fun _ => ⟨rfl, rfl⟩) m4 L4 () m' hI4
    ((update_ok _ _).mpr hE.eq)
  exact ⟨L5, hI5.1.1, hE.torn.2.1.trans (hl3.trans (hl4.trans hl5)), hI5.2⟩

/-- **`do_exit`** leaves the other tasks alone, and the task nothing. -/
theorem doExit_private (hB : Booked m L) {status : Int} (hr : Returns (doExit allocPageFrame status) m u m') :
    ∃ L', Sound m' L' ∅ ∧ Local m L m' L' ∧ ∀ d, d < 768 → present (m'.ram m.cr3 d) = false := by
  rw [doExit, Returns.bind_iff ((gets_ok _).mpr ⟨rfl, rfl⟩)] at hr
  obtain ⟨_, hr⟩ := check_bind_ok.mp hr
  rw [Returns.bind_iff ((update_ok _ ()).mpr rfl)] at hr
  obtain ⟨_, m2, h2, hr⟩ := (bind_ok _ _ _).mp hr
  rw [(update_ok _ _).mp hr]
  obtain ⟨h, hc⟩ := hB
  set t0 : TaskStruct := { m.cur with exitStatus := status, state := .stopped } with ht0
  have hsame : SameTasks m (m.setCur t0) := sameTasks_setCur h.holds.cur rfl
  obtain ⟨hs1, hl1⟩ := h.retask hsame rfl
  have hc1 : Counted (m.setCur t0) := by
    rw [Counted, show heldBy (m.setCur t0) = heldBy m from funext (hsame.heldBy rfl)]
    exact hc
  obtain ⟨L2, hs2, hl2, _, hempty⟩ := freeMemUsr_pays ⟨hs1, hc1⟩ h2
  obtain ⟨hs3, hl3⟩ := hs2.retask (sameTasks_wakeParent m2) (wakeParent_ram m2)
  refine ⟨L2, hs3, hl1.trans (hl2.trans hl3), fun d hd => ?_⟩
  have hcr3 : m2.cr3 = m.cr3 := hl2.same.cr3
  rw [wakeParent_ram, ← hcr3]
  exact hempty d hd

theorem userMemory_empty {ram : Nat → Nat → Word} {D : Nat} (hno : ∀ d, d < 768 → present (ram D d) = false) :
    userMemory ram D = empty := by
  funext a
  rw [userMemory]
  split
  · rename_i ha
    rw [walk, hno _ (dirIndex_user ha)]
    rfl
  · rfl

end Stores

/-! ## Changes that the user halves do not see -/

section Same

variable {m m' : Machine} {L L' : Layout} {q : Nat} (h : Holds m L) (h' : Holds m' L') (hdir : L'.dir = L.dir)
  (hram : ∀ g, L.role g ≠ .kernelTable → m'.ram g = m.ram g)

include h h' hdir hram

omit h' hdir in
theorem sameSpace_of_tasks {t : TaskStruct} (ht : m.tasks q = some t) : SameSpace m.ram m'.ram (L.dir q) := by
  have hT := h.task q t ht
  intro d hd
  refine ⟨congrFun (hram _ (by rw [hT.role]; simp)) d, fun hp i _ => congrFun (hram _ ?_) i⟩
  rw [hT.spaceOk.table d hd hp]
  simp

theorem memoryOf_same (hq : (m'.tasks q).isSome = (m.tasks q).isSome) : memoryOf m' q = memoryOf m q := by
  cases ht : m.tasks q with
  | none =>
    have hnone : m'.tasks q = none := Option.not_isSome_iff_eq_none.mp (by rw [hq, ht]; simp)
    rw [memoryOf_none ht, memoryOf_none hnone]
  | some t =>
    obtain ⟨t', ht'⟩ := Option.isSome_iff_exists.mp (hq.trans (by rw [ht]; rfl))
    rw [memoryOf_of h ht, memoryOf_of h' ht', hdir]
    rw [userMemory_congr (SameSpace.names (sameSpace_of_tasks h hram ht)) fun d i hp => ?_]
    refine hram _ ?_
    rw [(h.task q t ht).spaceOk.page d i hp]
    simp

omit h' hdir in
theorem permits_same (hcr3 : m'.cr3 = m.cr3) {c : Nat} {w : Bool} (hc : c < KERNEL_MEMORY) :
    permits m' c w = permits m c w := by
  have hs : SameSpace m.ram m'.ram m.cr3 := h.cr3 ▸ sameSpace_of_tasks h hram h.curTask
  obtain ⟨hword, htab⟩ := hs _ (dirIndex_user hc)
  rw [permits, permits, hcr3, hword]
  cases hp : present (m.ram m.cr3 (dirIndex c)) with
  | false => rfl
  | true => rw [htab hp _ (pageTableIndex_lt c)]

/-- Fewer tasks are as well guarded. -/
theorem Guarded.same (hG : Guarded m) (htasks : ∀ q, (m'.tasks q).isSome → (m.tasks q).isSome) : Guarded m' := by
  have hback : ∀ {r F}, IsDirectory m' r F → IsDirectory m r F ∧ SameSpace m.ram m'.ram F := by
    intro r F hF
    obtain ⟨hsome, rfl⟩ := (isDirectory_iff h').mp hF
    obtain ⟨t, ht⟩ := Option.isSome_iff_exists.mp (htasks r hsome)
    rw [hdir]
    exact ⟨(isDirectory_iff h).mpr ⟨htasks r hsome, rfl⟩, sameSpace_of_tasks h hram ht⟩
  intro p q D E hD hE hpq d i d' i' hp hq heq hx
  obtain ⟨hD0, hsp⟩ := hback hD
  obtain ⟨hE0, hsq⟩ := hback hE
  have hp0 := hsp.hasPage.mp hp
  have hq0 := hsq.hasPage.mp hq
  rw [hsp.pageOf hp0, hsq.pageOf hq0] at heq
  exact hG p q D E hD0 hE0 hpq d i d' i' hp0 hq0 heq ((hsp.exposed hp0).mp hx)

end Same

/-! ## Wait -/

/-- The scan of `do_wait` finds the task in slot `q`. -/
def reaped (m : Machine) (q : Nat) : Bool :=
  (m.tasks q).any fun t => t.ppid == m.cur.pid && decide (t.state = .stopped)

/-- The exit status that the scan stores, of slot `n`. -/
def statusAt (m : Machine) (statLoc n : Nat) : Memory Nat UInt8 :=
  if reaped m n && decide (statLoc ≠ NULL) then bytesAt statLoc (intByte ((m.tasks n).getD noTask).exitStatus) 4 else empty

/-- Those of the first `n` slots. -/
def statuses (m : Machine) (statLoc : Nat) : Nat → Memory Nat UInt8
  | 0 => empty
  | n + 1 => overlay (statusAt m statLoc n) (statuses m statLoc n)

/-- The memories after the scan of the first `n` slots: those of the children that it found are gone, and the waiting task
has their statuses. -/
def afterReaps (m : Machine) (statLoc n : Nat) (M : Nat → Option (Memory Nat UInt8)) (q : Nat) :
    Option (Memory Nat UInt8) :=
  if reaped m q && decide (q < n) then none
  else if q = m.current then (M q).map (overlay (statuses m statLoc n)) else M q

section Wait

variable {alloc : Kernel Nat} {m m' t t' : Machine} {L L' : Layout} {q n statLoc : Nat} {u : Unit}

/-- What the scan of the first `n` slots leaves. -/
structure Reaped (m : Machine) (L : Layout) (statLoc n : Nat) (t : Machine) : Prop where
  sound : Sound t L ∅
  guarded : Guarded t
  current : t.current = m.current
  tasks : ∀ q, t.tasks q = if reaped m q && decide (q < n) then none else m.tasks q
  cur : t.cur = m.cur
  memories : memories t = afterReaps m statLoc n (memories m)
  permits : ∀ c, c < KERNEL_MEMORY → permits t c true = permits m c true

theorem reaped_iff {t : TaskStruct} (ht : m.tasks q = some t) :
    reaped m q = true ↔ t.ppid = m.cur.pid ∧ t.state = .stopped := by
  rw [reaped, ht, Option.any_some, Bool.and_eq_true, beq_iff_eq, decide_eq_true_iff]

theorem Reaped.start (h : Sound m L ∅) (hG : Guarded m) : Reaped m L statLoc 0 m := by
  refine ⟨h, hG, rfl, fun q => by simp, rfl, ?_, fun _ _ => rfl⟩
  funext q
  rw [afterReaps, decide_eq_false (Nat.not_lt_zero q), Bool.and_false, if_neg Bool.false_ne_true, statuses]
  split
  · cases Mm.memories m q with
    | none => rfl
    | some N => rw [Option.map_some, empty_overlay]
  · rfl

/-- A slot without a child that has stopped. -/
theorem Reaped.skip (hR : Reaped m L statLoc n t) (hn : reaped m n = false) : Reaped m L statLoc (n + 1) t := by
  have hiff : ∀ q, (reaped m q && decide (q < n + 1)) = (reaped m q && decide (q < n)) := by
    intro q
    by_cases hq : q = n
    · rw [hq, hn, Bool.false_and, Bool.false_and]
    · rw [decide_eq_decide.mpr (show q < n + 1 ↔ q < n by omega)]
  refine ⟨hR.sound, hR.guarded, hR.current, fun q => ?_, hR.cur, ?_, hR.permits⟩
  · rw [hiff]
    exact hR.tasks q
  · rw [hR.memories]
    funext q
    rw [afterReaps, afterReaps, hiff, statuses, statusAt, hn, Bool.false_and, if_neg Bool.false_ne_true, empty_overlay]

/-- The running task is not found. -/
theorem reaped_current (h : Holds m L) (hrun : m.cur.state ≠ .stopped) : reaped m m.current = false := by
  rw [Bool.eq_false_iff]
  intro hc
  exact hrun ((reaped_iff h.curTask).mp hc).2

/-- Only slot `n` is looked at in round `n`. -/
theorem reaped_succ (hq : q ≠ n) : (reaped m q && decide (q < n + 1)) = (reaped m q && decide (q < n)) := by
  rw [decide_eq_decide.mpr (show q < n + 1 ↔ q < n by omega)]

/-- The status of a child that has stopped is stored. -/
theorem Reaped.stored (hR : Reaped m L statLoc n t) {c : TaskStruct} (hc : m.tasks n = some c) (hreaped : reaped m n = true)
    (hu : statLoc ≠ NULL → InUser statLoc 4) (hw : statLoc ≠ NULL → Writable m statLoc 4)
    (hr : Returns (onlyIf (statLoc ≠ NULL) (storeBytes alloc statLoc (intByte c.exitStatus) 4)) t u t') :
    Poked t L t' (statusAt m statLoc n) := by
  rw [statusAt, hreaped, Bool.true_and, hc, Option.getD_some]
  by_cases hnull : statLoc = NULL
  · rw [if_neg (by simp [hnull])]
    rw [onlyIf_neg (by simp [hnull])] at hr
    obtain ⟨_, rfl⟩ := pure_ok.mp hr
    exact Poked.refl hR.sound
  · rw [if_pos (by simp [hnull])]
    rw [onlyIf_pos (by simp [hnull])] at hr
    refine storeBytes_permitted hR.sound hR.guarded (hu hnull) (fun i hi ha => ?_) hr
    rw [hR.permits _ ha]
    exact hw hnull i hi ha

/-- The memories when the child leaves. -/
theorem Reaped.memories_freed (hR : Reaped m L statLoc n t) (h : Holds m L) (hrun : m.cur.state ≠ .stopped)
    (hreaped : reaped m n = true) {t1 : Machine} (hP : Poked t L t1 (statusAt m statLoc n)) (hs : Sound t' L ∅)
    (hram : ∀ g, L.role g ≠ .kernelTable → t'.ram g = t1.ram g)
    (htasks : ∀ q, t'.tasks q = if q = n then none else t.tasks q) :
    Mm.memories t' = afterReaps m statLoc (n + 1) (Mm.memories m) := by
  funext q
  by_cases hq : q = n
  · have hnone : t'.tasks q = none := (htasks q).trans (if_pos hq)
    rw [Mm.memories, memoryOf_none hnone, afterReaps, hq, hreaped, decide_eq_true (Nat.lt_succ_self n), Bool.true_and,
      if_pos rfl]
  · have hsome : (t'.tasks q).isSome = (t1.tasks q).isSome := by rw [htasks, if_neg hq, hP.tasks]
    have hM : memoryOf t1 q = if q = m.current then (Mm.memories t q).map (overlay _) else Mm.memories t q :=
      hP.memories hR.sound.holds hR.current q
    rw [Mm.memories, memoryOf_same hP.sound.holds hs.holds rfl hram hsome, hM, hR.memories, afterReaps, afterReaps,
      reaped_succ hq]
    by_cases hqc : q = m.current
    · rw [if_pos hqc, if_pos hqc, if_pos hqc, hqc, reaped_current h hrun, Bool.false_and, if_neg Bool.false_ne_true,
        if_neg Bool.false_ne_true, Option.map_map, statuses]
      congr 1
      funext N
      exact overlay_overlay _ _ _
    · rw [if_neg hqc, if_neg hqc, if_neg hqc]

/-- The child leaves. -/
theorem Reaped.freed (hR : Reaped m L statLoc n t) (h : Holds m L) (hrun : m.cur.state ≠ .stopped) {c : TaskStruct}
    (hc : m.tasks n = some c) (hreaped : reaped m n = true) {t1 : Machine} (hP : Poked t L t1 (statusAt m statLoc n))
    (hr : Returns (freeTask alloc c) t1 u t') : Reaped m L statLoc (n + 1) t' := by
  have hself : t.tasks n = m.tasks n := by rw [hR.tasks, decide_eq_false (lt_irrefl n), Bool.and_false, if_neg Bool.false_ne_true]
  have hnc : n ≠ m.current := by
    rintro rfl
    rw [reaped_current h hrun] at hreaped
    cases hreaped
  have hn0 : n ≠ 0 := by
    intro hn
    have hppid := ((h.task n c hc).boot hn).2.2.2.2
    have hparent := ((reaped_iff hc).mp hreaped).1
    rw [hppid, h.curOk.pid] at hparent
    exact hnc (hn.trans hparent)
  have hcur1 : t1.current = m.current := hP.kept.same.current.trans hR.current
  have hG1 : Guarded t1 := hR.guarded.change hR.sound.holds hP.sound.holds hP.kept hP.sourced
  obtain ⟨hs2, htasks, hcur2, hcr3, hram⟩ := freeTask_sound hP.sound ((congrFun hP.tasks n).trans (hself.trans hc)) hn0
    (hcur1.symm ▸ hnc) hr
  have htasks' : ∀ q, t'.tasks q = if q = n then none else t.tasks q := by
    intro q
    rw [htasks, hP.tasks, Function.update_apply]
  refine ⟨hs2, hG1.same hP.sound.holds hs2.holds rfl hram fun q hq => ?_, hcur2.trans hcur1, fun q => ?_, ?_,
    hR.memories_freed h hrun hreaped hP hs2 hram htasks', ?_⟩
  · rw [hP.tasks]
    rw [htasks'] at hq
    split at hq
    · cases hq
    · exact hq
  · rw [htasks', hR.tasks]
    by_cases hq : q = n
    · rw [if_pos hq, hq, hreaped, decide_eq_true (Nat.lt_succ_self n), Bool.true_and, if_pos rfl]
    · rw [if_neg hq, reaped_succ hq]
  · rw [← hR.cur, Machine.cur, Machine.cur, htasks', hcur2, if_neg (hcur1.symm ▸ hnc.symm), hcur1, hR.current]
  · intro c hc
    exact (permits_same hP.sound.holds hram hcr3 hc).trans ((hP.permits c hc).trans (hR.permits c hc))

/-- **One round of `do_wait`.** -/
theorem Reaped.round (hR : Reaped m L statLoc n t) (h : Holds m L) (hrun : m.cur.state ≠ .stopped)
    (hn : n < MAX_TASKS) (hu : findsChild m = true → statLoc ≠ NULL → InUser statLoc 4)
    (hw : statLoc ≠ NULL → Writable m statLoc 4) (hr : Returns (waitSlot alloc statLoc n) t u t') :
    Reaped m L statLoc (n + 1) t' := by
  have hself : t.tasks n = m.tasks n := by rw [hR.tasks, decide_eq_false (lt_irrefl n), Bool.and_false, if_neg Bool.false_ne_true]
  rw [waitSlot, Returns.bind_iff ((gets_ok _).mpr ⟨rfl, rfl⟩), Returns.bind_iff ((gets_ok _).mpr ⟨rfl, rfl⟩), hself,
    hR.cur] at hr
  cases hc : m.tasks n with
  | none =>
    rw [hc] at hr
    obtain ⟨_, rfl⟩ := pure_ok.mp hr
    exact hR.skip (by rw [reaped, hc, Option.any_none])
  | some c =>
    rw [hc] at hr
    dsimp only at hr
    by_cases hfound : c.ppid = m.cur.pid ∧ c.state = .stopped
    · have hreaped : reaped m n = true := (reaped_iff hc).mpr hfound
      have hfinds := findsChild_iff.mpr ⟨n, hn, c, hc, hfound⟩
      rw [onlyIf_pos (decide_eq_true hfound)] at hr
      obtain ⟨_, t1, h1, hr⟩ := (bind_ok _ _ _).mp hr
      exact hR.freed h hrun hc hreaped (hR.stored hc hreaped (hu hfinds) hw h1) hr
    · rw [onlyIf_neg (decide_eq_false hfound)] at hr
      obtain ⟨_, rfl⟩ := pure_ok.mp hr
      exact hR.skip (Bool.eq_false_iff.mpr fun he => hfound ((reaped_iff hc).mp he))

/-- Fields of tasks change. -/
theorem retask_memories (h : Sound m L ∅) (hs : SameTasks m m') (hram : m'.ram = m.ram) (hG : Guarded m) :
    Sound m' L ∅ ∧ Guarded m' ∧ memories m' = memories m := by
  obtain ⟨h', _⟩ := h.retask hs hram
  have hsame : ∀ g, L.role g ≠ .kernelTable → m'.ram g = m.ram g := fun g _ => congrFun hram g
  refine ⟨h', hG.same h.holds h'.holds rfl hsame fun q hq => by rwa [← hs.isSome], ?_⟩
  exact funext fun q => memoryOf_same h.holds h'.holds rfl hsame (hs.isSome q)

/-- **`do_wait`**, one scan. -/
theorem doWait_memories (h : Sound m L ∅) (hG : Guarded m) (hrun : m.cur.state ≠ .stopped)
    (hu : findsChild m = true → statLoc ≠ NULL → InUser statLoc 4) (hw : statLoc ≠ NULL → Writable m statLoc 4)
    (hr : Returns (doWait alloc statLoc) m u m') :
    Guarded m' ∧ memories m' = afterReaps m statLoc MAX_TASKS (memories m) := by
  rw [doWait, Returns.bind_iff ((gets_ok _).mpr ⟨rfl, rfl⟩)] at hr
  obtain ⟨_, m1, h1, hr⟩ := (bind_ok _ _ _).mp hr
  have hR : Reaped m L statLoc MAX_TASKS m1 := loop_ok (fun n t => Reaped m L statLoc n t) h1 (Reaped.start h hG)
    fun n t t' hn hR hround => hR.round h.holds hrun hn hu hw hround
  by_cases hf : findsChild m = true
  · rw [onlyIf_neg (by rw [hf]; rfl)] at hr
    obtain ⟨_, rfl⟩ := pure_ok.mp hr
    exact ⟨hR.guarded, hR.memories⟩
  · rw [onlyIf_pos (by rw [Bool.of_not_eq_true hf]; rfl)] at hr
    rw [(update_ok _ _).mp hr]
    obtain ⟨_, hG', hM⟩ := retask_memories hR.sound
      (sameTasks_setCur (t := { m1.cur with state := .waiting }) hR.sound.holds.cur rfl) rfl hR.guarded
    exact ⟨hG', hM.trans hR.memories⟩

end Wait

/-! ## Steps -/

/-- The address lies in the user half, and a page that is missing there would not be put into a shared page table. -/
def Fair (m : Machine) (addr : Nat) : Prop :=
  addr < KERNEL_MEMORY ∧ (walk m.ram m.cr3 addr = none → present (m.pde addr) = true → shared (m.pde addr) = false)

/-- The accesses that copy on write can see: those of user mode to the user half, outside the gaps of shared page tables,
and those of the kernel where user mode may write. -/
def Act.Tame (m : Machine) : Act → Prop
  | .store addr _ => Fair m addr
  | .load addr => Fair m addr
  | .read buf bytes => Writable m buf bytes.length
  | .wait statLoc => statLoc ≠ NULL → Writable m statLoc 4
  | _ => True

/-- **What an action does to the memories of the tasks**, when `M` are those before and `M'` those after. A store that
faults stores nothing: it is tried again. -/
def Act.effect (m : Machine) : Act → (Nat → Option (Memory Nat UInt8)) → (Nat → Option (Memory Nat UInt8)) → Prop
  | .fork, M, M' => M' = Function.update M (emptySlot m) (M m.current)
  | .exit _, M, M' => M' = Function.update M m.current (some empty)
  | .wait statLoc, M, M' => M' = afterReaps m statLoc MAX_TASKS M
  | .execve (some file), M, M' => Replaces m.current file.memory M M'
  | .read buf bytes, M, M' => Alters m.current (bytesAt buf (fun i => bytes.getD i 0) bytes.length) M M'
  | .store addr b, M, M' => Alters m.current (if permits m addr true then single addr b else empty) M M'
  | .load _, M, M' => Alters m.current empty M M'
  | _, M, M' => M' = M

section Step

variable {m m' : Machine} {L L' : Layout} {act : Act} {addr : Nat} {b : UInt8} {w : Memory Nat UInt8} {u : Unit}

/-- A change of the running task alone. -/
theorem Guarded.alters (hG : Guarded m) (h : Holds m L) (h' : Holds m' L') (hl : Local m L m' L')
    (hs : Sourced (m, L) (m', L')) (hw : Extends (overlay w (userMemory m.ram m.cr3)) (userMemory m'.ram m.cr3)) :
    Guarded m' ∧ Alters m.current w (memories m) (memories m') :=
  ⟨hG.change h h' hl hs, hl.alters h h' hw⟩

theorem Poked.effect (hP : Poked m L m' w) (h : Holds m L) (hG : Guarded m) :
    Guarded m' ∧ Alters m.current w (Mm.memories m) (Mm.memories m') := by
  refine hG.alters h hP.sound.holds hP.kept hP.sourced ?_
  rw [hP.bytes]
  exact Extends.refl _

theorem Extended.effect (hX : Extended (m, L) (m', L')) (h : Holds m L) (h' : Holds m' L') (hG : Guarded m) :
    Guarded m' ∧ Alters m.current empty (memories m) (memories m') :=
  hG.alters h h' hX.kept hX.sourced (by rw [empty_overlay]; exact hX.bytes)

/-- **A page fault of user mode.** -/
theorem userFault_effect (hB : Booked m L) (hG : Guarded m) (hf : Fair m addr)
    (hr : Returns (userFault allocPageFrame addr) m u m') :
    Guarded m' ∧ Alters m.current empty (memories m) (memories m') := by
  rw [userFault, Returns.bind_iff ((gets_ok _).mpr ⟨rfl, rfl⟩)] at hr
  cases hw : walk m.ram m.cr3 addr with
  | some f =>
    rw [hw, Option.isSome_some, pageFault, if_pos rfl] at hr
    obtain ⟨hp, hq, _⟩ := walk_eq_some.mp hw
    obtain ⟨L', h', hX⟩ := pfRoViolation_extended hB hf.1 ⟨dirIndex_user hf.1, pageTableIndex_lt addr, hp, hq⟩ hr
    exact hX.effect hB.1.holds h'.holds hG
  | none =>
    rw [hw, Option.isSome_none, pageFault, if_neg Bool.false_ne_true] at hr
    obtain ⟨L', h', hX⟩ := pfNonPresent_extended hB hf.1 hw (hf.2 hw) hr
    exact hX.effect hB.1.holds h'.holds hG

/-- **A fork.** -/
theorem doFork_effect (h : Sound m L ∅) (hc : Counted m) (hG : Guarded m) (hr : Returns (doFork allocPageFrame) m u m') :
    Guarded m' ∧ memories m' = Function.update (memories m) (emptySlot m) (memories m m.current) := by
  have hA := hc.hands h.holds
  have hA1 := hc.hands_taken h.holds
  obtain ⟨m1, L1, m2, L2, K, a, f, b, D, hF, h0, rfl⟩ := (doFork_ok h hA hA1 fun m1 K k f hN => by
    obtain ⟨L1, _, hs1⟩ := hN.kernelPage h hA (hA1 f)
    have hc1 := hN.counted h hA (hA1 f) hc
    exact ⟨hc1.hands hs1.holds, hc1.hands_taken hs1.holds⟩).mp hr
  have hforked := hF.forked h h0
  have h' := (hF.sound h0).holds
  exact ⟨hforked.guarded h.holds h' hG, hforked.memories h.holds h'⟩

/-- **A switch** changes no memory. -/
theorem switchTask_effect (h : Sound m L ∅) (hG : Guarded m) {next : Nat} {t : TaskStruct} (ht : m.tasks next = some t)
    (hr : Returns (switchTask next) m u m') : Guarded m' ∧ memories m' = memories m := by
  have h' := (h.switch ht).holds
  rw [(switchTask_ok h.holds ht).mp hr]
  have hsame : ∀ g, L.role g ≠ .kernelTable → m.ram g = m.ram g := fun _ _ => rfl
  exact ⟨hG.same h.holds h' rfl hsame fun _ hq => hq, funext fun q => memoryOf_same h.holds h' rfl hsame rfl⟩

/-- **An exit.** -/
theorem doExit_effect (hB : Booked m L) (hG : Guarded m) {status : Int} (hr : Returns (doExit allocPageFrame status) m u m') :
    Guarded m' ∧ memories m' = Function.update (memories m) m.current (some empty) := by
  obtain ⟨L', h', hl, hempty⟩ := doExit_private hB hr
  have hnone : ∀ d i, ¬ HasPage m'.ram m.cr3 d i := fun d i hp =>
    Bool.false_ne_true ((hempty d hp.1).symm.trans hp.2.2.1)
  refine ⟨hG.change hB.1.holds h'.holds hl fun d i hp _ => absurd hp (hnone d i), ?_⟩
  rw [hl.memories hB.1.holds h'.holds, userMemory_empty hempty]

/-- **A program starts.** -/
theorem doExecve_effect {file : File} {r : Int} (hB : Booked m L) (hG : Guarded m) (hb : file.Below)
    (hr : Returns (doExecve allocPageFrame (some file)) m r m') :
    Guarded m' ∧ Replaces m.current file.memory (memories m) (memories m') := by
  obtain ⟨L', h', hl, hp⟩ := doExecve_private hB hb hr
  refine ⟨hG.change hB.1.holds h'.holds hl (sourced_of_private hl hp), userMemory m'.ram m.cr3, ?_, ?_⟩
  · exact hl.same.cr3 ▸ doExecve_image hB hb hr
  · exact hl.memories hB.1.holds h'.holds

/-- **One step.** -/
theorem step_effect {es : List Empty} (hB : Booked m L) (hG : Guarded m) (hp : act.Proper m) (ht : act.Tame m)
    (hst : step allocPageFrame m act = some (m', es)) : Guarded m' ∧ act.effect m (memories m) (memories m') := by
  obtain ⟨hen, hr⟩ := step_ok.mp hst
  have h := hB.1
  cases act with
  | switch next =>
    obtain ⟨t, ht, _⟩ := Option.any_eq_true _ _ |>.mp hen
    exact switchTask_effect h hG ht hr
  | «fork» => exact doFork_effect h hB.2 hG hr
  | exit status => exact doExit_effect hB hG hr
  | wait statLoc =>
    have hrun : m.cur.state = .running := of_decide_eq_true hen
    exact doWait_memories h hG (by rw [hrun]; decide) hp ht hr
  | execve file =>
    obtain ⟨_, m1, h1, hr⟩ := (bind_ok _ _ _).mp hr
    obtain ⟨_, rfl⟩ := pure_ok.mp hr
    cases file with
    | none =>
      obtain ⟨_, rfl⟩ := pure_ok.mp h1
      exact ⟨hG, rfl⟩
    | some file => exact doExecve_effect hB hG hp h1
  | sbrk incr =>
    obtain ⟨_, m1, h1, hr⟩ := (bind_ok _ _ _).mp hr
    obtain ⟨_, rfl⟩ := pure_ok.mp hr
    rcases doSbrk_ok h1 with ⟨_, n, rfl⟩ | ⟨_, rfl⟩
    · exact (retask_memories h (sameTasks_setCur (t := { m.cur with brk := n }) h.holds.cur rfl) rfl hG).2
    · exact ⟨hG, rfl⟩
  | read buf bytes => exact (storeBytes_permitted h hG hp ht hr).effect h.holds hG
  | store addr b =>
    change Returns (userStore allocPageFrame addr b) m () m' at hr
    rw [userStore, Returns.bind_iff ((gets_ok _).mpr ⟨rfl, rfl⟩)] at hr
    rw [Act.effect]
    cases hperm : permits m addr true with
    | true =>
      rw [hperm, if_pos rfl] at hr
      exact (pokeByte_permitted h hG ht.1 hperm hr).effect h.holds hG
    | false =>
      rw [hperm, if_neg Bool.false_ne_true] at hr
      exact userFault_effect hB hG ht hr
  | load addr =>
    change Returns (userLoad allocPageFrame addr) m () m' at hr
    rw [userLoad, Returns.bind_iff ((gets_ok _).mpr ⟨rfl, rfl⟩)] at hr
    cases hperm : permits m addr false with
    | true =>
      rw [hperm, Bool.not_true, onlyIf_neg rfl] at hr
      obtain ⟨_, rfl⟩ := pure_ok.mp hr
      exact (Poked.refl h).effect h.holds hG
    | false =>
      rw [hperm, Bool.not_false, onlyIf_pos rfl] at hr
      exact userFault_effect hB hG ht hr

end Step

/-! ## Runs -/

section Runs

variable {img : Image} {tag : MmapTag} {table : FrameTable} {ram : Nat → Nat → Word} {xs : List (Step Machine Act Empty)}
  {s : Machine}

theorem boot_guarded : Guarded (boot img tag table ram) := by
  rintro p q D E ⟨t, ht, _⟩ ⟨u, hu, _⟩ hpq
  obtain ⟨rfl, _⟩ := boot_tasks img tag table ram ht
  obtain ⟨rfl, _⟩ := boot_tasks img tag table ram hu
  exact absurd rfl hpq

/-- The books are right, and copy on write guards what is shared. -/
def Upright (tag : MmapTag) (table : FrameTable) (m : Machine) : Prop :=
  Guarded m ∧ ∃ L leak, Books (permanent tag table) leak m L

/-- One step of a run. -/
theorem Upright.step {m m' : Machine} {act : Act} {es : List Empty} (hU : Upright tag table m)
    (hC : act.Roomy m ∧ act.Tame m) (hst : step allocPageFrame m act = some (m', es)) :
    Upright tag table m' ∧ act.effect m (memories m) (memories m') := by
  obtain ⟨hG, L, leak, hB⟩ := hU
  obtain ⟨L', hB'⟩ := step_books (fun f => permanent_first) hB hC.1 hst
  obtain ⟨hG', heffect⟩ := step_effect (hB.booked fun f => permanent_first) hG hC.1.1 hC.2 hst
  exact ⟨⟨hG', L', _, hB'⟩, heffect⟩

/-- **Copy on write gives every task a memory of its own**, over a whole run: a page that a task can write to is never
another's, and every step does to the memories of the tasks just what its action says. So a store is seen by the task that
makes it and by nobody else, a fork gives the child what its parent has, and nothing else touches the memory of a task that
does not run. -/
theorem memories_private (hrun : Run (step allocPageFrame) (boot img tag table ram) xs s)
    (hC : ∀ x ∈ xs, x.act.Roomy x.before ∧ x.act.Tame x.before) :
    Guarded s ∧ ∀ x ∈ xs, x.act.effect x.before (memories x.before) (memories x.after) := by
  have hboot : Upright tag table (boot img tag table ram) := ⟨boot_guarded, _, _, boot_books⟩
  have hstep : ∀ m a m' es, Upright tag table m → a.Roomy m ∧ a.Tame m →
      step allocPageFrame m a = some (m', es) → Upright tag table m' := fun m a m' es hU hc hst => (hU.step hc hst).1
  refine ⟨(hrun.inv (C := fun m a => Act.Roomy m a ∧ Act.Tame m a) _ hboot hstep hC).1, fun x hx => ?_⟩
  obtain ⟨hU, hst⟩ := hrun.inv_steps (C := fun m a => Act.Roomy m a ∧ Act.Tame m a) _ hboot hstep hC x hx
  exact (hU.step (hC x hx) hst).2

/-- A program starts and forks. -/
theorem memories_private_fork : ∃ xs s, Run (step allocPageFrame) smallBoot xs s ∧
    xs.map (fun x => x.after.current) = [0, 1] ∧ (∀ x ∈ xs, x.act.Roomy x.before ∧ x.act.Tame x.before) ∧
    Guarded s ∧ ∀ x ∈ xs, x.act.effect x.before (memories x.before) (memories x.after) := by
  obtain ⟨f, t, L, m1, L1, m2, L2, K, a, fr, b, D, m, hS, hF, hrun⟩ := small_fork serves_allocPageFrame
  have htame : ∀ x ∈ ([⟨smallBoot, .execve (some blankElf), [], smallBoot.first f t⟩,
      ⟨smallBoot.first f t, .fork, [], m⟩] : List (Step Machine Act Empty)), x.act.Tame x.before := by
    intro x hx
    simp only [List.mem_cons, List.not_mem_nil, or_false] at hx
    rcases hx with rfl | rfl <;> trivial
  have hC := fun x hx => And.intro (first_roomy (m := m) hS x hx) (htame x hx)
  exact ⟨_, m, hrun, by simp [hF.forked.current]; rfl, hC, memories_private hrun hC⟩

/-! ## The image of a program -/

/-- **Whatever has run before**, a program that `do_execve` starts finds its image: a flat file from address 0 on, or the
segments of an ELF file, each with the bytes of the file and zeros after them, when they do not overlap. -/
theorem image_loaded (hrun : Run (step allocPageFrame) (boot img tag table ram) xs s)
    (hC : ∀ x ∈ xs, x.act.Roomy x.before) {file : File} (hb : file.Below) {r : Int} {s' : Machine}
    (hr : Returns (doExecve allocPageFrame (some file)) s r s') :
    (isElfFile file = false → ∀ i, i < file.size → userMemory s'.ram s'.cr3 i = some (file.bytes i)) ∧
    (isElfFile file = true → (∀ g ∈ file.taken, g.pFilesz ≤ g.pMemsz) →
      ∀ h ∈ file.taken,
        (∀ g ∈ file.taken, g ≠ h → g.pVaddr + g.pMemsz ≤ h.pVaddr ∨ h.pVaddr + h.pMemsz ≤ g.pVaddr) →
        ∀ i, i < h.pMemsz → userMemory s'.ram s'.cr3 (h.pVaddr + i) =
          some (if i < h.pFilesz then file.bytes ((h.pOffset + i) % 2 ^ 32) else 0)) := by
  obtain ⟨L, hB⟩ := run_books hrun hC
  have himage := doExecve_image (hB.booked fun f => permanent_first) hb hr
  refine ⟨fun he i hi => himage _ _ ?_, fun he hf h hh hdisj i hi => himage _ _ ?_⟩
  · rw [File.Below, if_neg (by rw [he]; decide)] at hb
    have hat := @bytesAt_self 0 file.size i file.bytes (by rw [KERNEL_MEMORY] at hb; omega) hi
    rw [Nat.zero_add] at hat
    rw [File.memory, if_neg (by rw [he]; decide)]
    exact hat
  · exact File.memory_segment he hb hf hdisj hh hi

/-- An ELF file with one segment, of a byte and a zero, in the stack page. -/
def noteElf : File where
  size := 85
  bytes i := if i = 0 then 0x7f else if i = 1 then 0x45 else if i = 2 then 0x4c else if i = 3 then 0x46
    else if i = 28 then 52 else if i = 44 then 1 else if i = 52 then 1 else if i = 56 then 84
    else if i = 60 then 0xf0 else if i = 61 ∨ i = 62 then 0xff else if i = 63 then 0xbf
    else if i = 68 then 1 else if i = 72 then 2 else if i = 76 then 6 else if i = 84 then 42 else 0

theorem noteElf_phdrs : noteElf.phdrs = [⟨PT_LOAD, 84, 0xBFFFFFF0, 1, 2, 6⟩] := by decide

theorem noteElf_taken : noteElf.taken = [⟨PT_LOAD, 84, 0xBFFFFFF0, 1, 2, 6⟩] := by
  rw [File.taken, noteElf_phdrs]
  rfl

theorem noteElf_below : noteElf.Below := by
  rw [File.Below, if_pos (by decide), noteElf_taken]
  intro h hh
  rw [List.mem_singleton.mp hh]
  decide

/-- Bytes are stored when the pages are there. -/
theorem storeBytes_returns {alloc : Kernel Nat} {m : Machine} {L : Layout} {addr n : Nat} {bytes : Nat → UInt8}
    (h : Sound m L ∅) (hw : ∀ i, i < n → (addr + i) % 2 ^ 32 < KERNEL_MEMORY ∧
      HasPage m.ram m.cr3 (dirIndex ((addr + i) % 2 ^ 32)) (pageTableIndex ((addr + i) % 2 ^ 32))) :
    ∃ m', Returns (storeBytes alloc addr bytes n) m () m' ∧ Sound m' L ∅ ∧ SamePages m.ram m'.ram m.cr3 ∧ m'.cr3 = m.cr3 := by
  refine loop_returns (fun _ t => Sound t L ∅ ∧ SamePages m.ram t.ram m.cr3 ∧ t.cr3 = m.cr3)
    ⟨h, SamePages.refl _ _, rfl⟩ fun i t hi ⟨ht, hs, hcr3⟩ => ?_
  obtain ⟨ha, hpage⟩ := hw i hi
  set a := (addr + i) % 2 ^ 32
  have hpage : HasPage t.ram t.cr3 (dirIndex a) (pageTableIndex a) := hcr3.symm ▸ (hs _ _).1.mpr hpage
  obtain ⟨f, hwalk⟩ : ∃ f, walk t.ram t.cr3 a = some f := ⟨_, walk_eq_some.mpr ⟨hpage.2.2.1, hpage.2.2.2, rfl⟩⟩
  obtain ⟨ht', _, hs', _⟩ := ht.poke ha hwalk (wordIndex a) (setByte (t.ram f (wordIndex a)) (a % 4) (bytes i))
  rw [hcr3] at hs'
  refine ⟨_, ?_, ht', hs.trans hs', hcr3⟩
  rw [storeUser_user alloc ha, kernelStore, Returns.bind_iff ((gets_ok _).mpr ⟨rfl, rfl⟩), hwalk, Option.isSome_some,
    if_pos rfl]
  exact pokeByte_ok.mpr ⟨_, hwalk, rfl⟩

/-- The segment is loaded into the stack page. -/
theorem loadFile_note {m : Machine} {L : Layout} (h : Sound m L ∅) (hpage : HasPage m.ram m.cr3 767 1023) :
    ∃ m', Returns (loadFile allocPageFrame noteElf) m () m' := by
  set g : Phdr := ⟨PT_LOAD, 84, 0xBFFFFFF0, 1, 2, 6⟩
  set m1 := m.setCur (g.setBounds m.cur)
  obtain ⟨h1, _⟩ := h.retask (sameTasks_setCur h.holds.cur (setBounds_key g m.cur).1) rfl
  have hplace : ∀ i, i < 2 → (0xBFFFFFF0 + i) % 2 ^ 32 < KERNEL_MEMORY ∧ dirIndex ((0xBFFFFFF0 + i) % 2 ^ 32) = 767 ∧
      pageTableIndex ((0xBFFFFFF0 + i) % 2 ^ 32) = 1023 := by decide
  have hpages : Returns (allocPages allocPageFrame 0xBFFFFFF0 g.stop g.pageFlags) m1 () m1 := by
    refine loop_eq (fun _ => m1) fun i hi => ?_
    obtain rfl : i = 0 := by
      rw [show g.stop / PAGE_SIZE + 1 - 0xBFFFFFF0 / PAGE_SIZE = 1 by decide] at hi
      omega
    have hthere : (present (m1.pde ((0xBFFFFFF0 / PAGE_SIZE + 0) * PAGE_SIZE)) &&
        present (m1.pte ((0xBFFFFFF0 / PAGE_SIZE + 0) * PAGE_SIZE))) = true := Bool.and_eq_true_iff.mpr hpage.2.2
    rw [allocPageAt, Returns.bind_iff ((pagePresent_ok h1.holds.env (by decide)).mpr ⟨rfl, rfl⟩), if_pos hthere]
    exact pure_ok.mpr ⟨rfl, rfl⟩
  obtain ⟨m2, hr2, h2, hs2, hcr2⟩ := @storeBytes_returns allocPageFrame m1 L 0xBFFFFFF0 1
    (fun i => noteElf.bytes ((84 + i) % 2 ^ 32)) h1 fun i hi => by
      obtain ⟨hlt, hd, hi⟩ := hplace i (by omega)
      exact ⟨hlt, hd.symm ▸ hi.symm ▸ hpage⟩
  obtain ⟨m3, hr3, _⟩ := @storeBytes_returns allocPageFrame m2 L (0xBFFFFFF0 + 1) 1 (fun _ => 0) h2 fun i hi => by
      obtain ⟨hlt, hd, hidx⟩ := hplace (1 + i) (by omega)
      rw [Nat.add_assoc]
      exact ⟨hlt, hd.symm ▸ hidx.symm ▸ hcr2.symm ▸ (hs2 _ _).1.mpr hpage⟩
  have hsegment : Returns (noteElf.phdrs.forM (loadSegment allocPageFrame noteElf)) m () m3 := by
    rw [noteElf_phdrs, List.forM_eq_forM, List.forM_cons]
    refine (bind_ok _ _ _).mpr ⟨(), m3, ?_, pure_ok.mpr ⟨rfl, rfl⟩⟩
    rw [loadSegment, if_neg (by decide), Returns.bind_iff ((update_ok _ ()).mpr rfl), Returns.bind_iff hpages,
      Returns.bind_iff hr2, onlyIf_pos (by decide)]
    exact hr3
  refine ⟨m3.setCur { m3.cur with stackFrame := { m3.cur.stackFrame with eip := noteElf.eEntry } }, ?_⟩
  rw [loadFile, if_pos (by decide), loadElf, onlyIf_neg (by decide), Returns.bind_iff (pure_ok.mpr ⟨rfl, rfl⟩),
    Returns.bind_iff hsegment, setEip, update_ok]

/-- The child of the first fork starts the program over its parent's stack page: the byte is there, and the zero after it. -/
theorem image_loaded_child : ∃ xs s s', Run (step allocPageFrame) smallBoot xs s ∧ s.current = 1 ∧
    HasPage s.ram s.cr3 767 1023 ∧ (∀ x ∈ xs, x.act.Roomy x.before) ∧
    Returns (doExecve allocPageFrame (some noteElf)) s 0 s' ∧
    ∀ i, i < 2 → userMemory s'.ram s'.cr3 (0xBFFFFFF0 + i) = some (if i < 1 then noteElf.bytes ((84 + i) % 2 ^ 32) else 0) := by
  have hA := serves_allocPageFrame
  obtain ⟨f, t, L, m1, L1, m2, L2, K, a, fr, b, D, m, hS, hF, hrun⟩ := small_fork hA
  have hpage := hF.names.hasPage.mpr (hS.first_page small_sound.holds).1
  -- the teardown of the memory that the child got from its parent
  obtain ⟨m', hfree, hI⟩ := freeMemUsr_swept hF.sound' (hF.sound'.slack (by simp)) hF.counted (small_supplied hS hF)
  obtain ⟨L', hW⟩ := hI.swept
  have hidle := hW.counted.idle hW.sound.holds
  have hroom : freeFrames m ⊆ freeFrames m' := fun g hg => by
    obtain ⟨hlt, hz⟩ := Finset.mem_filter.mp hg
    exact Finset.mem_filter.mpr ⟨hlt, (hI.tornDown hF.sound').copies g hz⟩
  have hcard := (Finset.card_le_card hroom).trans' hF.free
  -- a new stack page, and the segment in it
  obtain ⟨f', t', hS'⟩ := exists_starts hidle (by omega)
  obtain ⟨_, h2, _⟩ := hS'.stacked_sound hW.sound hW.counted (hI.gone 767 (by decide))
  obtain ⟨m4, hload⟩ := loadFile_note h2 (hS'.first_page hW.sound.holds).1
  have hr := doExecve_after hfree hW.sound hI.gone (hA.takes _ _ _ hS'.frame) hS'.fresh.2.2.1
    (hA.hands _ (@idle_setCount _ f' hidle)) (hA.takes _ _ _ hS'.table) hload
  have hroomy := first_roomy (m := m) hS
  have himage := image_loaded hrun hroomy noteElf_below hr
  have hone : ∀ g ∈ noteElf.taken, g = ⟨PT_LOAD, 84, 0xBFFFFFF0, 1, 2, 6⟩ := fun g hg => by
    rwa [noteElf_taken, List.mem_singleton] at hg
  exact ⟨_, m, _, hrun, hF.forked.current, hpage, hroomy, hr, himage.2 (by decide) (fun g hg => by rw [hone g hg]; decide)
    ⟨PT_LOAD, 84, 0xBFFFFFF0, 1, 2, 6⟩ (by rw [noteElf_taken]; exact List.mem_singleton_self _) fun g hg hne =>
      absurd (hone g hg) hne⟩

end Runs

end Raampjes.Mm
