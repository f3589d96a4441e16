import Raampjes.Mm.Exec

/-!
# The bounds of a task

- `Accesses`: what holds across the accesses of the functions of `mm.c` holds across the functions;
- `Untouched`: they leave the task table and CR3 alone, whatever the allocator is;
- `doExecve_ends`: the bounds that `do_execve` leaves are a function of the file and the bounds before (`File.ends`);
- `bounds_described_iff`: when they are the ones that the file describes.
-/

namespace Raampjes.Mm

open Progs

/-! ## What the memory manager leaves alone -/

/-- The same tasks, the same one running, the same directory in CR3. -/
def Untouched (m m' : Machine) : Prop := m'.tasks = m.tasks ∧ m'.current = m.current ∧ m'.cr3 = m.cr3

instance : Std.Refl Untouched := ⟨fun _ => ⟨rfl, rfl, rfl⟩⟩

instance : IsTrans Machine Untouched :=
  ⟨fun _ _ _ h k => ⟨k.1.trans h.1, k.2.1.trans h.2.1, k.2.2.trans h.2.2⟩⟩

theorem Untouched.cur {m m' : Machine} (h : Untouched m m') : m'.cur = m.cur := by
  rw [Machine.cur, Machine.cur, h.1, h.2.1]

section Within

variable {R : Machine → Machine → Prop} [Std.Refl R]

theorem within_loadWord (a : Nat) : Within R (loadWord a) :=
  within_of_same fun _ _ _ h => (loadWord_ok.mp h).choose_spec.2.2

variable [IsTrans Machine R]

theorem within_dirEntry (i : Nat) : Within R (dirEntry i) :=
  (within_gets _).bind fun _ => within_loadWord _

theorem within_getPageEntry (a : Nat) : Within R (getPageEntry a) :=
  (within_dirEntry _).bind fun _ => within_pure _

theorem within_pageFrame (a : Nat) : Within R (pageFrame a) :=
  (within_getPageEntry a).bind fun _ => (within_pure _).ite ((within_loadWord _).bind fun _ => within_pure _)

theorem within_pagePresent (a : Nat) : Within R (pagePresent a) :=
  (within_getPageEntry a).bind fun _ => (within_pure _).ite ((within_loadWord _).bind fun _ => within_pure _)

theorem within_scanTable (table : Nat) : ∀ n, Within R (scanTable table n)
  | 0 => within_pure _
  | n + 1 => (within_loadWord _).bind fun _ => (within_scanTable table n).ite (within_pure _)

theorem within_coWEnabled (a : Nat) : Within R (coWEnabled a) :=
  (within_dirEntry _).bind fun _ => (within_pure _).ite
    ((within_getPageEntry _).bind fun _ => (within_loadWord _).bind fun _ => within_pure _)

end Within

/-- The relation holds across a store to memory, the release of a frame and a call of the allocator: all that the
functions of `mm.c` do to the machine. -/
structure Accesses (R : Machine → Machine → Prop) (alloc : Kernel Nat) : Prop where
  word : ∀ m f i w, R m (m.setWord f i w)
  free : ∀ f, Within R (freePageFrame f)
  take : Within R alloc

section Accesses

variable {R : Machine → Machine → Prop} {alloc : Kernel Nat} {copy : Nat → Kernel Unit}

theorem Accesses.storeWord (h : Accesses R alloc) (a : Nat) (w : Word) : Within R (storeWord a w) := by
  intro m u m' hr
  obtain ⟨f, _, rfl⟩ := storeWord_ok.mp hr
  exact h.word m f _ w

theorem Accesses.pokeByte (h : Accesses R alloc) (a : Nat) (b : UInt8) : Within R (pokeByte a b) := by
  intro m u m' hr
  unfold Returns Mm.pokeByte at hr
  split at hr
  · injection hr with hr
    injection hr with _ hr
    rw [← hr]
    exact h.word m _ _ _
  · cases hr

variable [Std.Refl R] [IsTrans Machine R] (h : Accesses R alloc)

include h

theorem Accesses.setDirEntry (i : Nat) (w : Word) : Within R (setDirEntry i w) :=
  (within_gets _).bind fun _ => h.storeWord _ _

theorem Accesses.copyPage (dst src : Nat) : Within R (copyPage dst src) :=
  Within.loop (fun _ => (within_loadWord _).bind fun _ => h.storeWord _ _) _

theorem Accesses.enableCoW (table : Nat) : Within R (enableCoW table) :=
  Within.loop (fun _ => (within_loadWord _).bind fun _ => h.storeWord _ _) _

theorem Accesses.clearPresent (entry : Nat) : Within R (clearPresent entry) :=
  (within_loadWord _).bind fun _ => h.storeWord _ _

theorem Accesses.addPageTable (a : Nat) (flags : Word) : Within R (addPageTable alloc a flags) :=
  h.take.bind fun _ => (h.setDirEntry _ _).bind fun _ =>
    (Within.loop (fun _ => h.storeWord _ _) _).bind fun _ => within_pure _

theorem Accesses.scanDirectory (offset : Nat) : ∀ n left, Within R (scanDirectory alloc offset n left)
  | 0, _ => within_stop _
  | n + 1, left => by
    refine (within_dirEntry _).bind fun _ => Within.ite ?_ ?_
    · refine (within_scanTable _ _).bind fun found => ?_
      cases found with
      | some i => exact within_pure _
      | none => exact Accesses.scanDirectory offset n 1024
    · exact (h.addPageTable _ _).bind fun _ => within_pure _

theorem Accesses.mapPageWith (hc : ∀ t, Within R (copy t)) (f a : Nat) (flags : Word) :
    Within R (mapPageWith alloc copy f a flags) :=
  (within_getPageEntry _).bind fun _ => (Within.onlyIf ((h.addPageTable _ _).bind fun _ => within_pure _)).bind fun _ =>
    (within_dirEntry _).bind fun _ => (Within.onlyIf (hc _)).bind fun _ =>
      (within_getPageEntry _).bind fun _ => (h.storeWord _ _).bind fun _ => within_pure _

theorem Accesses.enterPageWith (hc : ∀ t, Within R (copy t)) (f a : Nat) (flags : Word) :
    Within R (enterPageWith alloc copy f a flags) :=
  (h.scanDirectory _ _ _).bind fun _ => h.mapPageWith hc _ _ _

theorem Accesses.freePageWith (hc : ∀ t, Within R (copy t)) (a : Nat) : Within R (freePageWith copy a) := by
  refine (within_pagePresent _).bind fun _ => Within.onlyIf ?_
  refine (within_pageFrame _).bind fun _ => (h.free _).bind fun _ => ?_
  exact (within_getPageEntry _).bind fun _ => (within_pure _).ite
    ((within_dirEntry _).bind fun _ => (Within.onlyIf (hc _)).bind fun _ => h.clearPresent _)

theorem Accesses.copyPageTable : ∀ n t, Within R (copyPageTable alloc n t)
  | 0, _ => within_stop _
  | n + 1, t => by
    have ih := Accesses.copyPageTable n
    exact (within_pageFrame _).bind fun _ => (h.enterPageWith ih _ _ _).bind fun _ =>
      (Within.onlyIf (within_stop _)).bind fun _ => h.take.bind fun _ => (h.mapPageWith ih _ _ _).bind fun _ =>
        (h.copyPage _ _).bind fun _ => h.freePageWith ih _

theorem Accesses.mapPage (f a : Nat) (flags : Word) : Within R (mapPage alloc f a flags) :=
  h.mapPageWith (h.copyPageTable _) f a flags

theorem Accesses.enterPage (f a : Nat) (flags : Word) : Within R (enterPage alloc f a flags) :=
  h.enterPageWith (h.copyPageTable _) f a flags

theorem Accesses.freePage (a : Nat) : Within R (freePage alloc a) := h.freePageWith (h.copyPageTable _) a

theorem Accesses.allocPage (a : Nat) (flags : Word) : Within R (allocPage alloc a flags) :=
  h.take.bind fun _ => h.enterPage _ _ _

theorem Accesses.allocPages (a b : Nat) (flags : Word) : Within R (allocPages alloc a b flags) :=
  Within.loop (fun _ => (within_pagePresent _).bind fun _ => (within_pure _).ite
    (h.take.bind fun _ => (h.mapPage _ _ _).bind fun _ => within_pure _)) _

theorem Accesses.freeMemUsr : Within R (freeMemUsr alloc) :=
  (Within.loop (fun _ => h.freePage _) _).bind fun _ => Within.loop (fun _ => h.freePage _) _

theorem Accesses.pfNonPresent (a : Nat) : Within R (pfNonPresent alloc a) :=
  (within_gets _).bind fun _ => Within.ite ((h.allocPage _ _).bind fun _ => within_pure _) (within_stop _)

theorem Accesses.pfRoViolation (a : Nat) : Within R (pfRoViolation alloc a) := by
  refine (within_gets _).bind fun _ => (Within.onlyIf (within_stop _)).bind fun _ => ?_
  refine (within_coWEnabled _).bind fun _ => (Within.onlyIf (within_stop _)).bind fun _ => ?_
  refine (within_dirEntry _).bind fun _ => (Within.onlyIf ?_).bind fun _ => ?_
  · exact (h.copyPageTable _ _).bind fun _ => (h.enableCoW _).bind fun _ => (within_dirEntry _).bind fun _ =>
      (h.setDirEntry _ _).bind fun _ => (within_dirEntry _).bind fun _ => h.setDirEntry _ _
  · exact (within_pageFrame _).bind fun _ => (h.enterPage _ _ _).bind fun _ =>
      (Within.onlyIf (within_stop _)).bind fun _ => h.take.bind fun _ => (h.mapPage _ _ _).bind fun _ =>
        (h.copyPage _ _).bind fun _ => h.freePage _

theorem Accesses.pageFault (a : Nat) (here : Bool) : Within R (pageFault alloc a here) :=
  (h.pfRoViolation a).ite (h.pfNonPresent a)

theorem Accesses.kernelStore (a : Nat) (b : UInt8) : ∀ n, Within R (kernelStore alloc a b n)
  | 0 => h.pokeByte a b
  | n + 1 => (within_gets _).bind fun _ => Within.ite (h.pokeByte a b)
    ((h.pageFault _ _).bind fun _ => Accesses.kernelStore a b n)

theorem Accesses.storeBytes (a : Nat) (bytes : Nat → UInt8) (n : Nat) : Within R (storeBytes alloc a bytes n) :=
  Within.loop (fun _ => (h.kernelStore _ _ _).ite (within_stop _)) _

end Accesses

theorem accesses_untouched {alloc : Kernel Nat} (hA : Within Untouched alloc) : Accesses Untouched alloc := by
  refine ⟨fun _ _ _ _ => ⟨rfl, rfl, rfl⟩, fun f => within_update fun m => ?_, hA⟩
  by_cases h : m.bitmap f ≠ 0
  · rw [if_pos h]
    exact ⟨rfl, rfl, rfl⟩
  · rw [if_neg h]
    exact ⟨rfl, rfl, rfl⟩

theorem untouched_allocPageFrame : Within Untouched allocPageFrame := by
  intro m f m' h
  obtain ⟨_, _, rfl⟩ := allocPageFrame_ok h
  exact ⟨rfl, rfl, rfl⟩

/-! ## The bounds that a file leaves -/

/-- `code_end` and `data_end`. -/
def TaskStruct.ends (t : TaskStruct) : Nat × Nat := (t.codeEnd, t.dataEnd)

/-- What a header does to `code_end` and `data_end`. -/
def Phdr.ends (h : Phdr) (e : Nat × Nat) : Nat × Nat :=
  if h.pType = PT_NULL then e
  else if h.executable then (h.stop, e.2)
  else if h.writable then (e.1, h.stop)
  else e

/-- What loading a file does to them. -/
def File.ends (file : File) (e : Nat × Nat) : Nat × Nat :=
  if isElfFile file then file.phdrs.foldl (fun e h => h.ends e) e else (e.1, file.size)

theorem setBounds_ends (h : Phdr) (t : TaskStruct) (hn : h.pType ≠ PT_NULL) : (h.setBounds t).ends = h.ends t.ends := by
  rw [Phdr.setBounds, Phdr.ends, if_neg hn]
  split
  · rfl
  · split <;> rfl

section Exec

variable {alloc : Kernel Nat} (hA : Within Untouched alloc) {m m' : Machine} {file : File} {u : Unit}

include hA

theorem loadSegment_ends {h : Phdr} (hr : Returns (loadSegment alloc file h) m u m') :
    m'.cur.ends = h.ends m.cur.ends := by
  rw [loadSegment] at hr
  by_cases hn : h.pType = PT_NULL
  · rw [if_pos hn] at hr
    rw [(pure_ok.mp hr).2, Phdr.ends, if_pos hn]
  · rw [if_neg hn] at hr
    obtain ⟨_, m1, h1, hr⟩ := (bind_ok _ _ _).mp hr
    have hrest : Untouched m1 m' :=
      (((accesses_untouched hA).allocPages _ _ _).bind fun _ => ((accesses_untouched hA).storeBytes _ _ _).bind fun _ =>
        Within.onlyIf ((accesses_untouched hA).storeBytes _ _ _)) _ _ _ hr
    rw [hrest.cur, (update_ok _ _).mp h1, setCur_cur, setBounds_ends h _ hn]

theorem forM_ends {hs : List Phdr} (hr : Returns (hs.forM (loadSegment alloc file)) m u m') :
    m'.cur.ends = hs.foldl (fun e h => h.ends e) m.cur.ends := by
  induction hs generalizing m with
  | nil => rw [(pure_ok.mp hr).2, List.foldl_nil]
  | cons h hs ih =>
    obtain ⟨_, m1, h1, hr⟩ := (bind_ok _ _ _).mp hr
    rw [ih hr, loadSegment_ends hA h1, List.foldl_cons]

omit hA in
theorem setEip_ends {eip : Nat} (hr : Returns (setEip eip) m u m') : m'.cur.ends = m.cur.ends := by
  rw [(update_ok _ _).mp hr, setCur_cur]
  rfl

theorem loadFile_ends (hr : Returns (loadFile alloc file) m u m') : m'.cur.ends = file.ends m.cur.ends := by
  rw [loadFile] at hr
  cases he : isElfFile file with
  | true =>
    rw [he, if_pos rfl, loadElf] at hr
    obtain ⟨_, m1, h1, hr⟩ := (bind_ok _ _ _).mp hr
    obtain ⟨_, m2, h2, hr⟩ := (bind_ok _ _ _).mp hr
    have hfirst : Untouched m m1 := Within.onlyIf (within_stop _) _ _ _ h1
    rw [setEip_ends hr, forM_ends hA h2, hfirst.cur, File.ends, he, if_pos rfl]
  | false =>
    rw [he, if_neg Bool.false_ne_true, loadBin] at hr
    obtain ⟨_, m1, h1, hr⟩ := (bind_ok _ _ _).mp hr
    obtain ⟨_, m2, h2, hr⟩ := (bind_ok _ _ _).mp hr
    obtain ⟨_, m3, h3, hr⟩ := (bind_ok _ _ _).mp hr
    have hpages := (accesses_untouched hA).allocPages _ _ _ _ _ _ h1
    have hbytes := (accesses_untouched hA).storeBytes _ _ _ _ _ _ h3
    rw [setEip_ends hr, hbytes.cur, (update_ok _ _).mp h2, setCur_cur, hpages.cur, File.ends, he,
      if_neg Bool.false_ne_true]
    rfl

/-- **The bounds after `do_execve`.** -/
theorem doExecve_ends (hr : Returns (doExecve alloc (some file)) m 0 m') :
    m'.cur.ends = file.ends m.cur.ends ∧ m'.cur.brk = m'.cur.dataEnd := by
  rw [doExecve] at hr
  obtain ⟨_, m1, h1, hr⟩ := (bind_ok _ _ _).mp hr
  obtain ⟨_, m2, h2, hr⟩ := (bind_ok _ _ _).mp hr
  obtain ⟨stack, m3, h3, hr⟩ := (bind_ok _ _ _).mp hr
  obtain ⟨_, m4, h4, hr⟩ := (bind_ok _ _ _).mp hr
  obtain ⟨_, m5, h5, hr⟩ := (bind_ok _ _ _).mp hr
  obtain ⟨_, rfl⟩ := pure_ok.mp hr
  have hfirst : m3.cur = m.cur := by
    rw [((accesses_untouched hA).mapPage _ _ _ _ _ _ h3).cur, (hA _ _ _ h2).cur, ((accesses_untouched hA).freeMemUsr _ _ _ h1).cur]
  have hends := loadFile_ends hA h4
  rw [hfirst] at hends
  rw [(update_ok _ _).mp h5, setCur_cur]
  exact ⟨hends, rfl⟩

end Exec

/-! ## The last header wins -/

/-- The end of the last header of a kind. -/
def lastEnd (p : Phdr → Bool) (hs : List Phdr) : Option Nat := (hs.filter p).getLast?.map Phdr.stop

/-- The headers that `load_elf` does not skip. -/
def File.taken (file : File) : List Phdr := file.phdrs.filter fun h => h.pType ≠ PT_NULL

/-- The headers of the segments that are to be loaded. -/
def File.loads (file : File) : List Phdr := file.phdrs.filter fun h => h.pType = PT_LOAD

/-- Writable, and taken as data. -/
def Phdr.isData (h : Phdr) : Bool := !h.executable && h.writable

theorem lastEnd_snoc (p : Phdr → Bool) (hs : List Phdr) (h : Phdr) :
    lastEnd p (hs ++ [h]) = if p h then some h.stop else lastEnd p hs := by
  rw [lastEnd, List.filter_append]
  by_cases hp : p h = true
  · simp [hp]
  · simp [hp, lastEnd]

theorem foldl_ends (hs : List Phdr) (hn : ∀ h ∈ hs, h.pType ≠ PT_NULL) (e : Nat × Nat) :
    hs.foldl (fun e h => h.ends e) e =
      ((lastEnd Phdr.executable hs).getD e.1, (lastEnd Phdr.isData hs).getD e.2) := by
  induction hs using List.reverseRecOn with
  | nil => rfl
  | append_singleton hs h ih =>
    have hpre := ih fun h' hm => hn h' (List.mem_append_left _ hm)
    have hh := hn h (List.mem_append_right _ (List.mem_singleton_self h))
    rw [List.foldl_append, hpre, List.foldl_cons, List.foldl_nil, Phdr.ends, if_neg hh, lastEnd_snoc, lastEnd_snoc]
    by_cases hx : h.executable = true
    · simp [hx, Phdr.isData]
    · by_cases hw : h.writable = true
      · simp [hx, hw, Phdr.isData]
      · simp [hx, hw, Phdr.isData]

/-- Headers of type `PT_NULL` are skipped. -/
theorem foldl_ends_taken (hs : List Phdr) (e : Nat × Nat) :
    hs.foldl (fun e h => h.ends e) e = (hs.filter fun h => h.pType ≠ PT_NULL).foldl (fun e h => h.ends e) e := by
  induction hs generalizing e with
  | nil => rfl
  | cons h hs ih =>
    by_cases hn : h.pType = PT_NULL
    · rw [List.foldl_cons, ih, Phdr.ends, if_pos hn, List.filter_cons_of_neg (by simpa using hn)]
    · rw [List.foldl_cons, ih, List.filter_cons_of_pos (by simpa using hn), List.foldl_cons]

theorem ends_elf {file : File} (he : isElfFile file = true) (e : Nat × Nat) :
    file.ends e = ((lastEnd Phdr.executable file.taken).getD e.1, (lastEnd Phdr.isData file.taken).getD e.2) := by
  rw [File.ends, he, if_pos rfl, foldl_ends_taken, ← foldl_ends _ _ e]
  · rfl
  · intro h hm
    simpa using (List.mem_filter.mp hm).2

theorem ends_flat {file : File} (he : isElfFile file = false) (e : Nat × Nat) : file.ends e = (e.1, file.size) := by
  rw [File.ends, he, if_neg Bool.false_ne_true]

/-! ## Memory from `sbrk` -/

/-- Calls of `sbrk` one after the other, and what each that succeeds moved the break from and to. -/
def sbrkAll : List Int → Kernel (List (Nat × Nat))
  | [] => pure []
  | incr :: incs => do
    let old ← doSbrk incr
    let brk ← gets fun m => m.cur.brk
    let moves ← sbrkAll incs
    pure (if old = -1 then moves else (old.toNat, brk) :: moves)

/-- `do_sbrk` moves the break and answers where it was, or answers -1. -/
theorem doSbrk_ok {incr r : Int} {m m' : Machine} (hr : Returns (doSbrk incr) m r m') :
    (r = m.cur.brk ∧ ∃ n, m' = m.setCur { m.cur with brk := n }) ∨ (r = -1 ∧ m' = m) := by
  obtain ⟨t, _, hg, hr⟩ := (bind_ok _ _ _).mp hr
  obtain ⟨rfl, rfl⟩ := (gets_ok _).mp hg
  dsimp only at hr
  split at hr
  · obtain ⟨_, m1, h1, hr⟩ := (bind_ok _ _ _).mp hr
    obtain ⟨rfl, rfl⟩ := pure_ok.mp hr
    exact Or.inl ⟨rfl, _, (update_ok _ _).mp h1⟩
  · obtain ⟨rfl, rfl⟩ := pure_ok.mp hr
    exact Or.inr ⟨rfl, rfl⟩

/-- As long as no call gives back memory below `b`, every call starts at `b` or above. -/
theorem sbrkAll_above {incs : List Int} {m m' : Machine} {moves : List (Nat × Nat)} {b : Nat}
    (hr : Returns (sbrkAll incs) m moves m') (hb : b ≤ m.cur.brk) (hm : ∀ r ∈ moves, b ≤ r.2) :
    ∀ r ∈ moves, b ≤ r.1 := by
  induction incs generalizing m moves with
  | nil =>
    obtain ⟨rfl, _⟩ := pure_ok.mp hr
    simp
  | cons incr incs ih =>
    obtain ⟨old, m1, h1, hr⟩ := (bind_ok _ _ _).mp hr
    obtain ⟨brk, m2, h2, hr⟩ := (bind_ok _ _ _).mp hr
    obtain ⟨rest, m3, h3, hr⟩ := (bind_ok _ _ _).mp hr
    obtain ⟨rfl, rfl⟩ := (gets_ok _).mp h2
    obtain ⟨rfl, rfl⟩ := pure_ok.mp hr
    rcases doSbrk_ok h1 with ⟨rfl, n, rfl⟩ | ⟨rfl, rfl⟩
    · have hold : ((m.cur.brk : Int)) ≠ -1 := by omega
      rw [if_neg hold] at hm ⊢
      have hnew : b ≤ n := by simpa using hm _ List.mem_cons_self
      have hrest := ih h3 (by simpa using hnew) fun r hmem => hm r (List.mem_cons_of_mem _ hmem)
      intro r hmem
      rcases List.mem_cons.mp hmem with rfl | hmem
      · simpa using hb
      · exact hrest r hmem
    · rw [if_pos rfl] at hm ⊢
      exact ih h3 hb hm

/-! ## Bounds that describe the image -/

/-- Where the image of a file lies, each part with its first address and the one after its last. -/
def File.image (file : File) : List (Nat × Nat) :=
  if isElfFile file then file.loads.map fun h => (h.pVaddr, h.pVaddr + h.pMemsz) else [(0, file.size)]

/-- The bounds that an exec of the file leaves describe the image just loaded. -/
structure Described (file : File) : Prop where
  /-- They depend on the file only. -/
  only : ∀ e e', file.ends e = file.ends e'
  /-- `code_end` is past every executable segment. -/
  code : ∀ e, isElfFile file = true → ∀ h ∈ file.loads, h.executable = true → h.pVaddr + h.pMemsz ≤ (file.ends e).1
  /-- `data_end` is past everything that was loaded. -/
  data : ∀ e, ∀ r ∈ file.image, r.2 ≤ (file.ends e).2
  /-- Memory from `sbrk` is apart from the image, unless the program gives back the image. -/
  heap : ∀ e (m m' : Machine) incs moves, m.cur.ends = file.ends e → m.cur.brk = m.cur.dataEnd →
    Returns (sbrkAll incs) m moves m' → (∀ r ∈ moves, m.cur.dataEnd ≤ r.2) →
    ∀ r ∈ moves, ∀ s ∈ file.image, ∀ a, r.1 ≤ a → a < r.2 → ¬ (s.1 ≤ a ∧ a < s.2)
  /-- Headers of other types have no influence. -/
  others : isElfFile file = true → ∀ e, file.ends e = file.loads.foldl (fun e h => h.ends e) e

/-- The last executable header and the last data header that `load_elf` takes are there, end where the last such
segment does, and end past the others. -/
def LastHeadersDescribe (file : File) : Prop :=
  isElfFile file = true ∧ ∃ c d,
    lastEnd Phdr.executable file.taken = some c ∧ lastEnd Phdr.executable file.loads = some c ∧
    lastEnd Phdr.isData file.taken = some d ∧ lastEnd Phdr.isData file.loads = some d ∧
    ∀ h ∈ file.loads, (h.executable = true → h.pVaddr + h.pMemsz ≤ c) ∧ h.pVaddr + h.pMemsz ≤ d

theorem ends_loads (file : File) (e : Nat × Nat) :
    file.loads.foldl (fun e h => h.ends e) e =
      ((lastEnd Phdr.executable file.loads).getD e.1, (lastEnd Phdr.isData file.loads).getD e.2) := by
  apply foldl_ends
  intro h hm hnull
  have hload : h.pType = PT_LOAD := by simpa using (List.mem_filter.mp hm).2
  rw [hload] at hnull
  exact absurd hnull (by decide)

theorem image_elf {file : File} (he : isElfFile file = true) {r : Nat × Nat} :
    r ∈ file.image ↔ ∃ h ∈ file.loads, r = (h.pVaddr, h.pVaddr + h.pMemsz) := by
  rw [File.image, he, if_pos rfl, List.mem_map]
  simp only [eq_comm]

theorem described_of_last {file : File} (h : LastHeadersDescribe file) : Described file := by
  obtain ⟨he, c, d, hc, hc', hd, hd', hle⟩ := h
  have hends : ∀ e, file.ends e = (c, d) := by
    intro e
    rw [ends_elf he, hc, hd]
    rfl
  have hdata : ∀ r ∈ file.image, r.2 ≤ d := by
    intro r hr
    obtain ⟨h, hm, rfl⟩ := (image_elf he).mp hr
    exact (hle h hm).2
  refine ⟨?_, ?_, ?_, ?_, ?_⟩
  · intro e e'
    rw [hends, hends]
  · intro e _ h hm hx
    rw [hends]
    exact (hle h hm).1 hx
  · intro e r hr
    rw [hends]
    exact hdata r hr
  · intro e m m' incs moves hm hbrk hrun hkeep r hr s hs a hra _ hin
    rw [hends] at hm
    have hde : m.cur.dataEnd = d := congrArg Prod.snd hm
    have habove := sbrkAll_above hrun hbrk.ge hkeep r hr
    have := hdata s hs
    omega
  · intro _ e
    rw [hends, ends_loads, hc', hd']
    rfl

/-- A value that does not depend on what was there before is there. -/
theorem isSome_of_const {o : Option Nat} (h : o.getD 0 = o.getD 1) : ∃ c, o = some c := by
  cases o with
  | none => cases h
  | some c => exact ⟨c, rfl⟩

theorem eq_some_of_getD {o : Option Nat} {c : Nat} (h : ∀ e, c = o.getD e) : o = some c := by
  cases o with
  | none => exact absurd (h (c + 1)) (by simp)
  | some c' => rw [h 0, Option.getD_some]

theorem last_of_described {file : File} (h : Described file) : LastHeadersDescribe file := by
  cases he : isElfFile file with
  | false =>
    have := h.only (0, 0) (1, 1)
    rw [ends_flat he, ends_flat he] at this
    cases this
  | true =>
    have honly := h.only (0, 0) (1, 1)
    rw [ends_elf he, ends_elf he, Prod.mk.injEq] at honly
    obtain ⟨c, hc⟩ := isSome_of_const honly.1
    obtain ⟨d, hd⟩ := isSome_of_const honly.2
    have hends : ∀ e, file.ends e = (c, d) := by
      intro e
      rw [ends_elf he, hc, hd]
      rfl
    have hloads : ∀ e, (c, d) =
        ((lastEnd Phdr.executable file.loads).getD e, (lastEnd Phdr.isData file.loads).getD e) := by
      intro e
      rw [← ends_loads file (e, e), ← h.others he, hends]
    refine ⟨he, c, d, hc, ?_, hd, ?_, ?_⟩
    · exact eq_some_of_getD fun e => congrArg Prod.fst (hloads e)
    · exact eq_some_of_getD fun e => congrArg Prod.snd (hloads e)
    · intro g hg
      constructor
      · intro hx
        have := h.code (0, 0) he g hg hx
        rwa [hends] at this
      · have := h.data (0, 0) _ ((image_elf he).mpr ⟨g, hg, rfl⟩)
        rwa [hends] at this

/-- **When the bounds describe the image.** What a successful exec leaves is a function of the file and of the bounds
before, and it describes the image exactly when the last headers do. -/
theorem bounds_described_iff (file : File) :
    (∀ m m', Returns (doExecve allocPageFrame (some file)) m 0 m' →
      m'.cur.ends = file.ends m.cur.ends ∧ m'.cur.brk = m'.cur.dataEnd) ∧
    (Described file ↔ LastHeadersDescribe file) :=
  ⟨fun _ _ h => doExecve_ends untouched_allocPageFrame h, last_of_described, described_of_last⟩

/-- A flat binary keeps the `code_end` of the image before. -/
theorem bounds_not_described : ¬ Described ⟨1, fun _ => 0⟩ := by
  intro h
  exact absurd (h.only (0, 0) (1, 1)) (by decide)

end Raampjes.Mm
