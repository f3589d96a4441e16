import Raampjes.Mm.UserBytes

/-!
# What a loaded program finds in its memory

- `Phdr.memory`, `File.memory`: the bytes that a file asks for, later headers on top of earlier ones;
- `Wrote`: bytes were stored, and everything else is still there; `wrote_storeBytes`, `wrote_loadFile`: the steps of loading;
- `File.memory_segment`: the bytes of segments that do not overlap;
- `doExecve_image`: after `do_execve` the image is in the memory of the task.
-/

namespace Raampjes.Mm

open Progs Memories Runs Sched

/-! ## The bytes of a file -/

/-- Bytes from `addr` on, in 32 bits. -/
def bytesAt (addr : Nat) (bytes : Nat → UInt8) (n : Nat) : Memory Nat UInt8 :=
  span (fun i => (addr + i) % 2 ^ 32) bytes n

/-- The bytes of a segment: those of the file, and zeros. -/
def Phdr.memory (file : File) (h : Phdr) : Memory Nat UInt8 :=
  if h.pType = PT_NULL then empty
  else overlay (if h.pFilesz < h.pMemsz then bytesAt (h.pVaddr + h.pFilesz) (fun _ => 0) (h.pMemsz - h.pFilesz) else empty)
    (bytesAt h.pVaddr (fun i => file.bytes ((h.pOffset + i) % 2 ^ 32)) h.pFilesz)

/-- The bytes that loading the file puts in memory. -/
def File.memory (file : File) : Memory Nat UInt8 :=
  if isElfFile file then layers (file.phdrs.map (Phdr.memory file)) else bytesAt 0 file.bytes file.size

section Bytes

variable {file : File} {h : Phdr} {addr n i a : Nat} {bytes : Nat → UInt8}

theorem bytesAt_self (hn : addr + n ≤ 2 ^ 32) (hi : i < n) : bytesAt addr bytes n (addr + i) = some (bytes i) := by
  have hinj : ∀ j, j < n → (addr + j) % 2 ^ 32 = (addr + i) % 2 ^ 32 → j = i := by
    intro j hj he
    rw [Nat.mod_eq_of_lt (by omega), Nat.mod_eq_of_lt (by omega)] at he
    omega
  have hat : bytesAt addr bytes n ((addr + i) % 2 ^ 32) = some (bytes i) := span_at hinj hi
  rwa [Nat.mod_eq_of_lt (by omega)] at hat

theorem bytesAt_none (hn : addr + n ≤ 2 ^ 32) (ha : a < addr ∨ addr + n ≤ a) : bytesAt addr bytes n a = none := by
  induction n with
  | zero => rfl
  | succ n ih =>
    have hne : a ≠ (addr + n) % 2 ^ 32 := by
      rw [Nat.mod_eq_of_lt (by omega)]
      omega
    rw [bytesAt, span, overlay_none (single_of_ne hne)]
    exact ih (by omega) (by omega)

/-- **The bytes of a segment**: first those of the file, then zeros. -/
theorem Phdr.memory_segment (hn : h.pType ≠ PT_NULL) (hb : h.pVaddr + h.pMemsz ≤ KERNEL_MEMORY) (hf : h.pFilesz ≤ h.pMemsz)
    (hi : i < h.pMemsz) : h.memory file (h.pVaddr + i) =
      some (if i < h.pFilesz then file.bytes ((h.pOffset + i) % 2 ^ 32) else 0) := by
  rw [KERNEL_MEMORY] at hb
  rw [Phdr.memory, if_neg hn]
  by_cases hfile : i < h.pFilesz
  · rw [if_pos hfile, overlay_none, bytesAt_self (by omega) hfile]
    split
    · exact bytesAt_none (by omega) (by omega)
    · rfl
  · rw [if_neg hfile, if_pos (by omega : h.pFilesz < h.pMemsz)]
    refine overlay_some ?_
    have hat := @bytesAt_self (h.pVaddr + h.pFilesz) (h.pMemsz - h.pFilesz) (i - h.pFilesz) (fun _ => 0) (by omega)
      (by omega)
    rw [show h.pVaddr + h.pFilesz + (i - h.pFilesz) = h.pVaddr + i by omega] at hat
    exact hat

/-- A segment has no bytes elsewhere. -/
theorem Phdr.memory_none (hb : h.pType ≠ PT_NULL → h.pVaddr + h.pMemsz ≤ KERNEL_MEMORY) (hf : h.pFilesz ≤ h.pMemsz)
    (ha : h.pType ≠ PT_NULL → a < h.pVaddr ∨ h.pVaddr + h.pMemsz ≤ a) : h.memory file a = none := by
  rw [Phdr.memory]
  split
  · rfl
  · rename_i hn
    have hb := hb hn
    have ha := ha hn
    rw [KERNEL_MEMORY] at hb
    rw [overlay_none, bytesAt_none (by omega) (by omega)]
    split
    · exact bytesAt_none (by omega) (by omega)
    · rfl

/-- The bytes of a file whose segments do not overlap. -/
theorem File.memory_segment (he : isElfFile file = true) (hb : file.Below) (hf : ∀ g ∈ file.taken, g.pFilesz ≤ g.pMemsz)
    (hdisj : ∀ g ∈ file.taken, g ≠ h → g.pVaddr + g.pMemsz ≤ h.pVaddr ∨ h.pVaddr + h.pMemsz ≤ g.pVaddr)
    (hh : h ∈ file.taken) (hi : i < h.pMemsz) : file.memory (h.pVaddr + i) =
      some (if i < h.pFilesz then file.bytes ((h.pOffset + i) % 2 ^ 32) else 0) := by
  rw [File.Below, if_pos he] at hb
  have htaken : ∀ {g}, g ∈ file.taken ↔ g ∈ file.phdrs ∧ g.pType ≠ PT_NULL := by
    intro g
    rw [File.taken, List.mem_filter, decide_eq_true_iff]
  obtain ⟨hmem, hn⟩ := htaken.mp hh
  have hself := @Phdr.memory_segment file h i hn (hb h hh) (hf h hh) hi
  rw [File.memory, if_pos he]
  refine layers_agree (List.mem_map_of_mem hmem) hself ?_
  intro v hv
  obtain ⟨g, hg, rfl⟩ := List.mem_map.mp hv
  by_cases hgh : g = h
  · rw [hgh]
    exact Or.inr hself
  · refine Or.inl ?_
    by_cases hgn : g.pType = PT_NULL
    · rw [Phdr.memory, if_pos hgn]
      rfl
    · have hgt := htaken.mpr ⟨hg, hgn⟩
      refine Phdr.memory_none (fun _ => hb g hgt) (hf g hgt) fun _ => ?_
      rcases hdisj g hgt hgh with hlt | hlt
      · exact Or.inr (by omega)
      · exact Or.inl (by omega)

end Bytes

/-! ## Loading -/

/-- The bytes `w` were stored, and what is not covered by them is still there. -/
def Wrote (w : Memory Nat UInt8) (c c' : Machine × Layout) : Prop :=
  Extends (overlay w (userMemory c.1.ram c.1.cr3)) (userMemory c'.1.ram c'.1.cr3)

theorem Wrote.trans {v w : Memory Nat UInt8} {c c₁ c₂ : Machine × Layout} (h : Wrote w c c₁) (h' : Wrote v c₁ c₂) :
    Wrote (overlay v w) c c₂ := by
  rw [Wrote, ← overlay_overlay]
  exact (Extends.overlay h).trans h'

/-- What leaves the memory as it is, or extends it. -/
theorem wrote_nothing {c c' : Machine × Layout} (h : Extends (userMemory c.1.ram c.1.cr3) (userMemory c'.1.ram c'.1.cr3)) :
    Wrote empty c c' := by
  rw [Wrote, empty_overlay]
  exact h

instance : Std.Refl (Wrote empty) := ⟨fun _ => wrote_nothing (Extends.refl _)⟩

instance : IsTrans (Machine × Layout) (Wrote empty) := ⟨fun _ _ _ h h' => empty_overlay (κ := Nat) (β := UInt8) empty ▸ h.trans h'⟩

theorem wrote_then {α β : Type} {x : Kernel α} {f : α → Kernel β} {v w : Memory Nat UInt8} (hx : Upholds Booked (Wrote w) x)
    (hf : ∀ a, Upholds Booked (Wrote v) (f a)) : Upholds Booked (Wrote (overlay v w)) (x >>= f) :=
  hx.seq hf fun _ _ _ h h' => Wrote.trans h h'

theorem nothing_then {α β : Type} {x : Kernel α} {f : α → Kernel β} {v : Memory Nat UInt8}
    (hx : Upholds Booked (Wrote empty) x) (hf : ∀ a, Upholds Booked (Wrote v) (f a)) : Upholds Booked (Wrote v) (x >>= f) := by
  rw [← overlay_empty v] at hf ⊢
  exact hx.seq hf fun _ _ _ h h' => overlay_empty (Memories.overlay v empty) ▸ Wrote.trans h h'

section Loading

variable {m m' : Machine} {L L' : Layout} {addr a n : Nat} {b : UInt8} {flags : Word} {file : File} {u : Unit}

theorem Filled.wrote (hF : Filled allocPageFrame m L a flags m' L') (hB : Booked m L) (ha : a < KERNEL_MEMORY)
    (hfl : Plain flags) (hno : ¬ HasPage m.ram m.cr3 (dirIndex a) (pageTableIndex a)) :
    Booked m' L' ∧ Wrote empty (m, L) (m', L') := by
  obtain ⟨h', hp⟩ := hF.pays hB ha hfl hno
  have hcr3 : m'.cr3 = m.cr3 := hp.kept.same.cr3
  refine ⟨hp.booked hB h', wrote_nothing ?_⟩
  dsimp only
  rw [hcr3]
  exact hF.extends hB.1 ha hno

theorem wrote_pokeByte (ha : addr < KERNEL_MEMORY) : Upholds Booked (Wrote (single addr b)) (pokeByte addr b) := by
  intro m L u m' hB hr
  obtain ⟨f, hw, rfl⟩ := pokeByte_ok.mp hr
  obtain ⟨h', hp⟩ := poke_pays hB ha hw (wordIndex addr) (setByte (m.ram f (wordIndex addr)) (addr % 4) b)
  refine ⟨L, hp.booked hB h', ?_⟩
  have hbytes := userMemory_poke (b := b) hB.1 ha hw
  rw [Wrote]
  dsimp only [setWord_cr3]
  rw [hbytes]
  exact Extends.refl _

theorem wrote_kernelStore (ha : addr < KERNEL_MEMORY) :
    ∀ n, Upholds Booked (Wrote (single addr b)) (kernelStore allocPageFrame addr b n)
  | 0 => wrote_pokeByte ha
  | n + 1 => by
    intro m L u m' hB hr
    rw [kernelStore, Returns.bind_iff ((gets_ok _).mpr ⟨rfl, rfl⟩)] at hr
    cases hw : walk m.ram m.cr3 addr with
    | some f =>
      rw [hw, Option.isSome_some, if_pos rfl] at hr
      exact wrote_pokeByte ha m L u m' hB hr
    | none =>
      -- a page fault first, and then the same again
      rw [hw, Option.isSome_none, if_neg Bool.false_ne_true] at hr
      obtain ⟨_, m1, h1, hr⟩ := (bind_ok _ _ _).mp hr
      rw [pageFault, if_neg Bool.false_ne_true] at h1
      obtain ⟨_, c, L1, hc, _, hno, hF, _⟩ := pfNonPresent_cases hB.1 (by simp) ha hw (hB.2.hands hB.1.holds)
        (hB.2.hands_taken hB.1.holds) h1
      obtain ⟨hB1, hW1⟩ := hF.wrote hB hc plain_userRw hno
      obtain ⟨L2, hB2, hW2⟩ := wrote_kernelStore ha n m1 L1 u m' hB1 hr
      exact ⟨L2, hB2, overlay_empty (single addr b) ▸ hW1.trans hW2⟩

theorem wrote_storeUser (ha : addr < KERNEL_MEMORY) (b : UInt8) :
    Upholds Booked (Wrote (single addr b)) (storeUser allocPageFrame addr b) := by
  rw [storeUser_user _ ha]
  exact wrote_kernelStore ha 2

/-- **Bytes that are stored.** -/
theorem wrote_storeBytes (ha : addr ≤ KERNEL_MEMORY) (bytes : Nat → UInt8) (n : Nat) :
    Upholds Booked (Wrote (bytesAt addr bytes n)) (storeBytes allocPageFrame addr bytes n) := by
  intro m L u m' hB hr
  have hu := storeBytes_inUser ha hr
  exact Upholds.loop_seq (R := fun i => Wrote (bytesAt addr bytes i)) (fun _ => wrote_nothing (Extends.refl _))
    (fun _ _ _ _ h h' => Wrote.trans h h') (fun i hi => wrote_storeUser (hu i hi) _) m L u m' hB hr

theorem wrote_allocPages (hfl : Plain flags) {e : Nat} (he : e ≤ KERNEL_MEMORY) (a : Nat) :
    Upholds Booked (Wrote empty) (allocPages allocPageFrame a e flags) := by
  refine Upholds.loop fun i hi m L u m' hB hr => ?_
  have hle : (a / PAGE_SIZE + i) * PAGE_SIZE ≤ KERNEL_MEMORY := by
    have hmul : (a / PAGE_SIZE + i) * PAGE_SIZE ≤ e / PAGE_SIZE * PAGE_SIZE := Nat.mul_le_mul_right _ (by omega)
    exact hmul.trans ((Nat.div_mul_le_self e PAGE_SIZE).trans he)
  rcases allocPageAt_cases hB hfl hle hr with rfl | ⟨ha, hno, L', hF⟩
  · exact ⟨L, hB, Std.Refl.refl _⟩
  · exact ⟨L', hF.wrote hB ha hfl hno⟩

theorem wrote_setCur {g : Machine → TaskStruct} (hg : ∀ m, (g m).key = m.cur.key ∧ (g m).state = m.cur.state) :
    Upholds Booked (Wrote empty) (update fun m => m.setCur (g m) : Kernel Unit) := by
  intro m L u m' hB hr
  rw [(update_ok _ _).mp hr]
  obtain ⟨h', hp⟩ := setCur_pays hB (hg m)
  exact ⟨L, hp.booked hB h', wrote_nothing (Extends.refl _)⟩

/-- **A segment.** -/
theorem wrote_loadSegment (file : File) {h : Phdr} (hb : h.pType ≠ PT_NULL → h.pVaddr + h.pMemsz ≤ KERNEL_MEMORY) :
    Upholds Booked (Wrote (h.memory file)) (loadSegment allocPageFrame file h) := by
  rw [loadSegment, Phdr.memory]
  by_cases hn : h.pType = PT_NULL
  · rw [if_pos hn, if_pos hn]
    exact upholds_pure ()
  · rw [if_neg hn, if_neg hn]
    have hle := hb hn
    have hstop : h.stop ≤ KERNEL_MEMORY := stop_le hle ▸ hle
    refine nothing_then (wrote_setCur fun m => setBounds_key h m.cur) fun _ => ?_
    refine nothing_then (wrote_allocPages (plain_pageFlags h) hstop _) fun _ => ?_
    refine wrote_then (wrote_storeBytes (by omega) _ _) fun _ => ?_
    by_cases hz : h.pFilesz < h.pMemsz
    · rw [onlyIf_pos (decide_eq_true hz), if_pos hz]
      exact wrote_storeBytes (by omega) _ _
    · rw [onlyIf_neg (decide_eq_false hz), if_neg hz]
      exact upholds_pure ()

theorem wrote_setEip (eip : Nat) : Upholds Booked (Wrote empty) (setEip eip) := wrote_setCur fun _ => ⟨rfl, rfl⟩

/-- **A file.** -/
theorem wrote_loadFile {file : File} (hb : file.Below) :
    Upholds Booked (Wrote file.memory) (loadFile allocPageFrame file) := by
  rw [loadFile, File.memory]
  rw [File.Below] at hb
  cases he : isElfFile file with
  | true =>
    rw [he, if_pos rfl] at hb
    rw [if_pos rfl, if_pos rfl, loadElf]
    refine nothing_then (Upholds.onlyIf (upholds_stop _)) fun _ => ?_
    have hheaders : Upholds Booked (Wrote (layers (file.phdrs.map (Phdr.memory file))))
        (file.phdrs.forM (loadSegment allocPageFrame file)) := by
      refine Upholds.forM_seq (R := fun hs => Wrote (layers (hs.map (Phdr.memory file))))
        (S := fun h => Wrote (h.memory file)) (fun _ => wrote_nothing (Extends.refl _))
        (fun _ _ _ _ _ h h' => Wrote.trans h h') file.phdrs fun h hh => wrote_loadSegment file fun hn => ?_
      exact hb h (List.mem_filter.mpr ⟨hh, decide_eq_true hn⟩)
    rw [← empty_overlay (layers (file.phdrs.map (Phdr.memory file)))]
    exact wrote_then hheaders fun _ => wrote_setEip _
  | false =>
    rw [he, if_neg Bool.false_ne_true] at hb
    rw [if_neg Bool.false_ne_true, if_neg Bool.false_ne_true, loadBin]
    refine nothing_then (wrote_allocPages plain_userRw hb _) fun _ => ?_
    refine nothing_then (wrote_setCur fun _ => ⟨rfl, rfl⟩) fun _ => ?_
    rw [← empty_overlay (bytesAt 0 file.bytes file.size)]
    exact wrote_then (wrote_storeBytes (Nat.zero_le _) _ _) fun _ => wrote_setEip _

/-- **The image is in memory** after `do_execve`. -/
theorem doExecve_image (hB : Booked m L) (hb : file.Below) {r : Int}
    (hr : Returns (doExecve allocPageFrame (some file)) m r m') : Extends file.memory (userMemory m'.ram m'.cr3) := by
  obtain ⟨m1, L1, m3, L3, m4, stack, hE⟩ := doExecve_cases hB hr
  obtain ⟨hB3, _⟩ := hE.stackPage.wrote (hE.booked hB) stackPage_user plain_userRw hE.no_page
  obtain ⟨_, _, hW⟩ := wrote_loadFile hb m3 L3 _ m4 hB3 hE.loaded
  rw [hE.eq]
  exact (extends_overlay_self _ _).trans hW

end Loading

end Raampjes.Mm
