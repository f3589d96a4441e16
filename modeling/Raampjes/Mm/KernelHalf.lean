import Raampjes.Mm.Steps

/-!
# The kernel half of all address spaces

- `boot_sound`: the layout after `init_mm` and `init_sched`;
- `allocUnreferenced`: `alloc_page_frame`, as long as it finds frames that nothing reaches;
- `run_sound`: the layout after a run;
- `OneKernelHalf`, `Sound.oneKernelHalf`: all tasks have the kernel half in common.
-/

namespace Raampjes.Mm

open Progs Sched Runs

/-! ## The start -/

/-- The uses of the frames after `init_mm`. -/
def bootLayout (img : Image) : Layout where
  pt1 := img.table
  ktab := none
  dir := fun _ => img.directory
  own := fun _ => 0
  role := fun f => if f = img.table then .low else if f = img.directory then .dir 0 else .unused

section Boot

variable (img : Image) (tag : MmapTag) (table : FrameTable) (ram : Nat → Nat → Word)

theorem boot_table (i : Nat) : (boot img tag table ram).ram img.table i = mkEntry i 3#32 := by
  have hne : img.table ≠ img.directory := img.ne.symm
  rw [boot, initMm]
  rw [setWord_of_ne _ _ _ _ (Or.inl hne), setWord_of_ne _ _ _ _ (Or.inl hne)]
  show bootRam img ram img.table i = _
  rw [bootRam, if_pos rfl]

/-- The entries of the first directory. -/
theorem boot_directory (i : Nat) : (boot img tag table ram).ram img.directory i =
    if i = 1023 then mkEntry img.directory 3#32
    else if i = 0 then absent (mkEntry img.table 3#32)
    else if i = 768 then mkEntry img.table 3#32
    else 0#32 := by
  have hram : ∀ j, bootRam img ram img.directory j = if j = 0 ∨ j = 768 then mkEntry img.table 3#32 else 0#32 := by
    intro j
    rw [bootRam, if_neg img.ne, if_pos rfl]
  rw [boot, initMm]
  by_cases h0 : i = 0
  · subst h0
    rw [setWord_self, setWord_of_ne _ _ _ _ (Or.inr (by decide)), if_neg (by decide), if_pos rfl]
    show absent (bootRam img ram img.directory 0) = _
    rw [hram, if_pos (Or.inl rfl)]
  · rw [setWord_of_ne _ _ _ _ (Or.inr h0)]
    by_cases h1023 : i = 1023
    · subst h1023
      rw [setWord_self, if_pos rfl]
    · rw [setWord_of_ne _ _ _ _ (Or.inr h1023), if_neg h1023, if_neg h0]
      show bootRam img ram img.directory i = _
      rw [hram]
      by_cases h768 : i = 768
      · rw [if_pos (Or.inr h768), if_pos h768]
      · rw [if_neg (by omega), if_neg h768]

theorem boot_tasks {p : Nat} {t : TaskStruct} (ht : (boot img tag table ram).tasks p = some t) :
    p = 0 ∧ t = initTask img := by
  have hp : (boot img tag table ram).tasks p = if p = 0 then some (initTask img) else none := rfl
  rw [hp] at ht
  by_cases h0 : p = 0
  · rw [if_pos h0] at ht
    exact ⟨h0, (Option.some.inj ht).symm⟩
  · rw [if_neg h0] at ht
    cases ht

/-- No page of the user half is there. -/
theorem boot_absent {d : Nat} (hd : d < 768) : present ((boot img tag table ram).ram img.directory d) = false := by
  rw [boot_directory, if_neg (by omega)]
  by_cases h0 : d = 0
  · rw [if_pos h0, present_absent]
  · rw [if_neg h0, if_neg (by omega)]
    rfl

theorem boot_unshared {d : Nat} (hd : d < 768) : shared ((boot img tag table ram).ram img.directory d) = false ∧
    cowDir ((boot img tag table ram).ram img.directory d) = false := by
  rw [boot_directory, if_neg (by omega)]
  by_cases h0 : d = 0
  · rw [if_pos h0, shared_absent, cowDir_absent, shared_mkEntry, cowDir_mkEntry]
    decide
  · rw [if_neg h0, if_neg (by omega)]
    decide

theorem boot_dirOk : DirOk (boot img tag table ram).ram (bootLayout img) img.directory := by
  have hlt : img.directory < 2 ^ 20 := by
    have := img.directory_lt
    omega
  have htab : img.table < 2 ^ 20 := by
    have := img.table_lt
    omega
  have h1023 : (boot img tag table ram).ram img.directory 1023 = mkEntry img.directory 3#32 := by
    rw [boot_directory, if_pos rfl]
  have h768 : (boot img tag table ram).ram img.directory 768 = mkEntry img.table 3#32 := by
    rw [boot_directory, if_neg (by decide), if_neg (by decide), if_pos rfl]
  have hrest : ∀ d, 769 ≤ d → d < 1023 → (boot img tag table ram).ram img.directory d = 0#32 := by
    intro d hd hlt'
    rw [boot_directory, if_neg (by omega), if_neg (by omega), if_neg (by omega)]
  refine ⟨?_, ?_, ?_, ?_, ?_, ?_, fun K hK => ?_, fun _ => ?_, fun d hd hlt' => hrest d (by omega) hlt', ?_⟩
  · rw [h1023]
    simp
  · rw [h1023, frameOf_mkEntry hlt (by decide)]
  · rw [h1023, shared_mkEntry]
    decide
  · rw [h768]
    simp
  · rw [h768, frameOf_mkEntry htab (by decide)]
    rfl
  · rw [h768, shared_mkEntry]
    decide
  · cases hK
  · rw [hrest 769 (le_refl _) (by decide)]
    rfl
  · intro d hd hlt' hp
    by_cases hl : d = 1023
    · rw [hl, h1023, cowDir_mkEntry]
      decide
    by_cases hf : d = 768
    · rw [hf, h768, cowDir_mkEntry]
      decide
    · rw [hrest d (by omega) (by omega)]
      decide

/-- **The layout after the start.** -/
theorem boot_sound : Sound (boot img tag table ram) (bootLayout img) ∅ := by
  have hrole : (bootLayout img).role img.directory = .dir 0 := by
    show (if img.directory = img.table then _ else _) = _
    rw [if_neg img.ne, if_pos rfl]
  have hno : ∀ d i, ¬ HasPage (boot img tag table ram).ram img.directory d i := by
    rintro d i ⟨hd, _, hp, _⟩
    rw [boot_absent _ _ _ _ hd] at hp
    cases hp
  have hspace : SpaceOk (boot img tag table ram).ram (bootLayout img) img.directory := by
    refine ⟨?_, ?_, ?_, ?_, ?_, fun _ d i hp => absurd hp (hno d i)⟩
    · intro d hd hp
      rw [boot_absent _ _ _ _ hd] at hp
      cases hp
    · exact fun d i hp => absurd hp (hno d i)
    · exact fun _ d i d' i' hp => absurd hp (hno d i)
    · intro _ d hd
      rw [(boot_unshared _ _ _ _ hd).1, (boot_unshared _ _ _ _ hd).2]
    · intro _ d hd hs
      rw [(boot_unshared _ _ _ _ hd).1] at hs
      cases hs
  refine ⟨⟨?_, ?_, ?_, ?_, rfl, rfl, rfl, ?_, ?_⟩, ?_, ?_, ?_⟩
  · intro i hi
    show present ((boot img tag table ram).ram img.table i) = true ∧ frameOf ((boot img tag table ram).ram img.table i) = i
    rw [boot_table, frameOf_mkEntry (by omega) (by decide)]
    simp
  · show (if img.table = img.table then Role.low else _) = _
    rw [if_pos rfl]
  · intro K hK
    cases hK
  · intro p t ht
    obtain ⟨rfl, rfl⟩ := boot_tasks _ _ _ _ ht
    refine ⟨rfl, by decide, hrole, boot_dirOk .., hspace, fun _ => ?_, fun h => absurd rfl h, fun h => absurd rfl h⟩
    exact ⟨rfl, img.directory_lt, img.task_ge, img.task_le, rfl⟩
  · intro p t q u d d' ht _ _ hd _ hp
    obtain ⟨rfl, _⟩ := boot_tasks _ _ _ _ ht
    exact absurd ((boot_absent _ _ _ _ hd).symm.trans hp) Bool.false_ne_true
  · refine fun _ => ⟨fun p hp => ?_, fun d hd => (boot_unshared _ _ _ _ hd).1⟩
    obtain ⟨t, ht⟩ := Option.isSome_iff_exists.mp hp
    exact (boot_tasks _ _ _ _ ht).1
  · intro i _
    show shared ((boot img tag table ram).ram img.table i) = false
    rw [boot_table, shared_mkEntry]
    decide
  · intro K k hK
    cases hK
  · exact fun _ d i hp => absurd hp (hno d i)

theorem boot_bounded : Bounded (boot img tag table ram) := by
  intro p t ht
  rw [(boot_tasks _ _ _ _ ht).2]
  exact ⟨Nat.zero_le _, Nat.zero_le _, Nat.zero_le _⟩

end Boot

/-! ## Runs -/

open Classical in
/-- `alloc_page_frame`, up to the first time that it finds a frame in use. -/
noncomputable def allocUnreferenced : Kernel Nat := do
  let found ← gets searchBitmap
  let inUse ← gets fun m => decide (∃ f, found = some f ∧ Reaches m f)
  onlyIf inUse (stop .panic)
  takeFrame found

theorem allocUnreferenced_ok {m m' : Machine} {f : Nat} :
    Returns allocUnreferenced m f m' ↔ Returns allocPageFrame m f m' ∧ ¬ Reaches m f := by
  rw [allocUnreferenced, Returns.bind_iff ((gets_ok _).mpr ⟨rfl, rfl⟩), Returns.bind_iff ((gets_ok _).mpr ⟨rfl, rfl⟩),
    check_bind_ok, decide_eq_false_iff_not, allocPageFrame, Returns.bind_iff ((gets_ok _).mpr ⟨rfl, rfl⟩)]
  cases hs : searchBitmap m with
  | none => simp [takeFrame, stop_ok]
  | some g =>
    have hf : ∀ {m'}, Returns (takeFrame (some g)) m f m' → f = g := by
      intro m' hr
      obtain ⟨_, _, _, hr⟩ := (bind_ok _ _ _).mp hr
      exact (pure_ok.mp hr).1
    constructor
    · rintro ⟨hno, hr⟩
      exact ⟨hr, fun hreach => hno ⟨g, rfl, hf hr ▸ hreach⟩⟩
    · rintro ⟨hr, hno⟩
      refine ⟨?_, hr⟩
      rintro ⟨g', hg, hreach⟩
      rw [← Option.some.inj hg, ← hf hr] at hreach
      exact hno hreach

theorem hands_unreferenced (m : Machine) : Hands allocUnreferenced m := by
  refine ⟨fun m1 f m2 hr => allocPageFrame_ok (allocUnreferenced_ok.mp hr).1, fun m1 f m2 hg _ hr hf => ?_⟩
  exact (allocUnreferenced_ok.mp hr).2 (hg f hf)

section Run

variable {alloc : Kernel Nat} {img : Image} {tag : MmapTag} {table : FrameTable} {ram : Nat → Nat → Word}
  {xs : List (Step Machine Act Empty)} {s : Machine}

/-- **The layout after a run.** -/
theorem run_sound (hA : ∀ m, Hands alloc m) (hrun : Run (step alloc) (boot img tag table ram) xs s)
    (hC : ∀ x ∈ xs, x.act.Proper x.before) : (∃ L : Layout, Sound s L ∅) ∧ Bounded s := by
  refine hrun.inv (C := fun m a => a.Proper m) (fun m => (∃ L : Layout, Sound m L ∅) ∧ Bounded m)
    ⟨⟨_, boot_sound img tag table ram⟩, boot_bounded img tag table ram⟩ ?_ hC
  rintro m a m' es ⟨⟨L, h⟩, hb⟩ hc hst
  refine ⟨?_, step_bounded h hA hb hc hst⟩
  rcases step_cases h hA hb hc hst with ⟨_, L', _, _, _, hs⟩ | ⟨_, L', hs, _⟩
  · exact ⟨L', hs⟩
  · exact ⟨L', hs⟩

end Run

/-! ## One kernel half -/

/-- `D` is the page directory of the task in slot `p`. -/
def IsDirectory (m : Machine) (p D : Nat) : Prop :=
  ∃ t, m.tasks p = some t ∧ walk m.ram m.cr3 t.pageDirectory = some D

section Shared

variable {s : Bool} {m : Machine} {L : Uses s} {T : Finset Nat} {p q D E : Nat} {t : TaskStruct}

theorem isDirectory_iff (h : Holds m L) : IsDirectory m p D ↔ (m.tasks p).isSome ∧ D = L.dir p := by
  constructor
  · rintro ⟨t, ht, hw⟩
    rw [(h.task p t ht).walk_dir h h.curDir, Option.some.injEq] at hw
    exact ⟨by rw [ht]; rfl, hw.symm⟩
  · rintro ⟨hp, rfl⟩
    obtain ⟨t, ht⟩ := Option.isSome_iff_exists.mp hp
    exact ⟨t, ht, (h.task p t ht).walk_dir h h.curDir⟩

theorem IsDirectory.dirOk (h : Holds m L) (hD : IsDirectory m p D) : DirOk m.ram L D := by
  obtain ⟨hp, rfl⟩ := (isDirectory_iff h).mp hD
  obtain ⟨t, ht⟩ := Option.isSome_iff_exists.mp hp
  exact (h.task p t ht).dirOk

/-- The kernel half of a directory does not depend on whose it is. -/
theorem Holds.agree (h : Holds m L) (hD : IsDirectory m p D) (hE : IsDirectory m q E) {d : Nat} (hd : 768 ≤ d)
    (hlt : d ≤ 1022) : present (m.ram D d) = present (m.ram E d) ∧ frameOf (m.ram D d) = frameOf (m.ram E d) := by
  have hDok := hD.dirOk h
  have hEok := hE.dirOk h
  by_cases h768 : d = 768
  · rw [h768, hDok.low, hEok.low, hDok.low_frame, hEok.low_frame]
    exact ⟨rfl, rfl⟩
  by_cases h769 : d = 769
  · rw [h769]
    cases hK : L.ktab with
    | some K =>
      obtain ⟨h1, h2, _⟩ := hDok.ktab K hK
      obtain ⟨h3, h4, _⟩ := hEok.ktab K hK
      rw [h1, h2, h3, h4]
      exact ⟨rfl, rfl⟩
    | none =>
      -- before the first fork there is one directory
      obtain ⟨hp, rfl⟩ := (isDirectory_iff h).mp hD
      obtain ⟨hq, rfl⟩ := (isDirectory_iff h).mp hE
      have hsingle := (h.single hK).1
      rw [hsingle p hp, hsingle q hq]
      exact ⟨rfl, rfl⟩
  · rw [hDok.rest d (by omega) (by omega), hEok.rest d (by omega) (by omega)]
    exact ⟨rfl, rfl⟩

/-- An address in the first 4 MiB of the kernel. -/
theorem DirOk.walk_low (h : Holds m L) (hD : DirOk m.ram L D) {a : Nat} (ha : KERNEL_MEMORY ≤ a)
    (hlt : a < KERNEL_MEMORY + 2 ^ 22) : walk m.ram D a = some (pageTableIndex a) := by
  have hd : dirIndex a = 768 := by
    rw [KERNEL_MEMORY] at ha hlt
    rw [dirIndex]
    omega
  obtain ⟨h1, h2⟩ := h.low _ (pageTableIndex_lt a)
  simp only [walk, hd, hD.low, hD.low_frame, h1, h2, Bool.and_self, if_true]

end Shared

/-- A kernel image, started over a page-aligned map. -/
def smallImage : Image := ⟨1, 2, KERNEL_MEMORY, by decide, by decide, by decide, by decide, by decide⟩

def smallBoot : Machine := boot smallImage alignedMap ⟨fun _ => 0, []⟩ fun _ _ => 0#32

theorem small_sound : Sound smallBoot (bootLayout smallImage) ∅ := boot_sound ..

end Raampjes.Mm
