import Mathlib

/-!
# The frame table at boot

`init_phys_mm` and the bitmap functions it uses. The table is indexed by C's `int`, with a log of the indices written;
page numbers are 64-bit quotients that are stored in 32-bit signed variables.

- `setBitmapArea_counter`, `setBitmapArea_writes`: one area;
- `free_iff`: which frames `init_phys_mm` leaves free, for arbitrary entries;
- `map_honoured_iff`: on maps below 4 GiB both ends of an area are rounded down, so the map is honoured exactly when no
  usable region that starts inside a frame, and no reserved region that ends inside one, decides about that frame;
- `far_harmless_iff`: maps that reach past 4 GiB are harmless exactly when the truncated page numbers stay in the table
  and free the same frames as the exact ones.
-/

namespace Raampjes.Mm

def PAGE_SIZE : Nat := 0x1000

def BITMAP_SIZE : Int := 1024 * 1024

def KERNEL_MEMORY : Nat := 0xC0000000

def MULTIBOOT_MEMORY_AVAILABLE : UInt32 := 1

def MULTIBOOT_MEMORY_ACPI_RECLAIMABLE : UInt32 := 3

/-- `multiboot_mmap_entry`. -/
structure MmapEntry where
  addr : UInt64
  len : UInt64
  type : UInt32

/-- `multiboot_tag_mmap`, with the address it lies at. -/
structure MmapTag where
  address : Nat
  entries : List MmapEntry
  fits : address + (16 + 24 * entries.length) < 2 ^ 32

/-- The counters of the frames. -/
structure FrameTable where
  counter : Int → UInt8
  writes : List Int

/-! ## The bitmap -/

def setBitmap (value : Bool) (index : Int) (t : FrameTable) : FrameTable :=
  ⟨Function.update t.counter index value.toUInt8, t.writes ++ [index]⟩

/-- The body of the loop of `set_bitmap_area`. -/
def setBitmapBody (value : Bool) (j : Int) (t : FrameTable) : FrameTable :=
  if j > BITMAP_SIZE then t else setBitmap value j t

def setBitmapArea (value : Bool) (start stop : Int) (t : FrameTable) : FrameTable :=
  if start < stop then setBitmapArea value (start + 1) stop (setBitmapBody value start t) else t
termination_by (stop - start).toNat

/-! ## Reading the map -/

/-- The conversion of a page number to `int`. -/
def toInt (n : Nat) : Int := Int.bmod n (2 ^ 32)

def MmapEntry.usable (e : MmapEntry) : Bool :=
  e.type == MULTIBOOT_MEMORY_AVAILABLE || e.type == MULTIBOOT_MEMORY_ACPI_RECLAIMABLE

def MmapEntry.firstPage (e : MmapEntry) : Int := toInt (e.addr / UInt64.ofNat PAGE_SIZE).toNat

def MmapEntry.lastPage (e : MmapEntry) : Int := toInt ((e.len + e.addr) / UInt64.ofNat PAGE_SIZE).toNat

/-- One pass over the map: the areas of the entries that are usable, or of those that are not. -/
def markEntries (usable value : Bool) (entries : List MmapEntry) (t : FrameTable) : FrameTable :=
  entries.foldl (fun t e => if e.usable = usable then setBitmapArea value e.firstPage e.lastPage t else t) t

/-- Both loops go on while `&map[i]` lies in the tag. The offset of `VIRTUAL_ADDRESS` is scaled by the size of an entry and
vanishes in 32 bits, so these are the entries of the tag. -/
def initPhysMm (tag : MmapTag) (t : FrameTable) : FrameTable :=
  let t := setBitmapArea true 0 BITMAP_SIZE t
  let t := markEntries true false tag.entries t
  -- Overlapping areas get the most restricting type.
  let t := markEntries false true tag.entries t
  setBitmapArea true 0 1024 t

/-! ## One area -/

/-- The indices that an area writes: the test lets `BITMAP_SIZE` itself pass. -/
def InArea (start stop i : Int) : Prop := start ≤ i ∧ i < stop ∧ i ≤ BITMAP_SIZE

instance (start stop i : Int) : Decidable (InArea start stop i) := inferInstanceAs (Decidable (_ ∧ _))

theorem setBitmapBody_counter (value : Bool) (j i : Int) (t : FrameTable) :
    (setBitmapBody value j t).counter i = if i = j ∧ i ≤ BITMAP_SIZE then value.toUInt8 else t.counter i := by
  rw [setBitmapBody]
  by_cases hi : i = j
  · subst hi
    by_cases hb : i > BITMAP_SIZE
    · rw [if_pos hb, if_neg (fun h => not_le.mpr hb h.2)]
    · rw [if_neg hb, if_pos ⟨rfl, not_lt.mp hb⟩]
      exact Function.update_self ..
  · rw [if_neg (fun h : i = j ∧ _ => hi h.1)]
    by_cases hb : j > BITMAP_SIZE
    · rw [if_pos hb]
    · rw [if_neg hb]
      exact Function.update_of_ne hi ..

theorem setBitmapBody_writes (value : Bool) (j i : Int) (t : FrameTable) :
    i ∈ (setBitmapBody value j t).writes ↔ i ∈ t.writes ∨ i = j ∧ i ≤ BITMAP_SIZE := by
  rw [setBitmapBody]
  by_cases hb : j > BITMAP_SIZE
  · rw [if_pos hb]
    exact ⟨Or.inl, fun h => h.elim id fun h => absurd (h.1 ▸ h.2) (not_le.mpr hb)⟩
  · rw [if_neg hb]
    simp only [setBitmap, List.mem_append, List.mem_singleton]
    exact or_congr_right ⟨fun h => ⟨h, h ▸ not_lt.mp hb⟩, And.left⟩

theorem inArea_succ {start stop : Int} (hlt : start < stop) (i : Int) :
    InArea start stop i ↔ i = start ∧ i ≤ BITMAP_SIZE ∨ InArea (start + 1) stop i := by
  simp only [InArea]
  omega

theorem setBitmapArea_counter (value : Bool) (start stop : Int) (t : FrameTable) (i : Int) :
    (setBitmapArea value start stop t).counter i =
      if InArea start stop i then value.toUInt8 else t.counter i := by
  fun_induction setBitmapArea value start stop t with
  | case1 start t hlt ih =>
    rw [ih, setBitmapBody_counter]
    by_cases hi : i = start ∧ i ≤ BITMAP_SIZE
    · rw [if_pos hi, if_pos ((inArea_succ hlt i).mpr (Or.inl hi)), ite_self]
    · have hiff : InArea start stop i ↔ InArea (start + 1) stop i := by
        rw [inArea_succ hlt i]
        exact or_iff_right hi
      rw [if_neg hi]
      simp only [hiff]
  | case2 start t hge =>
    rw [if_neg fun h : InArea start stop i => hge (lt_of_le_of_lt h.1 h.2.1)]

theorem setBitmapArea_writes (value : Bool) (start stop : Int) (t : FrameTable) (i : Int) :
    i ∈ (setBitmapArea value start stop t).writes ↔ i ∈ t.writes ∨ InArea start stop i := by
  fun_induction setBitmapArea value start stop t with
  | case1 start t hlt ih => rw [ih, setBitmapBody_writes, inArea_succ hlt, or_assoc]
  | case2 start t hge =>
    exact ⟨Or.inl, fun h => h.elim id fun h => absurd (lt_of_le_of_lt h.1 h.2.1) hge⟩

/-! ## The passes -/

/-- The index is in the area of an entry. -/
def MmapEntry.Marks (e : MmapEntry) (i : Int) : Prop := InArea e.firstPage e.lastPage i

instance (e : MmapEntry) (i : Int) : Decidable (e.Marks i) := inferInstanceAs (Decidable (InArea _ _ _))

/-- Some entry of the given kind marks the index. -/
def Marked (usable : Bool) (entries : List MmapEntry) (i : Int) : Prop :=
  ∃ e ∈ entries, e.usable = usable ∧ e.Marks i

instance (usable : Bool) (entries : List MmapEntry) (i : Int) : Decidable (Marked usable entries i) :=
  inferInstanceAs (Decidable (∃ e ∈ entries, _))

theorem marked_cons (usable : Bool) (e : MmapEntry) (entries : List MmapEntry) (i : Int) :
    Marked usable (e :: entries) i ↔ (e.usable = usable ∧ e.Marks i) ∨ Marked usable entries i := by
  simp only [Marked, List.mem_cons, exists_eq_or_imp]

theorem markEntries_counter (usable value : Bool) (entries : List MmapEntry) (t : FrameTable) (i : Int) :
    (markEntries usable value entries t).counter i =
      if Marked usable entries i then value.toUInt8 else t.counter i := by
  induction entries generalizing t with
  | nil => rw [if_neg fun h : Marked usable [] i => by obtain ⟨e, he, _⟩ := h; cases he]; rfl
  | cons e entries ih =>
    rw [markEntries, List.foldl_cons, ← markEntries, ih]
    by_cases hrest : Marked usable entries i
    · rw [if_pos hrest, if_pos ((marked_cons usable e entries i).mpr (Or.inr hrest))]
    · rw [if_neg hrest]
      have hiff : Marked usable (e :: entries) i ↔ e.usable = usable ∧ e.Marks i := by
        rw [marked_cons, or_iff_left hrest]
      simp only [hiff]
      by_cases hu : e.usable = usable
      · rw [if_pos hu, setBitmapArea_counter]
        simp only [hu, true_and, MmapEntry.Marks]
      · rw [if_neg hu, if_neg fun h => hu h.1]

theorem markEntries_writes (usable value : Bool) (entries : List MmapEntry) (t : FrameTable) (i : Int) :
    i ∈ (markEntries usable value entries t).writes ↔ i ∈ t.writes ∨ Marked usable entries i := by
  induction entries generalizing t with
  | nil =>
    refine ⟨Or.inl, fun h => h.elim id fun h => ?_⟩
    obtain ⟨e, he, _⟩ := h
    cases he
  | cons e entries ih =>
    rw [markEntries, List.foldl_cons, ← markEntries, ih, marked_cons, ← or_assoc]
    apply or_congr_left
    by_cases hu : e.usable = usable
    · rw [if_pos hu, setBitmapArea_writes]
      exact or_congr_right (and_iff_right hu).symm
    · rw [if_neg hu]
      exact (or_iff_left fun h => hu h.1).symm

/-- **What `init_phys_mm` leaves free**: the frames that a usable entry marks and no other entry does. -/
theorem free_iff (tag : MmapTag) (t : FrameTable) {f : Int} (hf : 0 ≤ f) (hlt : f < BITMAP_SIZE) :
    (initPhysMm tag t).counter f = 0 ↔
      1024 ≤ f ∧ Marked true tag.entries f ∧ ¬ Marked false tag.entries f := by
  have hall : InArea 0 BITMAP_SIZE f := ⟨hf, hlt, hlt.le⟩
  rw [initPhysMm, setBitmapArea_counter, markEntries_counter, markEntries_counter, setBitmapArea_counter, if_pos hall]
  by_cases hlow : InArea 0 1024 f
  · rw [if_pos hlow]
    exact iff_of_false (by decide) fun h => not_le.mpr hlow.2.1 h.1
  · have h1024 : 1024 ≤ f := not_lt.mp fun h => hlow ⟨hf, h, hlt.le⟩
    rw [if_neg hlow]
    by_cases hres : Marked false tag.entries f
    · rw [if_pos hres]
      exact iff_of_false (by decide) fun h => h.2.2 hres
    · rw [if_neg hres]
      by_cases huse : Marked true tag.entries f
      · rw [if_pos huse]
        exact iff_of_true rfl ⟨h1024, huse, hres⟩
      · rw [if_neg huse]
        exact iff_of_false (by decide) fun h => huse h.2.1

/-- The counters are zero or one. -/
theorem counter_le_one (tag : MmapTag) {t : FrameTable} (h : ∀ i, t.counter i ≤ 1) (i : Int) :
    (initPhysMm tag t).counter i ≤ 1 := by
  rw [initPhysMm, setBitmapArea_counter, markEntries_counter, markEntries_counter, setBitmapArea_counter]
  split_ifs
  · decide
  · decide
  · decide
  · decide
  · exact h i

theorem writes_iff (tag : MmapTag) (t : FrameTable) (i : Int) :
    i ∈ (initPhysMm tag t).writes ↔ i ∈ t.writes ∨ InArea 0 BITMAP_SIZE i ∨ ∃ e ∈ tag.entries, e.Marks i := by
  have hkinds : (∃ e ∈ tag.entries, e.Marks i) ↔ Marked true tag.entries i ∨ Marked false tag.entries i := by
    constructor
    · rintro ⟨e, he, hm⟩
      cases hu : e.usable with
      | true => exact Or.inl ⟨e, he, hu, hm⟩
      | false => exact Or.inr ⟨e, he, hu, hm⟩
    · rintro (⟨e, he, _, hm⟩ | ⟨e, he, _, hm⟩) <;> exact ⟨e, he, hm⟩
  have hlow : InArea 0 1024 i → InArea 0 BITMAP_SIZE i := fun h => ⟨h.1, h.2.1.trans (by decide), h.2.2⟩
  rw [initPhysMm, setBitmapArea_writes, markEntries_writes, markEntries_writes, setBitmapArea_writes, hkinds]
  constructor
  · rintro ((((h | h) | h) | h) | h)
    · exact Or.inl h
    · exact Or.inr (Or.inl h)
    · exact Or.inr (Or.inr (Or.inl h))
    · exact Or.inr (Or.inr (Or.inr h))
    · exact Or.inr (Or.inl (hlow h))
  · rintro (h | h | h | h)
    · exact Or.inl (Or.inl (Or.inl (Or.inl h)))
    · exact Or.inl (Or.inl (Or.inl (Or.inr h)))
    · exact Or.inl (Or.inl (Or.inr h))
    · exact Or.inl (Or.inr h)

/-! ## Regions as byte ranges -/

def MmapEntry.start (e : MmapEntry) : Nat := e.addr.toNat

/-- The byte after the region, without the wrap at 64 bits. -/
def MmapEntry.stop (e : MmapEntry) : Nat := e.addr.toNat + e.len.toNat

/-- The byte `a` lies in the region. -/
def MmapEntry.Covers (e : MmapEntry) (a : Nat) : Prop := e.start ≤ a ∧ a < e.stop

instance (e : MmapEntry) (a : Nat) : Decidable (e.Covers a) := inferInstanceAs (Decidable (_ ∧ _))

/-- The frame `f` is between the page numbers of the two ends, each rounded down: the region starts in `f` or before,
and reaches the end of `f`. -/
def MmapEntry.Spans (e : MmapEntry) (f : Nat) : Prop := e.start / PAGE_SIZE ≤ f ∧ f < e.stop / PAGE_SIZE

/-- Some region of the given kind spans the frame. -/
def Spanned (usable : Bool) (entries : List MmapEntry) (f : Nat) : Prop :=
  ∃ e ∈ entries, e.usable = usable ∧ e.Spans f

/-- `a` is a byte of frame `f`. -/
def InFrame (f a : Nat) : Prop := a / PAGE_SIZE = f

instance (f a : Nat) : Decidable (InFrame f a) := inferInstanceAs (Decidable (_ = _))

theorem toInt_eq {n : Nat} (h : n < 2 ^ 31) : toInt n = n := by
  have hlt : n < 2147483648 := h
  exact Int.bmod_eq_of_le (by norm_num) (by norm_num; omega)

theorem firstPage_eq {e : MmapEntry} (h : e.start ≤ 2 ^ 32) : e.firstPage = (e.start / PAGE_SIZE : Nat) := by
  rw [MmapEntry.firstPage, UInt64.toNat_div]
  exact toInt_eq (by show e.start / 4096 < _; omega)

theorem lastPage_eq {e : MmapEntry} (h : e.stop ≤ 2 ^ 32) : e.lastPage = (e.stop / PAGE_SIZE : Nat) := by
  have hsum : (e.len + e.addr).toNat = e.stop := by
    rw [MmapEntry.stop] at h ⊢
    rw [UInt64.toNat_add]
    omega
  rw [MmapEntry.lastPage, UInt64.toNat_div, hsum]
  exact toInt_eq (by show e.stop / 4096 < _; omega)

/-- Below 4 GiB nothing is truncated. -/
theorem marks_iff {e : MmapEntry} (h : e.stop ≤ 2 ^ 32) (f : Nat) : e.Marks f ↔ e.Spans f := by
  have hstart : e.start ≤ 2 ^ 32 := le_trans (Nat.le_add_right _ _) h
  have hlast : e.stop / PAGE_SIZE ≤ 1024 * 1024 := by
    rw [PAGE_SIZE]
    omega
  rw [MmapEntry.Marks, InArea, firstPage_eq hstart, lastPage_eq h, MmapEntry.Spans, BITMAP_SIZE]
  omega

theorem marked_iff_spanned {entries : List MmapEntry} (h : ∀ e ∈ entries, e.stop ≤ 2 ^ 32) (usable : Bool) (f : Nat) :
    Marked usable entries f ↔ Spanned usable entries f := by
  constructor
  · rintro ⟨e, he, hu, hm⟩
    exact ⟨e, he, hu, (marks_iff (h e he) f).mp hm⟩
  · rintro ⟨e, he, hu, hs⟩
    exact ⟨e, he, hu, (marks_iff (h e he) f).mpr hs⟩

/-! ## Whether the map is honoured -/

/-- The map is honoured: a frame from 1024 on is free only if its bytes are usable and none is reserved, frames inside
one usable region that nothing reserves are free, and the first 1024 are used. -/
structure Honoured (entries : List MmapEntry) (counter : Int → UInt8) : Prop where
  sound : ∀ f : Nat, 1024 ≤ f → (f : Int) < BITMAP_SIZE → counter f = 0 →
    (∀ a, InFrame f a → ∃ e ∈ entries, e.usable = true ∧ e.Covers a) ∧
      ∀ a, InFrame f a → ∀ e ∈ entries, e.usable = false → ¬ e.Covers a
  complete : ∀ f : Nat, 1024 ≤ f → (f : Int) < BITMAP_SIZE →
    (∀ a, InFrame f a → ∀ e ∈ entries, e.usable = false → ¬ e.Covers a) →
    (∃ e ∈ entries, e.usable = true ∧ ∀ a, InFrame f a → e.Covers a) → counter f = 0
  low : ∀ f : Nat, f < 1024 → counter f ≠ 0

/-- No region decides, by an end that lies inside a frame, that the frame is free: the frame is spanned by a reserved
region, or else a usable region that starts inside it leaves no byte to others, and a reserved region that ends inside
it meets no usable region that spans it. -/
structure EndsSafe (entries : List MmapEntry) : Prop where
  starts : ∀ e ∈ entries, e.usable = true → ∀ f, 1024 ≤ f → e.start / PAGE_SIZE = f → e.Spans f →
    Spanned false entries f ∨ ∀ a, InFrame f a → a < e.start → ∃ e' ∈ entries, e'.usable = true ∧ e'.Covers a
  ends : ∀ r ∈ entries, r.usable = false → ∀ f, 1024 ≤ f → r.stop / PAGE_SIZE = f → r.start < r.stop →
    r.stop % PAGE_SIZE ≠ 0 → Spanned false entries f ∨ ¬ Spanned true entries f

/-- A region that spans a frame covers its last byte. -/
theorem MmapEntry.Spans.covers {e : MmapEntry} {f : Nat} (h : e.Spans f) : e.Covers (PAGE_SIZE * f + (PAGE_SIZE - 1)) := by
  obtain ⟨h1, h2⟩ := h
  simp only [MmapEntry.Covers, PAGE_SIZE] at *
  omega

theorem inFrame_last (f : Nat) : InFrame f (PAGE_SIZE * f + (PAGE_SIZE - 1)) := by
  simp only [InFrame, PAGE_SIZE]
  omega

/-- A region with a byte in a frame spans it, or ends inside it. -/
theorem spans_or_ends {e : MmapEntry} {f a : Nat} (ha : InFrame f a) (hc : e.Covers a) :
    e.Spans f ∨ e.stop / PAGE_SIZE = f ∧ e.stop % PAGE_SIZE ≠ 0 := by
  obtain ⟨h1, h2⟩ := hc
  simp only [InFrame, MmapEntry.Spans, PAGE_SIZE] at *
  omega

/-- A region that spans a frame covers the bytes from its start. -/
theorem covers_of_spans {e : MmapEntry} {f a : Nat} (h : e.Spans f) (ha : InFrame f a) (hle : e.start ≤ a) :
    e.Covers a := by
  obtain ⟨h1, h2⟩ := h
  refine ⟨hle, ?_⟩
  simp only [InFrame, PAGE_SIZE] at *
  omega

theorem low_used (tag : MmapTag) (t : FrameTable) {f : Nat} (hf : f < 1024) : (initPhysMm tag t).counter f ≠ 0 := by
  intro h
  have hlt : (f : Int) < BITMAP_SIZE := by
    rw [BITMAP_SIZE]
    omega
  have := ((free_iff tag t (Int.natCast_nonneg f) hlt).mp h).1
  omega

/-- **The boot memory map.** On a map that ends below 4 GiB `init_phys_mm` honours the map exactly when no frame is
decided by an end inside it. -/
theorem map_honoured_iff (tag : MmapTag) (t : FrameTable) (h : ∀ e ∈ tag.entries, e.stop ≤ 2 ^ 32) :
    Honoured tag.entries (initPhysMm tag t).counter ↔ EndsSafe tag.entries := by
  have hfree : ∀ f : Nat, 1024 ≤ f → (f : Int) < BITMAP_SIZE → ((initPhysMm tag t).counter f = 0 ↔
      Spanned true tag.entries f ∧ ¬ Spanned false tag.entries f) := by
    intro f hf hlt
    rw [free_iff tag t (Int.natCast_nonneg f) hlt, marked_iff_spanned h, marked_iff_spanned h]
    exact and_iff_right (by omega)
  have hsize : ∀ e ∈ tag.entries, ∀ f, e.Spans f → (f : Int) < BITMAP_SIZE := by
    intro e he f hs
    have := h e he
    have := hs.2
    simp only [BITMAP_SIZE, PAGE_SIZE] at *
    omega
  constructor
  · intro hon
    refine ⟨?_, ?_⟩
    · intro e he hu f hf hstart hs
      by_cases hres : Spanned false tag.entries f
      · exact Or.inl hres
      · right
        intro a ha _
        exact (hon.sound f hf (hsize e he f hs) ((hfree f hf (hsize e he f hs)).mpr ⟨⟨e, he, hu, hs⟩, hres⟩)).1 a ha
    · intro r hr hu f hf hstop hpos hmod
      by_cases hres : Spanned false tag.entries f
      · exact Or.inl hres
      · right
        rintro ⟨e, he, hue, hs⟩
        have hlt := hsize e he f hs
        have hfirst : InFrame f (r.stop - 1) := by
          simp only [InFrame, PAGE_SIZE] at *
          omega
        exact (hon.sound f hf hlt ((hfree f hf hlt).mpr ⟨⟨e, he, hue, hs⟩, hres⟩)).2 _ hfirst r hr hu
          ⟨by omega, by omega⟩
  · intro hsafe
    refine ⟨?_, ?_, fun f hf => low_used tag t hf⟩
    · intro f hf hlt h0
      obtain ⟨⟨e, he, hu, hs⟩, hres⟩ := (hfree f hf hlt).mp h0
      refine ⟨?_, ?_⟩
      · intro a ha
        by_cases hle : e.start ≤ a
        · exact ⟨e, he, hu, covers_of_spans hs ha hle⟩
        · have hstart : e.start / PAGE_SIZE = f := by
            have := hs.1
            simp only [InFrame, PAGE_SIZE] at *
            omega
          rcases hsafe.starts e he hu f hf hstart hs with hcontra | hcov
          · exact absurd hcontra hres
          · exact hcov a ha (not_le.mp hle)
      · intro a ha r hr hru hc
        rcases spans_or_ends ha hc with hspan | ⟨hstop, hmod⟩
        · exact hres ⟨r, hr, hru, hspan⟩
        · rcases hsafe.ends r hr hru f hf hstop (lt_of_le_of_lt hc.1 hc.2) hmod with hcontra | hcontra
          · exact hres hcontra
          · exact hcontra ⟨e, he, hu, hs⟩
    · intro f hf hlt hnone ⟨e, he, hu, hall⟩
      refine (hfree f hf hlt).mpr ⟨⟨e, he, hu, ?_⟩, ?_⟩
      · rcases spans_or_ends (inFrame_last f) (hall _ (inFrame_last f)) with hspan | ⟨hstop, _⟩
        · exact hspan
        · have := (hall _ (inFrame_last f)).2
          simp only [PAGE_SIZE] at *
          omega
      · rintro ⟨r, hr, hru, hspan⟩
        exact hnone _ (inFrame_last f) r hr hru hspan.covers

/-- A usable region from the first byte past 4 MiB on, and a reserved one that ends inside the frame it starts in. -/
def unalignedMap : MmapTag :=
  ⟨0xC0010000, [⟨0x400001, 0x2FFF, 1⟩, ⟨0x402000, 0x10, 2⟩], by decide⟩

/-- The first frame of the usable region is free, although its first byte is in no region. -/
theorem map_not_honoured :
    ¬ ∀ (tag : MmapTag) (t : FrameTable), (∀ e ∈ tag.entries, e.stop ≤ 2 ^ 32) →
      Honoured tag.entries (initPhysMm tag t).counter := by
  intro h
  have hon := h unalignedMap ⟨fun _ => 0, []⟩ (by decide)
  have h0 : (initPhysMm unalignedMap ⟨fun _ => 0, []⟩).counter (1024 : Nat) = 0 :=
    (free_iff unalignedMap _ (by decide) (by decide)).mpr (by decide)
  have hnone : ∀ e ∈ unalignedMap.entries, ¬ e.Covers 0x400000 := by decide
  obtain ⟨e, he, _, hc⟩ := (hon.sound 1024 (le_refl _) (by decide) h0).1 0x400000 (by decide)
  exact hnone e he hc

/-- A page-aligned map. -/
def alignedMap : MmapTag :=
  ⟨0xC0010000, [⟨0, 0x9F000, 1⟩, ⟨0x9F000, 0x61000, 2⟩, ⟨0x100000, 0x1F00000, 1⟩], by decide⟩

theorem map_honoured_iff_aligned :
    (∀ e ∈ alignedMap.entries, e.stop ≤ 2 ^ 32) ∧
      Honoured alignedMap.entries (initPhysMm alignedMap ⟨fun _ => 0, []⟩).counter := by
  have hstarts : ∀ e ∈ alignedMap.entries, e.start % PAGE_SIZE = 0 := by decide
  have hends : ∀ e ∈ alignedMap.entries, e.stop % PAGE_SIZE = 0 := by decide
  refine ⟨by decide, (map_honoured_iff alignedMap ⟨fun _ => 0, []⟩ (by decide)).mpr ⟨?_, ?_⟩⟩
  · intro e he _ f _ hf _
    right
    intro a ha hlt
    have := hstarts e he
    simp only [InFrame, PAGE_SIZE] at *
    omega
  · intro r hr _ f _ _ _ hmod
    exact absurd (hends r hr) hmod

/-! ## Maps past 4 GiB -/

/-- The part of a region below 4 GiB. -/
def MmapEntry.below (e : MmapEntry) : MmapEntry :=
  { e with addr := UInt64.ofNat (min e.start (2 ^ 32)),
           len := UInt64.ofNat (min e.stop (2 ^ 32) - min e.start (2 ^ 32)) }

/-- The tag with every region cut off at 4 GiB. -/
def MmapTag.below (tag : MmapTag) : MmapTag :=
  { tag with entries := tag.entries.map MmapEntry.below, fits := by simpa using tag.fits }

/-- Only the table is written, and what lies past 4 GiB has no effect on the counters. -/
structure FarHarmless (tag : MmapTag) (counter : Int → UInt8) : Prop where
  writes : ∀ i ∈ (initPhysMm tag ⟨counter, []⟩).writes, 0 ≤ i ∧ i < BITMAP_SIZE
  noEffect : ∀ f : Nat, (f : Int) < BITMAP_SIZE →
    (initPhysMm tag ⟨counter, []⟩).counter f = (initPhysMm tag.below ⟨counter, []⟩).counter f

/-- The truncated page numbers of an entry run over no index outside of the table. -/
def MmapEntry.StaysInside (e : MmapEntry) : Prop :=
  e.firstPage < e.lastPage → 0 ≤ e.firstPage ∧ (e.lastPage ≤ BITMAP_SIZE ∨ BITMAP_SIZE < e.firstPage)

/-- Truncated page numbers stay in the table, and free the same frames as the exact ones. -/
structure TruncationSafe (entries : List MmapEntry) : Prop where
  inside : ∀ e ∈ entries, e.StaysInside
  same : ∀ f : Nat, 1024 ≤ f → (f : Int) < BITMAP_SIZE →
    ((Marked true entries f ∧ ¬ Marked false entries f) ↔ (Spanned true entries f ∧ ¬ Spanned false entries f))

theorem below_start (e : MmapEntry) : e.below.start = min e.start (2 ^ 32) := by
  rw [MmapEntry.start, MmapEntry.below, UInt64.toNat_ofNat']
  omega

theorem below_stop (e : MmapEntry) : e.below.stop = min e.stop (2 ^ 32) := by
  have hle : e.start ≤ e.stop := Nat.le_add_right _ _
  have hlen : e.below.len.toNat = min e.stop (2 ^ 32) - min e.start (2 ^ 32) := by
    rw [MmapEntry.below, UInt64.toNat_ofNat']
    omega
  have hstart := below_start e
  rw [MmapEntry.start] at hstart
  rw [MmapEntry.stop, hstart, hlen]
  omega

/-- Cutting off at 4 GiB keeps the frames below it. -/
theorem below_spans (e : MmapEntry) {f : Nat} (hf : (f : Int) < BITMAP_SIZE) : e.below.Spans f ↔ e.Spans f := by
  rw [MmapEntry.Spans, MmapEntry.Spans, below_start, below_stop]
  simp only [BITMAP_SIZE, PAGE_SIZE] at *
  omega

theorem below_spanned (tag : MmapTag) (usable : Bool) {f : Nat} (hf : (f : Int) < BITMAP_SIZE) :
    Marked usable tag.below.entries f ↔ Spanned usable tag.entries f := by
  have hstop : ∀ e ∈ tag.below.entries, e.stop ≤ 2 ^ 32 := by
    intro e he
    obtain ⟨e', _, rfl⟩ := List.mem_map.mp he
    rw [below_stop]
    exact min_le_right _ _
  rw [marked_iff_spanned hstop]
  constructor
  · rintro ⟨e, he, hu, hs⟩
    obtain ⟨e', he', rfl⟩ := List.mem_map.mp he
    exact ⟨e', he', hu, (below_spans e' hf).mp hs⟩
  · rintro ⟨e, he, hu, hs⟩
    exact ⟨e.below, List.mem_map_of_mem he, hu, (below_spans e hf).mpr hs⟩

/-- The verdicts on a frame, as values of its counter. -/
theorem counter_eq_iff (tag tag' : MmapTag) (t : FrameTable) {f : Int} (hf : 0 ≤ f) (hlt : f < BITMAP_SIZE) :
    (initPhysMm tag t).counter f = (initPhysMm tag' t).counter f ↔
      ((initPhysMm tag t).counter f = 0 ↔ (initPhysMm tag' t).counter f = 0) := by
  have hval : ∀ tag, (initPhysMm tag t).counter f = 0 ∨ (initPhysMm tag t).counter f = 1 := by
    intro tag
    have hall : InArea 0 BITMAP_SIZE f := ⟨hf, hlt, hlt.le⟩
    rw [initPhysMm, setBitmapArea_counter, markEntries_counter, markEntries_counter, setBitmapArea_counter,
      if_pos hall]
    split_ifs
    · exact Or.inr rfl
    · exact Or.inr rfl
    · exact Or.inl rfl
    · exact Or.inr rfl
  rcases hval tag with h | h <;> rcases hval tag' with h' | h' <;> rw [h, h'] <;> decide

/-- An entry writes inside the table exactly when it stays inside. -/
theorem staysInside_iff (e : MmapEntry) : e.StaysInside ↔ ∀ i, e.Marks i → 0 ≤ i ∧ i < BITMAP_SIZE := by
  have hsize : 0 ≤ BITMAP_SIZE := by decide
  constructor
  · intro h i ⟨h1, h2, h3⟩
    obtain ⟨hpos, hlast⟩ := h (lt_of_le_of_lt h1 h2)
    omega
  · intro h hlt
    by_cases hfirst : e.firstPage ≤ BITMAP_SIZE
    · refine ⟨(h _ ⟨le_refl _, hlt, hfirst⟩).1, Or.inl (not_lt.mp fun hlast => ?_)⟩
      exact absurd (h BITMAP_SIZE ⟨hfirst, hlast, le_refl _⟩).2 (lt_irrefl _)
    · exact ⟨by omega, Or.inr (not_le.mp hfirst)⟩

/-- **Maps past 4 GiB** are harmless exactly when the truncation of the page numbers is. -/
theorem far_harmless_iff (tag : MmapTag) (counter : Int → UInt8) :
    FarHarmless tag counter ↔ TruncationSafe tag.entries := by
  have hwrites : (∀ i ∈ (initPhysMm tag ⟨counter, []⟩).writes, 0 ≤ i ∧ i < BITMAP_SIZE) ↔
      ∀ e ∈ tag.entries, e.StaysInside := by
    simp only [writes_iff, List.not_mem_nil, false_or, staysInside_iff]
    constructor
    · exact fun hw e he i hm => hw i (Or.inr ⟨e, he, hm⟩)
    · rintro hs i (hi | ⟨e, he, hm⟩)
      · exact ⟨hi.1, hi.2.1⟩
      · exact hs e he i hm
  have hsame : ∀ f : Nat, (f : Int) < BITMAP_SIZE →
      ((initPhysMm tag ⟨counter, []⟩).counter f = (initPhysMm tag.below ⟨counter, []⟩).counter f ↔
        (1024 ≤ f → ((Marked true tag.entries f ∧ ¬ Marked false tag.entries f) ↔
          (Spanned true tag.entries f ∧ ¬ Spanned false tag.entries f)))) := by
    intro f hf
    have hnat : (0 : Int) ≤ f := Int.natCast_nonneg f
    rw [counter_eq_iff tag tag.below _ hnat hf, free_iff tag _ hnat hf, free_iff tag.below _ hnat hf,
      below_spanned tag true hf, below_spanned tag false hf]
    by_cases hlow : 1024 ≤ f
    · have hlow' : (1024 : Int) ≤ f := by exact_mod_cast hlow
      simp only [hlow, hlow', true_and, true_implies]
    · have hlow' : ¬ (1024 : Int) ≤ f := by exact_mod_cast hlow
      simp only [hlow, hlow', false_and, false_implies]
  constructor
  · intro hh
    exact ⟨hwrites.mp hh.writes, fun f hf hlt => (hsame f hlt).mp (hh.noEffect f hlt) hf⟩
  · intro hs
    exact ⟨hwrites.mpr hs.inside, fun f hlt => (hsame f hlt).mpr fun hf => hs.same f hf hlt⟩

/-- A machine with a gigabyte of memory from 4 GiB on. -/
def farMap : MmapTag := ⟨0xC0010000, [⟨0x100000000, 0x40000000, 1⟩], by decide⟩

/-- The test in `set_bitmap_area` lets the index `BITMAP_SIZE` pass. -/
theorem far_not_harmless : ¬ ∀ (tag : MmapTag) (counter : Int → UInt8), FarHarmless tag counter := by
  intro h
  have hmem : BITMAP_SIZE ∈ (initPhysMm farMap ⟨fun _ => 0, []⟩).writes :=
    (writes_iff farMap _ _).mpr (Or.inr (Or.inr (by decide)))
  exact absurd ((h farMap fun _ => 0).writes _ hmem).2 (lt_irrefl _)

end Raampjes.Mm
