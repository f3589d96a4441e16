import Raampjes.Mm.UserHalf

/-!
# The first free page

`get_free_address` searches the directory from the entry of the target, and each page table from its start, but for the
first one. In a directory entry without a page table it makes one, and answers with the first page under it.

- `searchFrom`: the search in memory, and `scanDirectory_ok`: what the two loops do with it;
- `searchFrom_first`: it ends at the first free page, or at a directory entry that is not present;
- `FirstFree`: what a caller relies on; `getFreeAddress_iff`: when it holds.
-/

namespace Raampjes.Mm

open Progs

/-! ## The search -/

/-- Page `i` under directory entry `d` is free. -/
def FreeAt (m : Machine) (d i : Nat) : Prop :=
  present (m.ram m.cr3 d) = true → present (m.ram (frameOf (m.ram m.cr3 d)) i) = false

theorem freeAt_iff {m : Machine} {d i : Nat} (hi : i < 1024) :
    FreeAt m d i ↔ walk m.ram m.cr3 (pageAddr d i) = none := by
  simp only [FreeAt, walk, dirIndex_page hi, pageTableIndex_page hi]
  cases present (m.ram m.cr3 d) with
  | false => simp
  | true => cases present (m.ram (frameOf (m.ram m.cr3 d)) i) <;> simp

theorem scan_first {g : Nat → Word} {n k : Nat} (h : scan g n = some k) :
    ∀ i, 1024 - n ≤ i → i < k → present (g i) = true := by
  induction n with
  | zero => cases h
  | succ n ih =>
    rw [scan] at h
    intro i hle hlt
    cases hp : present (g (1023 - n)) with
    | false =>
      rw [hp, if_neg Bool.false_ne_true, Option.some.injEq] at h
      omega
    | true =>
      rw [hp, if_pos rfl] at h
      by_cases hi : i = 1023 - n
      · rw [hi]
        exact hp
      · exact ih h i (by omega) hlt

/-- The two loops of `get_free_address` in memory: a directory entry, and the page under it when there is a table. -/
def searchFrom (m : Machine) (offset : Nat) : Nat → Nat → Option (Nat × Option Nat)
  | 0, _ => none
  | n + 1, left =>
    let d := (1022 - n + offset) % 1024
    if present (m.ram m.cr3 d) then
      match scan (m.ram (frameOf (m.ram m.cr3 d))) left with
      | some i => some (d, some i)
      | none => searchFrom m offset n 1024
    else some (d, none)

/-- What `get_free_address` does with the end of the search. -/
def Lands (alloc : Kernel Nat) (m : Machine) (v : Nat) (m' : Machine) : Option (Nat × Option Nat) → Prop
  | none => False
  | some (d, some i) => v = pageAddr d i ∧ m' = m
  | some (d, none) => v = d * 2 ^ 22 ∧ ∃ pt, Returns (addPageTable alloc (d * 2 ^ 22) 3#32) m pt m'

section Search

variable {alloc : Kernel Nat} {m m' : Machine} {offset n left d v : Nat}

theorem scanDirectory_ok (h : Env m) (hleft : left ≤ 1024) :
    Returns (scanDirectory alloc offset n left) m v m' ↔ Lands alloc m v m' (searchFrom m offset n left) := by
  induction n generalizing left with
  | zero => exact iff_of_false (stop_ok _) not_false
  | succ n ih =>
    have hlt : (1022 - n + offset) % 1024 < 1024 := Nat.mod_lt _ (by decide)
    rw [searchFrom]
    cases hp : present (m.ram m.cr3 ((1022 - n + offset) % 1024)) with
    | false =>
      rw [scanDirectory_absent h rfl hlt hp, if_neg Bool.false_ne_true]
      exact Iff.rfl
    | true =>
      rw [scanDirectory_present h rfl hlt hp hleft, if_pos rfl]
      cases scan (m.ram (frameOf (m.ram m.cr3 ((1022 - n + offset) % 1024)))) left with
      | some i => exact Iff.rfl
      | none => exact ih (le_refl _)

/-- The search ends at directory entry `d'` and, with a table there, at its page `r`. -/
structure Ends (m : Machine) (d start d' : Nat) (r : Option Nat) : Prop where
  le : d ≤ d'
  full : ∀ e i, d ≤ e → e < d' → (e = d → start ≤ i) → i < 1024 → ¬ FreeAt m e i
  table : (present (m.ram m.cr3 d') = true) ↔ r ≠ none
  page : ∀ k, r = some k → k < 1024 ∧ FreeAt m d' k ∧ (d' = d → start ≤ k) ∧
    ∀ i, i < k → (d' = d → start ≤ i) → ¬ FreeAt m d' i

/-- **The search ends** no later than at a page that is free, before it comes to the last directory entry. -/
theorem searchFrom_first (hoff : 1023 - n + offset = d) (hn : n ≤ 1023) (hleft : left ≤ 1024) {e i : Nat} (hde : d ≤ e)
    (he : e < 1023) (hi : i < 1024) (hfirst : e = d → 1024 - left ≤ i) (hfree : FreeAt m e i) :
    ∃ d' r, searchFrom m offset n left = some (d', r) ∧ d' ≤ e ∧ Ends m d (1024 - left) d' r := by
  induction n generalizing d left with
  | zero => omega
  | succ n ih =>
    have hd : (1022 - n + offset) % 1024 = d := by omega
    rw [searchFrom, hd]
    cases hp : present (m.ram m.cr3 d) with
    | false =>
      refine ⟨d, none, if_neg Bool.false_ne_true, hde, le_refl d, ?_, ?_, by simp⟩
      · intro e' i' h1 h2
        omega
      · rw [hp]
        simp
    | true =>
      rw [if_pos rfl]
      cases hs : scan (m.ram (frameOf (m.ram m.cr3 d))) left with
      | some k =>
        obtain ⟨hk1, hk2, hk3⟩ := scan_some hleft hs
        refine ⟨d, some k, rfl, hde, le_refl d, ?_, ?_, ?_⟩
        · intro e' i' h1 h2
          omega
        · simp [hp]
        · intro k' hk'
          obtain rfl : k = k' := Option.some.inj hk'
          refine ⟨hk2, fun _ => hk3, fun _ => hk1, fun j hj hstart hf => ?_⟩
          have := scan_first hs j (hstart rfl) hj
          rw [hf hp] at this
          cases this
      | none =>
        have hfull : ∀ j, 1024 - left ≤ j → j < 1024 → ¬ FreeAt m d j := by
          intro j h1 h2 hf
          have := (scan_eq_none hleft).mp hs j h1 h2
          rw [hf hp] at this
          cases this
        have hne : d ≠ e := by
          rintro rfl
          exact hfull i (hfirst rfl) hi hfree
        obtain ⟨d', r, hsr, hle, hE⟩ := ih (d := d + 1) (by omega) (by omega) (le_refl 1024) (by omega)
          (fun _ => by omega)
        have hd' := hE.le
        refine ⟨d', r, hsr, hle, by omega, ?_, hE.table, ?_⟩
        · intro e' i' h1 h2 h3 h4
          by_cases hed : e' = d
          · subst hed
            exact hfull i' (h3 rfl) h4
          · exact hE.full e' i' (by omega) h2 (fun _ => by omega) h4
        · intro k hk
          obtain ⟨h1, h2, _, h4⟩ := hE.page k hk
          exact ⟨h1, h2, fun _ => by omega, fun j hj _ => h4 j hj fun _ => by omega⟩

end Search

/-! ## What a caller relies on -/

/-- The address `v` is the first free page from the page of the target, with its page table there afterwards, and the
entries of all mapped pages are kept. -/
structure FirstFree (m : Machine) (target v : Nat) (m' : Machine) : Prop where
  aligned : v % PAGE_SIZE = 0
  free : walk m.ram m.cr3 v = none
  absent : walk m'.ram m'.cr3 v = none
  table : present (m'.pde v) = true
  after : target / PAGE_SIZE * PAGE_SIZE ≤ v
  first : ∀ a, target / PAGE_SIZE * PAGE_SIZE ≤ a → a < v → walk m.ram m.cr3 a ≠ none
  kept : ∀ a, a < 2 ^ 32 → walk m.ram m.cr3 a ≠ none → m'.pde a = m.pde a ∧ m'.pte a = m.pte a
  below : v < 0xFFC00000

/-- Every frame that the address space in use reaches is counted. -/
def ReachCounted (m : Machine) : Prop := ∀ a f, a < 2 ^ 32 → walk m.ram m.cr3 a = some f → m.bitmap f ≠ 0

/-- A page below the last 4 MiB is free, at the page of the target or after it. -/
def HasFree (m : Machine) (target : Nat) : Prop :=
  ∃ a, target / PAGE_SIZE * PAGE_SIZE ≤ a ∧ a < 0xFFC00000 ∧ walk m.ram m.cr3 a = none

theorem pageAddr_index (a : Nat) : pageAddr (dirIndex a) (pageTableIndex a) = a / PAGE_SIZE * PAGE_SIZE := by
  rw [pageAddr, dirIndex, pageTableIndex, PAGE_SIZE]
  omega

theorem walk_base (ram : Nat → Nat → Word) (D a : Nat) : walk ram D (a / PAGE_SIZE * PAGE_SIZE) = walk ram D a := by
  have h1 : dirIndex (a / PAGE_SIZE * PAGE_SIZE) = dirIndex a := by
    rw [dirIndex, dirIndex, PAGE_SIZE]
    omega
  have h2 : pageTableIndex (a / PAGE_SIZE * PAGE_SIZE) = pageTableIndex a := by
    rw [pageTableIndex, pageTableIndex, PAGE_SIZE]
    omega
  rw [walk, walk, h1, h2]

theorem freeAt_index {m : Machine} {a : Nat} :
    FreeAt m (dirIndex a) (pageTableIndex a) ↔ walk m.ram m.cr3 a = none := by
  rw [freeAt_iff (pageTableIndex_lt a), pageAddr_index, walk_base]

/-- `alloc_page_frame` returns when a counter is zero. -/
theorem allocPageFrame_returns {m : Machine} (h : ∃ f, f < frames ∧ m.bitmap f = 0) :
    ∃ f, Returns allocPageFrame m f (m.setCount f 1) := by
  obtain ⟨g, hlt, hzero⟩ := h
  have hsome : (searchBitmap m).isSome = true := by
    rw [searchBitmap, List.find?_isSome]
    exact ⟨g, List.mem_range.mpr hlt, by simp [hzero]⟩
  obtain ⟨f, hf⟩ := Option.isSome_iff_exists.mp hsome
  refine ⟨f, ?_⟩
  rw [allocPageFrame, Returns.bind_iff ((gets_ok _).mpr ⟨rfl, rfl⟩), hf, takeFrame,
    Returns.bind_iff ((update_ok _ ()).mpr rfl), pure_ok]
  exact ⟨rfl, rfl⟩

section FirstFree

variable {m m' : Machine} {target v d d' : Nat} {r : Option Nat}

theorem ReachCounted.table (hc : ReachCounted m) (h : Env m) {a : Nat} (ha : a < 2 ^ 32)
    (hp : present (m.pde a) = true) : m.bitmap (frameOf (m.pde a)) ≠ 0 := by
  have hd := dirIndex_lt ha
  refine hc _ _ (window_lt hd) ?_
  rw [h.walk_window' hd]
  exact if_pos hp

theorem ReachCounted.cr3 (hc : ReachCounted m) (h : Env m) : m.bitmap m.cr3 ≠ 0 := by
  have := hc _ _ (window_lt (by decide)) (h.walk_window' (d := 1023) (by decide) ▸ if_pos h.self)
  rwa [h.self_frame] at this

/-- The frame that `alloc_page_frame` takes is none of the tables. -/
theorem ReachCounted.taken (hc : ReachCounted m) (h : Env m) {f : Nat} {m1 : Machine}
    (hr : Returns allocPageFrame m f m1) : f < 2 ^ 20 ∧ f ≠ m.cr3 ∧ m1 = m.setCount f 1 := by
  obtain ⟨hlt, hzero, hm⟩ := allocPageFrame_ok hr
  exact ⟨frames_eq ▸ hlt, fun he => hc.cr3 h (he ▸ hzero), hm⟩

/-- The page that a search ends at, the first one under a directory entry without a table. -/
def endPage (d : Nat) : Option Nat → Nat
  | some i => pageAddr d i
  | none => d * 2 ^ 22

/-- Every page from the target to the end of the search is in use. -/
theorem Ends.first (hE : Ends m (dirIndex target) (pageTableIndex target) d' r) {a : Nat}
    (hle : target / PAGE_SIZE * PAGE_SIZE ≤ a) (hlt : a < endPage d' r) : walk m.ram m.cr3 a ≠ none := by
  intro hfree
  rw [← freeAt_index] at hfree
  have hi := pageTableIndex_lt a
  have hd : dirIndex target ≤ dirIndex a := by
    rw [PAGE_SIZE] at hle
    rw [dirIndex, dirIndex]
    omega
  have hstart : dirIndex a = dirIndex target → pageTableIndex target ≤ pageTableIndex a := by
    rw [PAGE_SIZE] at hle
    rw [dirIndex, dirIndex, pageTableIndex, pageTableIndex]
    omega
  by_cases hbefore : dirIndex a < d'
  · exact hE.full _ _ hd hbefore hstart hi hfree
  · cases r with
    | none =>
      rw [endPage] at hlt
      rw [dirIndex] at hbefore
      omega
    | some k =>
      obtain ⟨hk, _, _, hprev⟩ := hE.page k rfl
      rw [endPage, pageAddr] at hlt
      have hsame : dirIndex a = d' ∧ pageTableIndex a < k := by
        rw [dirIndex] at hbefore ⊢
        rw [pageTableIndex]
        omega
      rw [hsame.1] at hfree hstart
      exact hprev _ hsame.2 hstart hfree

/-- The end of the search is at the page of the target or after it, but for a target inside a region without a table. -/
theorem Ends.after_iff (hE : Ends m (dirIndex target) (pageTableIndex target) d' r) :
    target / PAGE_SIZE * PAGE_SIZE ≤ endPage d' r ↔ present (m.pde target) = true ∨ pageTableIndex target = 0 := by
  have hle := hE.le
  have htable := hE.table
  rw [← pageAddr_index, pageAddr, Machine.pde]
  cases r with
  | some k =>
    obtain ⟨hk, _, hstart, _⟩ := hE.page k rfl
    have hp : present (m.ram m.cr3 d') = true := htable.mpr (by simp)
    have hi := pageTableIndex_lt target
    rw [endPage, pageAddr]
    by_cases hd : d' = dirIndex target
    · rw [← hd, hp]
      have := hstart hd
      simp only [true_or, iff_true]
      omega
    · have hpd : present (m.ram m.cr3 (dirIndex target)) = true := by
        by_contra hno
        exact hE.full (dirIndex target) 1023 (le_refl _) (by omega) (fun _ => by omega) (by decide)
          fun hp' => absurd hp' hno
      rw [hpd]
      simp only [true_or, iff_true]
      omega
  | none =>
    have hi := pageTableIndex_lt target
    rw [endPage]
    by_cases hd : d' = dirIndex target
    · have hno : present (m.ram m.cr3 (dirIndex target)) = false := by
        rw [← hd]
        by_contra hp
        exact htable.mp (Bool.of_not_eq_false hp) rfl
      rw [← hd] at hno ⊢
      rw [hno]
      simp
    · have hpd : present (m.ram m.cr3 (dirIndex target)) = true := by
        by_contra hno
        exact hE.full (dirIndex target) 1023 (le_refl _) (by omega) (fun _ => by omega) (by decide)
          fun hp' => absurd hp' hno
      rw [hpd]
      simp only [true_or, iff_true]
      omega

/-- A page under a directory entry that the search ends at is free. -/
theorem Ends.free (hE : Ends m d (pageTableIndex target) d' r) : walk m.ram m.cr3 (endPage d' r) = none := by
  cases r with
  | some k =>
    obtain ⟨hk, hfree, _⟩ := hE.page k rfl
    exact (freeAt_iff hk).mp hfree
  | none =>
    have hpage : endPage d' none = pageAddr d' 0 := by rw [endPage, pageAddr, Nat.zero_mul, Nat.add_zero]
    rw [hpage]
    exact (freeAt_iff (by decide)).mp fun hp => absurd rfl (hE.table.mp hp)

/-- A new page table keeps the entries of what is mapped, and its pages are free. -/
theorem ReachCounted.addTable (hc : ReachCounted m) (h : Env m) {f : Nat} (hd : d < 1023)
    (hp : present (m.ram m.cr3 d) = false) (hlt : f < 2 ^ 20) (hzero : m.bitmap f = 0) :
    (∀ a, a < 2 ^ 32 → walk m.ram m.cr3 a ≠ none →
      (m.addTable d f 3#32).pde a = m.pde a ∧ (m.addTable d f 3#32).pte a = m.pte a) ∧
    present ((m.addTable d f 3#32).ram m.cr3 d) = true ∧
      walk (m.addTable d f 3#32).ram m.cr3 (d * 2 ^ 22) = none := by
  have hne : f ≠ m.cr3 := fun he => hc.cr3 h (he ▸ hzero)
  have hself : (m.addTable d f 3#32).ram m.cr3 d = mkEntry f 3#32 := by
    rw [addTable_eq hne, setWord_self]
    rfl
  have hdir : ∀ j, j ≠ d → (m.addTable d f 3#32).ram m.cr3 j = m.ram m.cr3 j := by
    intro j hj
    rw [addTable_eq hne, setWord_of_ne _ _ _ _ (Or.inr hj), setCount_ram, setFrame_of_ne _ _ _ hne.symm]
  refine ⟨?_, by rw [hself]; simp, ?_⟩
  · intro a ha hw
    obtain ⟨g, hg⟩ := Option.ne_none_iff_exists'.mp hw
    obtain ⟨hpa, hpi, _⟩ := walk_eq_some.mp hg
    have had : dirIndex a ≠ d := by
      rintro rfl
      rw [hp] at hpa
      cases hpa
    have hpde : (m.addTable d f 3#32).pde a = m.pde a := hdir _ had
    refine ⟨hpde, ?_⟩
    have hT : frameOf (m.pde a) ≠ f := fun he => hc.table h ha hpa (he ▸ hzero)
    rw [Machine.pte, hpde, Machine.pte]
    by_cases hTc : frameOf (m.pde a) = m.cr3
    · rw [hTc]
      refine hdir _ ?_
      rintro he
      rw [← Machine.pde, hTc, he, hp] at hpi
      cases hpi
    · rw [addTable_eq hne, setWord_of_ne _ _ _ _ (Or.inl hTc), setCount_ram, setFrame_of_ne _ _ _ hT]
  · have hdi : dirIndex (d * 2 ^ 22) = d := Nat.mul_div_cancel d (by decide)
    have hclear : (m.addTable d f 3#32).ram f (pageTableIndex (d * 2 ^ 22)) = 0#32 := by
      rw [addTable_eq hne, setWord_of_ne _ _ _ _ (Or.inl hne), setCount_ram, setFrame_self,
        filled_lt (pageTableIndex_lt _)]
    have hf : frameOf (mkEntry f 3#32) = f := frameOf_mkEntry hlt (by decide)
    simp only [walk, hdi, hself, hf, hclear]
    rw [show present 0#32 = false from rfl, Bool.and_false]
    rfl

/-- What `get_free_address` returns is what the search ends at. -/
theorem getFreeAddress_cases (h : Env m) (hfree : HasFree m target) :
    ∃ d r, d < 1023 ∧ Ends m (dirIndex target) (pageTableIndex target) d r ∧
      ∀ (alloc : Kernel Nat) v m', Returns (getFreeAddress alloc target) m v m' ↔ Lands alloc m v m' (some (d, r)) := by
  obtain ⟨a, hle, hlt, hw⟩ := hfree
  have hi := pageTableIndex_lt target
  have hleft : 1024 - (1024 - pageTableIndex target) = pageTableIndex target := by omega
  obtain ⟨d, r, hs, hda, hE⟩ := @searchFrom_first m (dirIndex target) 1023 (1024 - pageTableIndex target)
    (dirIndex target) (by omega) (le_refl _) (by omega) (dirIndex a) (pageTableIndex a)
    (by rw [PAGE_SIZE] at hle; rw [dirIndex, dirIndex]; omega) (by rw [dirIndex]; omega) (pageTableIndex_lt a)
    (by rw [PAGE_SIZE] at hle; simp only [dirIndex, pageTableIndex]; omega) (freeAt_index.mpr hw)
  rw [hleft] at hE
  have hd : d < 1023 := by
    rw [dirIndex] at hda
    omega
  refine ⟨d, r, hd, hE, fun alloc v m' => ?_⟩
  rw [getFreeAddress, scanDirectory_ok h (by omega), hs]

theorem Ends.firstFree_iff (hE : Ends m (dirIndex target) (pageTableIndex target) d r) (hd : d < 1023) (h : Env m)
    (hc : ReachCounted m) (hr : Lands allocPageFrame m v m' (some (d, r))) :
    FirstFree m target v m' ↔ present (m.pde target) = true ∨ pageTableIndex target = 0 := by
  have hv : v = endPage d r := by
    cases r with
    | some i => exact hr.1
    | none => exact hr.1
  rw [← hE.after_iff, ← hv]
  refine ⟨FirstFree.after, fun hafter => ?_⟩
  have hfree : walk m.ram m.cr3 v = none := hv ▸ hE.free
  have hfirst : ∀ a, target / PAGE_SIZE * PAGE_SIZE ≤ a → a < v → walk m.ram m.cr3 a ≠ none :=
    fun a hle hlt => hE.first hle (hv ▸ hlt)
  cases r with
  | some k =>
    obtain ⟨rfl, rfl⟩ := hr
    obtain ⟨hk, _⟩ := hE.page k rfl
    refine ⟨?_, hfree, hfree, ?_, hafter, hfirst, fun _ _ _ => ⟨rfl, rfl⟩, ?_⟩
    · rw [pageAddr, PAGE_SIZE]
      omega
    · rw [Machine.pde, dirIndex_page hk]
      exact hE.table.mpr (by simp)
    · rw [pageAddr]
      omega
  | none =>
    obtain ⟨rfl, pt, hpt⟩ := hr
    have hp : present (m.ram m.cr3 d) = false := by
      by_contra hp
      exact absurd rfl (hE.table.mp (Bool.of_not_eq_false hp))
    have hdi : dirIndex (d * 2 ^ 22) = d := Nat.mul_div_cancel d (by decide)
    have hpde : present (m.pde (d * 2 ^ 22)) = false := by rw [Machine.pde, hdi, hp]
    obtain ⟨f, hf, _, rfl⟩ := (addPageTable_ok h (by omega) hpde (by decide) fun f m1 => hc.taken h).mp hpt
    obtain ⟨hlt, hzero, _⟩ := allocPageFrame_ok hf
    rw [hdi]
    obtain ⟨hkept, hpres, habs⟩ := hc.addTable h hd hp (frames_eq ▸ hlt) hzero
    refine ⟨?_, hfree, habs, ?_, hafter, hfirst, hkept, ?_⟩
    · rw [PAGE_SIZE]
      omega
    · rw [Machine.pde, hdi]
      exact hpres
    · omega

/-- It returns when a frame is free. -/
theorem Lands.exists (hE : Ends m (dirIndex target) (pageTableIndex target) d r) (hd : d < 1023) (h : Env m)
    (hc : ReachCounted m) (hroom : ∃ f, f < frames ∧ m.bitmap f = 0) :
    ∃ v m', Lands allocPageFrame m v m' (some (d, r)) := by
  cases r with
  | some k => exact ⟨_, m, rfl, rfl⟩
  | none =>
    have hdi : dirIndex (d * 2 ^ 22) = d := Nat.mul_div_cancel d (by decide)
    have hpde : present (m.pde (d * 2 ^ 22)) = false := by
      rw [Machine.pde, hdi]
      by_contra hp
      exact absurd rfl (hE.table.mp (Bool.of_not_eq_false hp))
    obtain ⟨f, hf⟩ := allocPageFrame_returns hroom
    exact ⟨_, _, rfl, _, (addPageTable_ok h (by omega) hpde (by decide) fun f m1 => hc.taken h).mpr ⟨f, hf, rfl, rfl⟩⟩

end FirstFree

/-- **The first free page.** With a free page at the target or after it, `get_free_address` answers as its callers expect
just if the target has a page table or is the first page of its 4 MiB; and it does answer while a frame is free. -/
theorem getFreeAddress_iff {m : Machine} {target : Nat} (h : Env m) (hc : ReachCounted m)
    (hfree : HasFree m target) :
    (∀ v m', Returns (getFreeAddress allocPageFrame target) m v m' →
      (FirstFree m target v m' ↔ present (m.pde target) = true ∨ pageTableIndex target = 0)) ∧
    ((∃ f, f < frames ∧ m.bitmap f = 0) → ∃ v m', Returns (getFreeAddress allocPageFrame target) m v m') := by
  obtain ⟨d, r, hd, hE, hret⟩ := getFreeAddress_cases h hfree
  constructor
  · intro v m' hr
    exact hE.firstFree_iff hd h hc ((hret _ v m').mp hr)
  · intro hroom
    obtain ⟨v, m', hl⟩ := Lands.exists hE hd h hc hroom
    exact ⟨v, m', (hret _ v m').mpr hl⟩

/-! ## Two directories -/

/-- Memory with a page directory in frame 1, which names itself and a page table in frame 2; every page under the table is
frame 3. -/
def packed : Machine where
  ram f i :=
    if f = 1 then (if i = 1023 then mkEntry 1 3#32 else if i = 1 then mkEntry 2 3#32 else 0#32)
    else if f = 2 then mkEntry 3 3#32
    else 0#32
  bitmap f := if f ≤ 3 then 1 else 0
  cr3 := 1
  current := 0
  tasks p := if p = 0 then some { noTask with state := .running, pageDirectory := 0xFFFFF000 } else none

theorem packed_dir {d : Nat} (hd : d ≠ 1023) (h1 : d ≠ 1) : packed.ram 1 d = 0#32 := by
  show (if d = 1023 then mkEntry 1 3#32 else if d = 1 then mkEntry 2 3#32 else 0#32) = 0#32
  rw [if_neg hd, if_neg h1]

theorem packed_walk {a f : Nat} (hw : walk packed.ram 1 a = some f) : f ≤ 3 := by
  obtain ⟨hp, hq, hf⟩ := walk_eq_some.mp hw
  by_cases hself : dirIndex a = 1023
  · -- the window
    have hT : frameOf (packed.ram 1 1023) = 1 := by decide
    rw [hself, hT] at hq hf
    by_cases h1023 : pageTableIndex a = 1023
    · rw [← hf, h1023]
      decide
    · by_cases h1 : pageTableIndex a = 1
      · rw [← hf, h1]
        decide
      · rw [packed_dir h1023 h1] at hq
        exact absurd hq (by decide)
  · by_cases hone : dirIndex a = 1
    · have hT : frameOf (packed.ram 1 1) = 2 := by decide
      have hword : packed.ram 2 (pageTableIndex a) = mkEntry 3 3#32 := rfl
      rw [hone, hT, hword] at hf
      rw [← hf]
      decide
    · rw [packed_dir hself hone] at hp
      exact absurd hp (by decide)

theorem packed_env : Env packed := ⟨by decide, by decide, by decide, by decide⟩

theorem packed_counted : ReachCounted packed := by
  intro a f _ hw
  have hle : f ≤ 3 := packed_walk hw
  rw [show packed.bitmap f = if f ≤ 3 then 1 else 0 from rfl, if_pos hle]
  decide

/-- The search for the second page under the full table ends in the next entry, which gets a page table. -/
theorem getFreeAddress_iff_packed :
    ∃ m', Returns (getFreeAddress allocPageFrame 0x401000) packed 0x800000 m' ∧ FirstFree packed 0x401000 0x800000 m' := by
  have hfree : walk packed.ram packed.cr3 0x800000 = none := by decide
  obtain ⟨hiff, hret⟩ := @getFreeAddress_iff packed 0x401000 packed_env packed_counted ⟨0x800000, by decide, by decide, hfree⟩
  obtain ⟨v, m', hr⟩ := hret ⟨4, by decide, by decide⟩
  have hfirst := (hiff v m' hr).mpr (Or.inl (by decide))
  obtain rfl : v = 0x800000 := by
    have hafter := hfirst.after
    rw [PAGE_SIZE] at hafter
    refine Nat.le_antisymm ?_ ?_
    · by_contra hlt
      exact hfirst.first 0x800000 (by decide) (by omega) hfree
    · -- the pages before it are there
      by_contra hlt
      have hd : dirIndex v = 1 := by
        rw [dirIndex]
        omega
      have hword : packed.ram 2 (pageTableIndex v) = mkEntry 3 3#32 := rfl
      have hnone := hfirst.free
      have hp : present (packed.ram 1 1) = true := by decide
      have hT : frameOf (packed.ram 1 1) = 2 := by decide
      rw [walk, show packed.cr3 = 1 from rfl, hd, hp, hT, hword] at hnone
      exact absurd hnone (by decide)
  exact ⟨m', hr, hfirst⟩

/-- Memory with a page directory in frame 1, which has an entry for itself only. -/
def lone : Machine where
  ram f i := if f = 1 ∧ i = 1023 then mkEntry 1 3#32 else 0#32
  bitmap f := if f = 1 then 1 else 0
  cr3 := 1
  current := 0
  tasks p := if p = 0 then some { noTask with state := .running, pageDirectory := 0xFFFFF000 } else none

theorem lone_dir (d : Nat) (hd : d ≠ 1023) : present (lone.ram 1 d) = false := by
  show present (if 1 = 1 ∧ d = 1023 then mkEntry 1 3#32 else 0#32) = false
  rw [if_neg fun hc => hd hc.2]
  rfl

theorem lone_walk {a f : Nat} (hw : walk lone.ram 1 a = some f) : f = 1 := by
  obtain ⟨h1, h2, h3⟩ := walk_eq_some.mp hw
  have hd : dirIndex a = 1023 := by
    by_contra hne
    rw [lone_dir _ hne] at h1
    cases h1
  have hT : frameOf (lone.ram 1 1023) = 1 := by decide
  rw [hd, hT] at h2 h3
  have hi : pageTableIndex a = 1023 := by
    by_contra hne
    rw [lone_dir _ hne] at h2
    cases h2
  rw [hi, hT] at h3
  exact h3.symm

theorem lone_env : Env lone := ⟨by decide, by decide, by decide, by decide⟩

theorem lone_counted : ReachCounted lone := by
  intro a f _ hw
  rw [lone_walk hw]
  decide

theorem lone_free {a : Nat} (ha : a < 0xFFC00000) : walk lone.ram lone.cr3 a = none := by
  have hd : present (lone.ram 1 (dirIndex a)) = false := lone_dir _ (by rw [dirIndex]; omega)
  show walk lone.ram 1 a = none
  simp only [walk, hd, Bool.false_and, Bool.false_eq_true, if_false]

/-- The second page of a 4 MiB region without a page table: the answer is the first page. -/
theorem getFreeAddress_before : Env lone ∧ ReachCounted lone ∧ HasFree lone 0x401000 ∧
    ∃ m', Returns (getFreeAddress allocPageFrame 0x401000) lone 0x400000 m' ∧ ¬ FirstFree lone 0x401000 0x400000 m' := by
  have hp : present (lone.pde 0x401000) = false := lone_dir _ (by decide)
  obtain ⟨f, hf⟩ := @allocPageFrame_returns lone ⟨0, by decide, by decide⟩
  have hpt := (@addPageTable_ok allocPageFrame lone _ 0x400000 (window 1) 3#32 lone_env (by decide)
    (lone_dir _ (by decide)) (by decide) fun f m1 => lone_counted.taken lone_env).mpr ⟨f, hf, rfl, rfl⟩
  refine ⟨lone_env, lone_counted, ⟨0x401000, by decide, by decide, lone_free (by decide)⟩, lone.addTable 1 f 3#32, ?_,
    fun hF => absurd hF.after (by decide)⟩
  rw [getFreeAddress, show dirIndex 0x401000 = 1 from rfl, scanDirectory_absent (d := 1) lone_env rfl (by decide) hp]
  exact ⟨rfl, _, hpt⟩

end Raampjes.Mm
