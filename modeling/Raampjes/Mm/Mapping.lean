import Raampjes.Mm.Unmap

/-!
# Mapping changes are local

What `map_page` and `free_page` change in the user half, for a page table that is absent, private or shared.

- `PagesKept`, `OthersKept`: what they leave alone;
- `Mapped`, `mapPage_local`, `mapPage_returns`: `map_page` of any frame;
- `Missing`, `Freed.missing`: `free_page`;
- `Counted.gives`: counters that cover the references hand out frames that nothing refers to.
-/

namespace Raampjes.Mm

open Progs Runs

variable {s : Bool}

/-- The running task's other user pages keep their present bits and their frames. -/
def PagesKept (m m' : Machine) (v : Nat) : Prop :=
  ∀ a, a < KERNEL_MEMORY → a / PAGE_SIZE ≠ v / PAGE_SIZE → walk m'.ram m.cr3 a = walk m.ram m.cr3 a

/-- The other tasks keep their directories, with the entries and the page tables of the user half, and the contents of
their pages. -/
structure OthersKept (m m' : Machine) : Prop where
  directory : ∀ q D, q ≠ m.current → IsDirectory m q D → IsDirectory m' q D
  space : ∀ q D, q ≠ m.current → IsDirectory m q D → SameSpace m.ram m'.ram D
  contents : ∀ q D d i, q ≠ m.current → IsDirectory m q D → HasPage m.ram D d i →
    m'.ram (pageOf m.ram D d i) = m.ram (pageOf m.ram D d i)

/-- `page_frame(v)` is `pf`, and `v` is present with the flags. -/
structure Mapped (m m' : Machine) (v pf : Nat) (flags : Word) : Prop where
  frame : Returns (pageFrame v) m' pf m'
  present : Returns (pagePresent v) m' true m'
  entry : pteAt m'.ram m'.cr3 (dirIndex v) (pageTableIndex v) = mkEntry pf (flags ||| 1#32)
  pages : PagesKept m m' v
  others : OthersKept m m'

/-- `v` is not present. -/
structure Missing (m m' : Machine) (v : Nat) : Prop where
  absent : Returns (pagePresent v) m' false m'
  pages : PagesKept m m' v
  others : OthersKept m m'

/-- `alloc_page_frame` takes frames that nothing refers to, also when the reference by the page of `v` was just dropped. -/
structure GivesUnreferenced (m : Machine) (v : Nat) : Prop where
  idle : ∀ f, m.bitmap f = 0 → ¬ Reaches m f
  released : HasPage m.ram m.cr3 (dirIndex v) (pageTableIndex v) → Unreferenced m v

section Kept

variable {m m' : Machine} {L L' : Uses s} {T : Finset Nat} {d i v pf q D : Nat} {flags w : Word} {t : TaskStruct}

theorem Local.othersKept (hl : Local m L m' L') (h : Holds m L)
    (hdir : ∀ q D, q ≠ m.current → IsDirectory m q D → IsDirectory m' q D) : OthersKept m m' := by
  have hforeign : ∀ {q D}, IsDirectory m q D → ∃ t, m.tasks q = some t ∧ D = L.dir q := by
    intro q D hD
    obtain ⟨hq, hD⟩ := (isDirectory_iff h).mp hD
    obtain ⟨t, ht⟩ := Option.isSome_iff_exists.mp hq
    exact ⟨t, ht, hD⟩
  refine ⟨hdir, ?_, ?_⟩
  · intro q D hq hD d hd
    obtain ⟨t, ht, rfl⟩ := hforeign hD
    refine ⟨congrFun (hl.other _ ⟨q, t, ht, hq, Or.inl rfl⟩) d, fun hp i _ => ?_⟩
    exact congrFun (hl.other _ ⟨q, t, ht, hq, Or.inr (Or.inl ⟨d, hd, hp, rfl⟩)⟩) i
  · intro q D d i hq hD hp
    obtain ⟨t, ht, rfl⟩ := hforeign hD
    exact hl.other _ ⟨q, t, ht, hq, Or.inr (Or.inr ⟨d, i, hp, rfl⟩)⟩

theorem Local.isDirectory (hl : Local m L m' L') (h : Holds m L) (h' : Holds m' L') (hD : IsDirectory m q D) :
    IsDirectory m' q D := by
  rw [isDirectory_iff h] at hD
  rw [isDirectory_iff h', hl.same.isSome, hl.dir]
  exact hD

/-- A table of the kernel half is one of the two tables that all tasks share. -/
theorem DirOk.kernel_table (hD : DirOk m.ram L D) (h : Holds m L) (hd : 768 ≤ d) (hlt : d < 1023)
    (hp : present (m.ram D d) = true) :
    L.role (frameOf (m.ram D d)) = .low ∨ L.role (frameOf (m.ram D d)) = .kernelTable := by
  by_cases h768 : d = 768
  · rw [h768, hD.low_frame]
    exact Or.inl h.low_role
  by_cases h769 : d = 769
  · subst h769
    right
    cases hK : L.ktab with
    | none =>
      rw [hD.no_ktab hK] at hp
      cases hp
    | some K =>
      rw [(hD.ktab K hK).2.1]
      exact h.ktab_role K hK
  · rw [hD.rest d (by omega) hlt] at hp
    cases hp

/-- A store in a private page table of the running task. -/
theorem othersKept_setWord (h : Holds m L) (hd : d < 768) (hp : present (m.ram m.cr3 d) = true)
    (hs : shared (m.ram m.cr3 d) = false) :
    Local m L (m.setWord (frameOf (m.ram m.cr3 d)) i w) L ∧
      ∀ q D, IsDirectory m q D → IsDirectory (m.setWord (frameOf (m.ram m.cr3 d)) i w) q D := by
  have hrole := h.curSpace.table d hd hp
  have hne : ∀ {g}, (∃ r, L.role g = r ∧ r ≠ .table (entryOf s d)) →
      ∀ j, (m.setWord (frameOf (m.ram m.cr3 d)) i w).ram g j = m.ram g j := by
    rintro g ⟨r, hg, hr⟩ j
    exact setWord_of_ne _ _ _ _ (Or.inl (ne_of_role hg hrole hr))
  refine ⟨⟨SameTasks.of_tasks rfl rfl rfl, rfl, rfl, rfl, rfl, fun d' _ _ => hne ⟨_, h.current_role, by simp⟩ d', ?_⟩, ?_⟩
  · exact fun f hf => funext fun j => setWord_of_ne _ _ _ _ (Or.inl (hf.ne_private h hd hp hs))
  · rintro q D ⟨t, ht, hw⟩
    refine ⟨t, ht, ?_⟩
    rw [setWord_cr3, walk_congr (hne ⟨_, h.current_role, by simp⟩ _)]
    · exact hw
    -- the page directories are mapped by the tables of the kernel
    · obtain ⟨hge, hlt⟩ := (h.task q t ht).dir_kernel
      have h768 : 768 ≤ dirIndex t.pageDirectory := by
        rw [KERNEL_MEMORY] at hge
        rw [dirIndex]
        omega
      have hlast : dirIndex t.pageDirectory < 1023 := by
        rw [dirIndex]
        omega
      have hpres := (walk_eq_some.mp hw).1
      rcases h.curDir.kernel_table h h768 hlast hpres with hr | hr
      · exact hne ⟨_, hr, by simp⟩ _
      · exact hne ⟨_, hr, by simp⟩ _

/-- A page that keeps its entry keeps its frame. -/
theorem walk_of_page {ram ram' : Nat → Nat → Word} {a : Nat} (ha : a < KERNEL_MEMORY)
    (hiff : HasPage ram' D (dirIndex a) (pageTableIndex a) ↔ HasPage ram D (dirIndex a) (pageTableIndex a))
    (heq : HasPage ram D (dirIndex a) (pageTableIndex a) →
      pteAt ram' D (dirIndex a) (pageTableIndex a) = pteAt ram D (dirIndex a) (pageTableIndex a)) :
    walk ram' D a = walk ram D a := by
  have hpage : ∀ r : Nat → Nat → Word, HasPage r D (dirIndex a) (pageTableIndex a) ↔
      (present (r D (dirIndex a)) && present (r (frameOf (r D (dirIndex a))) (pageTableIndex a))) = true := by
    intro r
    rw [Bool.and_eq_true]
    exact ⟨fun h => h.2.2, fun h => ⟨dirIndex_user ha, pageTableIndex_lt a, h⟩⟩
  rw [hpage, hpage] at hiff
  rw [walk, walk, Bool.eq_iff_iff.mpr hiff]
  by_cases hp : (present (ram D (dirIndex a)) && present (ram (frameOf (ram D (dirIndex a))) (pageTableIndex a))) = true
  · have hentry := heq ((hpage ram).mpr hp)
    rw [pteAt, pteAt] at hentry
    rw [if_pos hp, if_pos hp, hentry]
  · rw [if_neg hp, if_neg hp]

theorem walk_of_samePages {ram ram' : Nat → Nat → Word} (hs : SamePages ram ram' D) {a : Nat} (ha : a < KERNEL_MEMORY) :
    walk ram' D a = walk ram D a := walk_of_page ha (hs _ _).1 (hs _ _).2

/-- The kernel reaches its tables after a store in a user page table. -/
theorem mapped_env (h : Holds m L) (hv : v < KERNEL_MEMORY) (hp : present (m.pde v) = true) :
    Env (m.mapped v pf flags) := by
  have hrole := h.curSpace.table _ (dirIndex_user hv) hp
  have hcr3 : frameOf (m.pde v) ≠ m.cr3 := ne_of_role hrole h.current_role (by simp)
  refine h.env.setWord (Or.inl hcr3) (Or.inl hcr3) (Or.inl ?_)
  rcases h.dir_path with ⟨_, hf⟩ | ⟨_, hK⟩
  · rw [hf]
    exact ne_of_role hrole h.low_role (by simp)
  · exact ne_of_role hrole (h.ktab_role _ hK) (by simp)

/-- **`free_page` is local.** -/
theorem Freed.missing (hF : Freed m L v m' L') (h : Sound m L T) (hv : v < KERNEL_MEMORY) : Missing m m' v := by
  obtain ⟨h', hl⟩ := hF.sound h hv
  have hU := hF.unmapped h hv
  have hwalk : ∀ a, a < KERNEL_MEMORY → walk m'.ram m.cr3 a = _ := fun a ha => hU.walk_eq ha
  refine ⟨?_, ?_, hl.othersKept h.holds fun q D _ hD => hl.isDirectory h.holds h'.holds hD⟩
  · rw [pagePresent_ok h'.holds.env (user_lt hv)]
    refine ⟨?_, rfl⟩
    have hnone := hwalk v hv
    rw [if_pos rfl, ← hl.same.cr3, walk_pte] at hnone
    by_contra hp
    rw [eq_comm, Bool.not_eq_false] at hp
    rw [hp, if_pos rfl] at hnone
    cases hnone
  · intro a ha hne
    rw [hwalk a ha, if_neg hne]

end Kept

/-! ## `map_page` -/

section Map

variable {alloc : Kernel Nat} {m m' : Machine} {L : Layout} {T : Finset Nat} {n v pf : Nat} {flags : Word}

/-- **`map_page` is local**, for every frame. -/
theorem mapPage_local (h : Sound m L T) (hT : T.card ≤ 8) (hv : v < KERNEL_MEMORY) (hfl : Plain flags) (hpf : pf < 2 ^ 20)
    (hA : Hands alloc m) {r : Nat}
    (hr : Returns (mapPageWith alloc (copyPageTable alloc (n + 1)) pf v flags) m r m') : Mapped m m' v pf flags := by
  have hd := dirIndex_user hv
  obtain ⟨_, m1, L1, ho, rfl⟩ := mapPage_cases h hT hv hfl hA hr
  obtain ⟨h1, l1⟩ := ho.sound h hd hfl
  obtain ⟨hp, hs⟩ := ho.private_ h hd hfl
  have hsame := ho.pages h hd hfl
  have hcr3 := l1.same.cr3
  rw [← hcr3] at hp hs
  have henv := @mapped_env _ m1 L1 v pf flags h1.holds hv hp
  have hmap := @mapped_pages v pf flags m1 L1 h1.holds hv hp
  obtain ⟨hpage, hentry⟩ := (hmap (dirIndex v) (pageTableIndex v)).1 ⟨rfl, rfl⟩
  obtain ⟨l2, hdir2⟩ := @othersKept_setWord _ m1 L1 (dirIndex v) (pageTableIndex v) (mkEntry pf (flags ||| 1#32)) h1.holds hd hp hs
  have hpde : present ((m1.mapped v pf flags).pde v) = true := hpage.2.2.1
  have hpte : (m1.mapped v pf flags).pte v = mkEntry pf (flags ||| 1#32) := hentry
  refine ⟨?_, ?_, hentry, ?_, (l1.trans l2).othersKept h.holds ?_⟩
  · rw [pageFrame_ok henv (user_lt hv), if_pos hpde, hpte, frameOf_mkEntry hpf (hfl.or plain_one).lt]
    exact ⟨rfl, rfl⟩
  · rw [pagePresent_ok henv (user_lt hv), hpde, hpte]
    exact ⟨by simp, rfl⟩
  · intro a ha hne
    have hat : ¬ (dirIndex a = dirIndex v ∧ pageTableIndex a = pageTableIndex v) := fun he => hne (same_page_iff.mpr he)
    rw [← walk_of_samePages hsame ha, ← hcr3]
    obtain ⟨hiff, heq⟩ := (hmap (dirIndex a) (pageTableIndex a)).2 hat
    have hrole := h1.holds.curSpace.table _ hd hp
    have hdir : (m1.mapped v pf flags).ram m1.cr3 (dirIndex a) = m1.ram m1.cr3 (dirIndex a) :=
      setWord_of_ne _ _ _ _ (Or.inl (ne_of_role h1.holds.current_role hrole (by simp)))
    cases hpa : present (m1.ram m1.cr3 (dirIndex a)) with
    | false => simp only [walk, hdir, hpa, Bool.false_and, Bool.false_eq_true, if_false]
    | true =>
      refine walk_congr hdir (setWord_of_ne _ _ _ _ ?_)
      by_contra hc
      rw [not_or, not_not, not_not] at hc
      exact hat ⟨h1.holds.curSpace.table_inj (dirIndex_user ha) hd hpa hp hc.1, hc.2⟩
  · exact fun q D _ hD => hdir2 q D (l1.isDirectory h.holds h1.holds hD)

/-- **`map_page` returns** as long as a frame is free. -/
theorem mapPage_returns (h : Sound m L T) (hT : T.card ≤ 8) (hv : v < KERNEL_MEMORY) (hfl : Plain flags)
    (hidle : ∀ f, m.bitmap f = 0 → ¬ Reaches m f) (hroom : ∃ f, f < frames ∧ m.bitmap f = 0) :
    ∃ r m', Returns (mapPageWith allocPageFrame (copyPageTable allocPageFrame (n + 1)) pf v flags) m r m' := by
  have hA : Hands allocPageFrame m := hands_of_counted fun f hf hz => hidle f hz hf
  have hlt := user_lt hv
  have hd := dirIndex_user hv
  cases hp : present (m.pde v) with
  | false =>
    obtain ⟨t, ht⟩ := allocPageFrame_returns hroom
    exact ⟨v, _, (mapPage_absent h hv hp hfl hA).mpr ⟨rfl, t, ht, rfl⟩⟩
  | true =>
    cases hs : shared (m.pde v) with
    | false => exact ⟨v, _, (mapPage_ok h.holds.env hlt hp hs).mpr ⟨rfl, rfl⟩⟩
    | true =>
      have hap : ∀ f, f < 2 ^ 20 → m.bitmap f = 0 → Apart m L (window (dirIndex v)) f := fun f _ hz =>
        (Spot.window h.holds hd hp).apart h.holds (hidle f hz)
      obtain ⟨hcases, hret⟩ := @copyPageTable_frame _ m L T (dirIndex v) n h (h.slack hT) hd hp hs hap
      obtain ⟨m1, h1⟩ := hret hroom
      obtain ⟨K, k, new, hK, hk, hnlt, hzero, rfl⟩ := hcases () m1 h1
      have henv := @unshared_env _ m L K k (dirIndex v) new 6#32 h.holds hK hk hd (hap new hnlt hzero)
      have hpage : present ((m.unshared K k (window (dirIndex v)) new 6#32).pde v) = true := by
        have hcr3 : (m.unshared K k (window (dirIndex v)) new 6#32).cr3 = m.cr3 := by
          simp only [Machine.unshared, setWord_cr3, drop_cr3, setFrame_cr3, setCount_cr3]
        rw [Machine.pde, hcr3, unshared_pde h.holds hK hd hp (hap new hnlt hzero)]
        simp
      have hentry := (@getPageEntry_ok m m h.holds.env v hlt _).mpr ⟨rfl, rfl⟩
      rw [if_pos hp] at hentry
      have hdir : Returns (dirEntry (dirIndex v)) m (m.pde v) m :=
        (dirEntry_ok h.holds.env (dirIndex_lt hlt)).mpr ⟨rfl, rfl⟩
      refine ⟨v, (m.unshared K k (window (dirIndex v)) new 6#32).mapped v pf flags, ?_⟩
      rw [mapPageWith, Returns.bind_iff hentry, onlyIf_neg (decide_eq_false (entryAddr_ne v)),
        Returns.bind_iff (pure_ok.mpr ⟨rfl, rfl⟩), Returns.bind_iff hdir, onlyIf_pos hs,
        getPageTable_eq (dirIndex_lt hlt).le, Returns.bind_iff h1, mapPage_tail henv hlt hpage]
      exact ⟨rfl, rfl⟩

end Map

/-! ## Counted references -/

/-- Counters that cover the references are enough. -/
theorem Counted.gives {m : Machine} {L : Uses s} {v : Nat} (hc : Counted m) (h : Holds m L) (hv : v < KERNEL_MEMORY) :
    GivesUnreferenced m v := by
  refine ⟨fun f hzero hr => hc.ne_zero h hr hzero, fun hpage f hzero hother => ?_⟩
  have hw : walk m.ram m.cr3 v = some (frameOf (m.pte v)) := by rw [walk_pte, (hasPage_iff hv).mp hpage, if_pos rfl]
  have hne := hc.ne_zero h hother.reaches
  by_cases hf : f = frameOf (m.pte v)
  · -- the reference that was dropped was the last one
    subst hf
    have hdrop := @drop_toNat m (frameOf (m.pte v)) (frameOf (m.pte v)) hne
    rw [hzero, if_pos rfl] at hdrop
    refine hc.elsewhere h hv hw ?_ hother
    rw [← UInt8.toNat_inj, ← hdrop]
    rfl
  · rw [Machine.drop] at hzero
    by_cases hold : m.bitmap (frameOf (m.pte v)) = 0
    · rw [if_neg (not_not.mpr hold)] at hzero
      exact hne hzero
    · rw [if_pos hold, setCount_of_ne _ _ _ hf] at hzero
      exact hne hzero

end Raampjes.Mm
