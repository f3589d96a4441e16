import Raampjes.Mm.Faults

/-!
# The pages of the running task

What the changes of `UserHalf` and `Faults` mean for the single pages of the running task: which pages there are, the
entry of each, and the contents of their frames.

- `Opened.pages`, `Opened.contents`: making a table private changes neither;
- `Filled.pages`, `Filled.contents`: one page is new;
- `Private`: no page of the running task is another task's.
-/

namespace Raampjes.Mm

open Progs Sched

/-- Entry `i` of the page table under directory entry `d`. -/
def pteAt (ram : Nat → Nat → Word) (D d i : Nat) : Word := ram (frameOf (ram D d)) i

theorem pageOf_eq (ram : Nat → Nat → Word) (D d i : Nat) : pageOf ram D d i = frameOf (pteAt ram D d i) := rfl

/-- The same pages, with the same entries. -/
def SamePages (ram ram' : Nat → Nat → Word) (D : Nat) : Prop :=
  ∀ d i, (HasPage ram' D d i ↔ HasPage ram D d i) ∧ (HasPage ram D d i → pteAt ram' D d i = pteAt ram D d i)

theorem SamePages.refl (ram : Nat → Nat → Word) (D : Nat) : SamePages ram ram D := fun _ _ => ⟨Iff.rfl, fun _ => rfl⟩

theorem SamePages.trans {ram ram' ram'' : Nat → Nat → Word} {D : Nat} (h : SamePages ram ram' D)
    (h' : SamePages ram' ram'' D) : SamePages ram ram'' D := fun d i =>
  ⟨(h' d i).1.trans (h d i).1, fun hp => ((h' d i).2 ((h d i).1.mpr hp)).trans ((h d i).2 hp)⟩

/-- Memory that agrees on the directory and on the tables has the same pages. -/
theorem samePages_of_eq {ram ram' : Nat → Nat → Word} {D : Nat} (hD : ∀ d, d < 768 → ram' D d = ram D d)
    (hT : ∀ d, d < 768 → present (ram D d) = true → ∀ i, i < 1024 →
      ram' (frameOf (ram D d)) i = ram (frameOf (ram D d)) i) : SamePages ram ram' D := by
  intro d i
  have hsame : SameSpace ram ram' D := fun d hd => ⟨hD d hd, hT d hd⟩
  refine ⟨hsame.hasPage, ?_⟩
  rintro ⟨hd, hi, hp, _⟩
  rw [pteAt, pteAt, hD d hd, hT d hd hp i hi]

section Opened

variable {alloc : Kernel Nat} {m m' m1 : Machine} {L L' L1 : Layout} {T : Finset Nat} {K k d new a : Nat} {flags : Word}

theorem Holds.reaches_table {s : Bool} {L : Uses s} (h : Holds m L) (hd : d < 768) (hp : present (m.ram m.cr3 d) = true) :
    Reaches m (frameOf (m.ram m.cr3 d)) := by
  rw [h.cr3] at hp ⊢
  exact h.reaches_window h.curTask (by omega) hp

/-- A copied page table has the same entries. -/
theorem unsharedTable_pages {e : Word} (h : Sound m L T) (hK : L.ktab = some K) (hd : d < 768)
    (hp : present (m.ram m.cr3 d) = true) (hlt : new < 2 ^ 20) (hfresh : ¬ Reaches m new) :
    SamePages m.ram (m.unshared K k (window d) new e).ram m.cr3 := by
  have hx := Spot.window h.holds hd hp
  have hpde : frameOf (m.pde (window d)) = m.cr3 := by
    rw [Machine.pde, dirIndex_window' (by omega)]
    exact h.holds.env.self_frame
  have hidx : pageTableIndex (window d) = d := @pageTableIndex_window d 0 (by omega) (by decide)
  have hpte : m.pte (window d) = m.ram m.cr3 d := h.holds.env.pte_window (by omega)
  have hdir : ∀ d', d' ≠ d → (m.unshared K k (window d) new e).ram m.cr3 d' = m.ram m.cr3 d' := by
    intro d' hne
    refine unshared_ram_of_ne m (ne_of_role h.holds.current_role (h.holds.ktab_role K hK) (by simp))
      (fun he => hfresh (he ▸ h.holds.reaches_cr3)) (Or.inr ?_)
    rw [hidx]
    exact hne
  have hnew := @unshared_pde _ m L K k d new e h.holds hK hd hp ((Spot.window h.holds hd hp).apart h.holds hfresh)
  have hf : frameOf (mkEntry new 7#32) = new := frameOf_mkEntry hlt (by decide)
  have hword : ∀ i, i < 1024 → (m.unshared K k (window d) new e).ram new i = m.ram (frameOf (m.ram m.cr3 d)) i := by
    intro i hi
    have hnK : new ≠ K := fun he => hfresh (he ▸ h.holds.reaches_ktab hK)
    rw [Machine.unshared, setWord_of_ne _ _ _ _ (Or.inl hnK), drop_ram, setFrame_self, filled_lt hi, hpte]
  have htab : ∀ d' i, d' ≠ d → d' < 768 → present (m.ram m.cr3 d') = true →
      (m.unshared K k (window d) new e).ram (frameOf (m.ram m.cr3 d')) i = m.ram (frameOf (m.ram m.cr3 d')) i := by
    intro d' i _ hd' hp'
    have hrole := h.holds.curSpace.table d' hd' hp'
    refine unshared_ram_of_ne m (ne_of_role hrole (h.holds.ktab_role K hK) (by simp))
      (fun he => hfresh (he ▸ h.holds.reaches_table hd' hp')) (Or.inl ?_)
    rw [hpde]
    exact ne_of_role hrole h.holds.current_role (by simp)
  intro d' i
  by_cases hne : d' = d
  · subst hne
    rw [HasPage, HasPage, pteAt, pteAt, hnew, hf]
    constructor
    · constructor
      · rintro ⟨_, hi, _, hq⟩
        rw [hword i hi] at hq
        exact ⟨hd, hi, hp, hq⟩
      · rintro ⟨_, hi, _, hq⟩
        exact ⟨hd, hi, by simp, by rw [hword i hi]; exact hq⟩
    · rintro ⟨_, hi, _⟩
      exact hword i hi
  · rw [HasPage, HasPage, pteAt, pteAt, hdir d' hne]
    constructor
    · constructor
      · rintro ⟨hd', hi, hp', hq⟩
        rw [htab d' i hne hd' hp'] at hq
        exact ⟨hd', hi, hp', hq⟩
      · rintro ⟨hd', hi, hp', hq⟩
        exact ⟨hd', hi, hp', by rw [htab d' i hne hd' hp']; exact hq⟩
    · rintro ⟨hd', _, hp', _⟩
      exact htab d' i hne hd' hp'

/-- **Making a table private** changes no page. -/
theorem Opened.pages (ho : Opened alloc m L d flags m1 L1) (h : Sound m L T) (hd : d < 768) (hfl : Plain flags) :
    SamePages m.ram m1.ram m.cr3 := by
  cases ho with
  | own hp hs => exact SamePages.refl _ _
  | copied K k new m1 hp hs hK hk hnew hlt hzero hfresh => exact unsharedTable_pages h hK hd hp hlt hfresh
  | made t hp ht hlt hfresh =>
    have hne : t ≠ m.cr3 := fun he => hfresh (he ▸ h.holds.reaches_cr3)
    have hdir : ∀ d', d' ≠ d → (m.addTable d t flags).ram m.cr3 d' = m.ram m.cr3 d' := by
      intro d' hd'
      rw [addTable_eq hne, setWord_of_ne _ _ _ _ (Or.inr hd'), setCount_ram, setFrame_of_ne _ _ _ hne.symm]
    have hself : (m.addTable d t flags).ram m.cr3 d = mkEntry t (flags ||| 3#32) := by
      rw [addTable_eq hne, setWord_self]
    have hf : frameOf (mkEntry t (flags ||| 3#32)) = t := frameOf_mkEntry hlt (hfl.or plain_three).lt
    have htab : ∀ d' i, d' < 768 → present (m.ram m.cr3 d') = true →
        (m.addTable d t flags).ram (frameOf (m.ram m.cr3 d')) i = m.ram (frameOf (m.ram m.cr3 d')) i := by
      intro d' i hd' hp'
      have hT : frameOf (m.ram m.cr3 d') ≠ t := fun he => hfresh (he ▸ h.holds.reaches_table hd' hp')
      have hTc : frameOf (m.ram m.cr3 d') ≠ m.cr3 :=
        ne_of_role (h.holds.curSpace.table d' hd' hp') h.holds.current_role (by simp)
      rw [addTable_eq hne, setWord_of_ne _ _ _ _ (Or.inl hTc), setCount_ram, setFrame_of_ne _ _ _ hT]
    intro d' i
    by_cases hat : d' = d
    · subst hat
      have hno : ¬ HasPage m.ram m.cr3 d' i := by
        rintro ⟨_, _, hp', _⟩
        rw [hp] at hp'
        cases hp'
      refine ⟨⟨?_, fun hc => absurd hc hno⟩, fun hc => absurd hc hno⟩
      rintro ⟨_, hi, _, hq⟩
      rw [hself, hf, Machine.addTable, setFrame_self, filled_lt hi] at hq
      exact absurd hq (by decide)
    · rw [HasPage, HasPage, pteAt, pteAt, hdir d' hat]
      constructor
      · constructor
        · rintro ⟨hd', hi, hp', hq⟩
          rw [htab d' i hd' hp'] at hq
          exact ⟨hd', hi, hp', hq⟩
        · rintro ⟨hd', hi, hp', hq⟩
          exact ⟨hd', hi, hp', by rw [htab d' i hd' hp']; exact hq⟩
      · rintro ⟨hd', _, hp', _⟩
        exact htab d' i hd' hp'

/-- What a frame in use as a page contains does not change. -/
theorem unshared_contents {e : Word} (h : Sound m L T) (hK : L.ktab = some K) (hfresh : ¬ Reaches m new) {g : Nat}
    (hg : Reaches m g) (hrole : L.role g = .data) (hT : L.role (frameOf (m.pde a)) ≠ .data) :
    (m.unshared K k a new e).ram g = m.ram g :=
  funext fun _ => unshared_ram_of_ne m (ne_of_role hrole (h.holds.ktab_role K hK) (by simp))
    (fun he => hfresh (he ▸ hg)) (Or.inl fun he => hT (he ▸ hrole))

theorem Opened.contents (ho : Opened alloc m L d flags m1 L1) (h : Sound m L T) (hd : d < 768) {g : Nat}
    (hg : Reaches m g) (hrole : L.role g = .data) : m1.ram g = m.ram g := by
  have hgc : g ≠ m.cr3 := ne_of_role hrole h.holds.current_role (by simp)
  cases ho with
  | own hp hs => rfl
  | copied K k new m1 hp hs hK hk hnew hlt hzero hfresh =>
    refine unshared_contents h hK hfresh hg hrole ?_
    rw [Machine.pde, dirIndex_window' (by omega), h.holds.env.self_frame, h.holds.current_role]
    simp
  | made t hp ht hlt hfresh =>
    have hne : t ≠ m.cr3 := fun he => hfresh (he ▸ h.holds.reaches_cr3)
    rw [addTable_eq hne]
    funext j
    have hgt : g ≠ t := fun he => hfresh (he ▸ hg)
    rw [setWord_of_ne _ _ _ _ (Or.inl hgc), setCount_ram, setFrame_of_ne _ _ _ hgt]

/-- The frames in use stay in use. -/
theorem Opened.keeps_role (ho : Opened alloc m L d flags m1 L1) {g : Nat} (hg : Reaches m g) :
    L1.role g = L.role g := by
  cases ho with
  | own hp hs => rfl
  | copied K k new m1 hp hs hK hk hnew hlt hzero hfresh => exact use_role_of_ne L _ fun he => hfresh (he ▸ hg)
  | made t hp ht hlt hfresh => exact use_role_of_ne L _ fun he => hfresh (he ▸ hg)

end Opened

section Filled

variable {alloc : Kernel Nat} {m m' : Machine} {L L' : Layout} {T : Finset Nat} {a f : Nat} {flags : Word}

/-- The pages after `map_page` wrote its entry. -/
theorem mapped_pages {m1 : Machine} {L1 : Layout} (h1 : Holds m1 L1) (ha : a < KERNEL_MEMORY)
    (hp : present (m1.ram m1.cr3 (dirIndex a)) = true) (d i : Nat) :
    (d = dirIndex a ∧ i = pageTableIndex a → HasPage (m1.mapped a f flags).ram m1.cr3 d i ∧
      pteAt (m1.mapped a f flags).ram m1.cr3 d i = mkEntry f (flags ||| 1#32)) ∧
    (¬ (d = dirIndex a ∧ i = pageTableIndex a) →
      (HasPage (m1.mapped a f flags).ram m1.cr3 d i ↔ HasPage m1.ram m1.cr3 d i) ∧
      (HasPage m1.ram m1.cr3 d i → pteAt (m1.mapped a f flags).ram m1.cr3 d i = pteAt m1.ram m1.cr3 d i)) := by
  have hd := dirIndex_user ha
  have hrole := h1.curSpace.table _ hd hp
  have hdir : ∀ d', (m1.mapped a f flags).ram m1.cr3 d' = m1.ram m1.cr3 d' := fun d' =>
    setWord_of_ne _ _ _ _ (Or.inl (ne_of_role h1.current_role hrole (by simp)))
  constructor
  · rintro ⟨rfl, rfl⟩
    have hself : (m1.mapped a f flags).ram (frameOf (m1.ram m1.cr3 (dirIndex a))) (pageTableIndex a) =
        mkEntry f (flags ||| 1#32) := setWord_self ..
    rw [HasPage, pteAt, hdir, hself]
    exact ⟨⟨hd, pageTableIndex_lt a, hp, by simp⟩, rfl⟩
  · intro hne
    have hword : d < 768 → present (m1.ram m1.cr3 d) = true →
        (m1.mapped a f flags).ram (frameOf (m1.ram m1.cr3 d)) i = m1.ram (frameOf (m1.ram m1.cr3 d)) i := by
      intro hd' hp'
      apply setWord_of_ne
      by_contra hc
      rw [not_or, not_not, not_not] at hc
      exact hne ⟨h1.curSpace.table_inj hd' hd hp' hp hc.1, hc.2⟩
    rw [HasPage, HasPage, pteAt, pteAt, hdir]
    constructor
    · constructor
      · rintro ⟨hd', hi, hp', hq⟩
        rw [hword hd' hp'] at hq
        exact ⟨hd', hi, hp', hq⟩
      · rintro ⟨hd', hi, hp', hq⟩
        exact ⟨hd', hi, hp', by rw [hword hd' hp']; exact hq⟩
    · rintro ⟨hd', _, hp', _⟩
      exact hword hd' hp'

/-- The page at `a` has the entry `w`, and the other pages are the same. -/
def OnePage (ram ram' : Nat → Nat → Word) (D a : Nat) (w : Word) : Prop :=
  ∀ d i, (d = dirIndex a ∧ i = pageTableIndex a → HasPage ram' D d i ∧ pteAt ram' D d i = w) ∧
    (¬ (d = dirIndex a ∧ i = pageTableIndex a) →
      (HasPage ram' D d i ↔ HasPage ram D d i) ∧ (HasPage ram D d i → pteAt ram' D d i = pteAt ram D d i))

/-- **One page is new**: it has the flags it was mapped with and a frame that nothing reached. -/
theorem Filled.pages (hF : Filled alloc m L a flags m' L') (h : Sound m L T) (ha : a < KERNEL_MEMORY) :
    ∃ f, f < 2 ^ 20 ∧ m.bitmap f = 0 ∧ ¬ Reaches m f ∧ OnePage m.ram m'.ram m.cr3 a (mkEntry f (flags ||| 1#32)) := by
  obtain ⟨f, fl, m1, L1, _, hlt, hzero, hfresh, hfl1, ho, rfl, rfl⟩ := hF
  obtain ⟨h1, l1⟩ := h.taken hfresh
  have hd := dirIndex_user ha
  obtain ⟨h2, l2⟩ := ho.sound h1 hd hfl1
  have hp := (ho.private_ h1 hd hfl1).1
  have hsame := ho.pages h1 hd hfl1
  rw [← l2.same.cr3] at hp
  refine ⟨f, hlt, hzero, hfresh, fun d i => ?_⟩
  have hmap := @mapped_pages a f flags m1 L1 h2.holds ha hp d i
  rw [l2.same.cr3] at hmap
  refine ⟨hmap.1, fun hne => ?_⟩
  obtain ⟨hiff, heq⟩ := hmap.2 hne
  exact ⟨hiff.trans (hsame d i).1, fun hpg => (heq ((hsame d i).1.mpr hpg)).trans ((hsame d i).2 hpg)⟩

theorem Filled.contents (hF : Filled alloc m L a flags m' L') (h : Sound m L T) (ha : a < KERNEL_MEMORY) {g : Nat}
    (hg : Reaches m g) (hrole : L.role g = .data) : m'.ram g = m.ram g := by
  obtain ⟨f, fl, m1, L1, _, hlt, _, hfresh, hfl1, ho, rfl, rfl⟩ := hF
  obtain ⟨h1, l1⟩ := h.taken hfresh
  have hd := dirIndex_user ha
  obtain ⟨h2, l2⟩ := ho.sound h1 hd hfl1
  have hp := (ho.private_ h1 hd hfl1).1
  rw [← l2.same.cr3] at hp
  have hgf : g ≠ f := fun he => hfresh (he ▸ hg)
  have hrole1 : (L.use f .unused).role g = .data := (use_role_of_ne L _ hgf).trans hrole
  have hg1 : Reaches (m.setCount f 1) g := hg.grow (fun _ _ _ => rfl) rfl rfl
  have hrole2 : L1.role g = .data := (ho.keeps_role hg1).trans hrole1
  have hT := h2.holds.curSpace.table _ hd hp
  have hmid : m1.ram g = m.ram g := ho.contents h1 hd hg1 hrole1
  rw [← hmid]
  exact funext fun j => setWord_of_ne _ _ _ _ (Or.inl (ne_of_role hrole2 hT (by simp)))

end Filled

end Raampjes.Mm
