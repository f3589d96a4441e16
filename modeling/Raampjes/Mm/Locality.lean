import Raampjes.Mm.WriteFault

/-!
# Mapping changes in every reachable state

- `mapping_local`: `map_page` and `free_page` change one page of the running task and nothing of the others, in every state
  that a run reaches; `mapping_local_fork`: under a page table that parent and child share, and under one that only the
  child has.
-/

namespace Raampjes.Mm

open Progs Refs Runs

section Reachable

variable {alloc : Kernel Nat} {img : Image} {tag : MmapTag} {table : FrameTable} {ram : Nat → Nat → Word}
  {xs : List (Step Machine Act Empty)} {m : Machine} {v : Nat}

/-- **Mapping changes are local.** -/
theorem mapping_local (hA : ∀ m, Hands alloc m) (hrun : Run (step alloc) (boot img tag table ram) xs m)
    (hC : ∀ x ∈ xs, x.act.Proper x.before) (hv : v < KERNEL_MEMORY) (hg : GivesUnreferenced m v) :
    (∀ pf flags, pf < frames → flags ∈ [0#32, PG_USER, PG_RW, PG_USER ||| PG_RW] →
      (∀ r m', Returns (mapPage allocPageFrame pf v flags) m r m' → Mapped m m' v pf flags) ∧
      ((∃ f, f < frames ∧ m.bitmap f = 0) → ∃ r m', Returns (mapPage allocPageFrame pf v flags) m r m')) ∧
    (∀ u m', Returns (freePage allocPageFrame v) m u m' → Missing m m' v) ∧
    ((∃ f, f < frames ∧ m.bitmap f = 0) → ∃ m', Returns (freePage allocPageFrame v) m () m') := by
  obtain ⟨⟨L, h⟩, _⟩ := run_sound hA hrun hC
  have hT : (∅ : Finset Nat).card ≤ 8 := by simp
  have hAm : Hands allocPageFrame m := hands_of_counted fun f hf hz => hg.idle f hz hf
  obtain ⟨hcases, hret⟩ := @freePage_frame _ m L ∅ 7 v h (h.slack hT) hv hg.released
  refine ⟨?_, ?_, fun hroom => hret fun _ _ => hroom⟩
  · intro pf flags hpf hfl
    have hplain : Plain flags := by
      simp only [List.mem_cons, List.not_mem_nil, or_false] at hfl
      rcases hfl with rfl | rfl | rfl | rfl
      · exact plain_zero
      · exact plain_user
      · exact ⟨by decide, by decide, by decide⟩
      · exact plain_userRw
    rw [frames_eq] at hpf
    exact ⟨fun r m' hr => mapPage_local h hT hv hplain hpf hAm hr, mapPage_returns h hT hv hplain hg.idle⟩
  · intro u m' hr
    obtain ⟨L', hF⟩ := hcases u m' hr
    exact hF.missing h hv

end Reachable

/-- A child maps a page and frees one under the page table of its stack, which it shares if `b`. -/
def LocalUnder (b : Bool) : Prop :=
  ∃ xs s m1 m2, Run (step allocUnreferenced) smallBoot xs s ∧ (s.tasks 0).isSome ∧ s.current = 1 ∧
    HasPage s.ram s.cr3 767 1023 ∧ shared (s.pde 0xBFFFE000) = b ∧
    Returns (mapPage allocPageFrame 3000 0xBFFFE000 PG_USER) s 0xBFFFE000 m1 ∧ Mapped s m1 0xBFFFE000 3000 PG_USER ∧
    Returns (freePage allocPageFrame 0xBFFFF000) s () m2 ∧ Missing s m2 0xBFFFF000

/-- After the first fork, which shares the page table of the stack, and in a child that started a program of its own. The
stack page is there both times. -/
theorem mapping_local_fork : LocalUnder true ∧ LocalUnder false := by
  have hboth : ∀ {xs s} {L : Layout}, Run (step allocUnreferenced) smallBoot xs s → (∀ x ∈ xs, x.act.Proper x.before) →
      Sound s L ∅ → Counted s → 0 < (freeFrames s).card → ∃ m1 m2,
        Returns (mapPage allocPageFrame 3000 0xBFFFE000 PG_USER) s 0xBFFFE000 m1 ∧ Mapped s m1 0xBFFFE000 3000 PG_USER ∧
        Returns (freePage allocPageFrame 0xBFFFF000) s () m2 ∧ Missing s m2 0xBFFFF000 := by
    intro xs s L hrun hproper h hc hroom
    have hv : 0xBFFFE000 < KERNEL_MEMORY := by decide
    have hw : 0xBFFFF000 < KERNEL_MEMORY := by decide
    obtain ⟨hmap, _⟩ := mapping_local hands_unreferenced hrun hproper hv (hc.gives h.holds hv)
    obtain ⟨_, hmissing, hfree⟩ := mapping_local hands_unreferenced hrun hproper hw (hc.gives h.holds hw)
    obtain ⟨hmapped, hreturns⟩ := hmap 3000 PG_USER (by decide) (by decide)
    obtain ⟨r, m1, h1⟩ := hreturns (exists_free hroom)
    obtain rfl := mapPage_value h1
    obtain ⟨m2, h2⟩ := hfree (exists_free hroom)
    exact ⟨m1, m2, h1, hmapped _ m1 h1, h2, hmissing () m2 h2⟩
  refine ⟨?_, ?_⟩
  · obtain ⟨f, t, L, m1, L1, m2, L2, K, a, fr, b, D, m, hS, hF, hrun⟩ := small_fork serves_allocUnreferenced
    have h := hF.sound'
    obtain ⟨n1, n2, hlocal⟩ := hboth hrun first_proper h hF.counted (lt_of_lt_of_le (by decide) hF.free)
    have hshared : shared (m.pde 0xBFFFE000) = true := by
      have huser := (hF.forked.user 767 (by decide)).2
      rw [← hF.forked.cr3] at huser
      rw [show m.pde 0xBFFFE000 = m.ram m.cr3 767 from rfl, huser]
      simp
    exact ⟨_, m, n1, n2, hrun, h.holds.init, hF.forked.current, hF.names.hasPage.mpr (hS.first_page small_sound.holds).1,
      hshared, hlocal⟩
  · obtain ⟨_, _, _, _, _, _, _, _, _, m, hF⟩ := small_boot_fork serves_allocUnreferenced
    have h := hF.sound'
    have hno : ∀ d, d < 768 → present (m.ram m.cr3 d) = false := fun d hd =>
      (hF.names d hd).1.trans (boot_absent smallImage alignedMap _ _ hd)
    have hidle := hF.counted.idle h.holds
    have hfree := hF.free
    obtain ⟨f, t, hS⟩ := exists_starts hidle (by omega)
    obtain ⟨L', h', _, _, hc'⟩ := hS.sound_first h hF.counted (hno 767 (by decide))
    have hroom := hS.room h.holds
    have hexec := hS.blank_step serves_allocUnreferenced h hidle (by rw [hF.cur]; rfl) hno
    have hproper : ∀ x ∈ ([⟨smallBoot, .fork, [], m⟩, ⟨m, .execve (some blankElf), [], m.first f t⟩] :
        List (Step Machine Act Empty)), x.act.Proper x.before := by
      intro x hx
      simp only [List.mem_cons, List.not_mem_nil, or_false] at hx
      rcases hx with rfl | rfl
      · trivial
      · exact blankElf_below
    have hrun : Run (step allocUnreferenced) smallBoot _ (m.first f t) := (Run.snoc Run.refl hF.step).snoc hexec
    obtain ⟨n1, n2, hlocal⟩ := hboth hrun hproper h' hc' (by omega)
    have hprivate : shared ((m.first f t).pde 0xBFFFE000) = false := by
      have hdir := hS.dir h.holds 767
      rw [if_pos rfl] at hdir
      exact (congrArg shared hdir).trans (by rw [shared_mkEntry]; decide)
    exact ⟨_, m.first f t, n1, n2, hrun, h'.holds.init, hF.forked.current, (hS.first_page h.holds).1, hprivate, hlocal⟩

end Raampjes.Mm
