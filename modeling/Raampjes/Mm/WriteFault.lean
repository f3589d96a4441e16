import Raampjes.Mm.FirstFork

/-!
# Write faults in every reachable state

- `write_fault_private`: a write fault on a page for which copy-on-write is enabled yields a private copy, in every state
  that a run reaches with its references counted; `stack_fault_private`: the child of the first fork writes to its stack.
-/

namespace Raampjes.Mm

open Progs Refs Sched Runs

section Reachable

variable {alloc : Kernel Nat} {img : Image} {tag : MmapTag} {table : FrameTable} {ram : Nat → Nat → Word}
  {xs : List (Step Machine Act Empty)} {m : Machine} {v : Nat}

/-- **A write fault yields a private copy.** Tables that several directories name are flagged in all of them in every
reachable state, and the kernel has a free slot for the temporary mapping. -/
theorem write_fault_private (hA : ∀ m, Hands alloc m) (hrun : Run (step alloc) (boot img tag table ram) xs m)
    (hC : ∀ x ∈ xs, x.act.Proper x.before) (hc : Counted m) (hv : v < KERNEL_MEMORY) (hcode : m.cur.codeEnd < v)
    (hpage : Returns (pagePresent v) m true m) (hcow : Returns (coWEnabled v) m true m) :
    (∀ u m', Returns (pfRoViolation allocPageFrame v) m u m' → PrivateCopy m m' v) ∧
      ((if cowDir (m.pde v) = true then 2 else 1) ≤ (freeFrames m).card →
        ∃ m', Returns (pfRoViolation allocPageFrame v) m () m') := by
  obtain ⟨⟨L, h⟩, _⟩ := run_sound hA hrun hC
  have hlt := user_lt hv
  have hhas := (hasPage_iff hv).mpr ((pagePresent_ok h.holds.env hlt).mp hpage).1.symm
  have hflag := ((coWEnabled_ok h.holds.env hlt hhas.2.2.1).mp hcow).1.symm
  exact ⟨fun u m' hr => pfRoViolation_private h hc hv hhas hr, pfRoViolation_returns h hc hv hhas hcode hflag⟩

end Reachable

/-- The first program starts on the small machine. -/
theorem small_starts : ∃ f t, Starts smallBoot f t := by
  have hroom : 2 ≤ (freeFrames smallBoot).card :=
    le_trans (by decide) (Finset.card_le_card (small_freeFrames fun _ _ => 0#32))
  exact boot_starts hroom

/-- It forks. -/
theorem small_fork {alloc : Kernel Nat} (hA : Serves alloc) : ∃ f t L m1 L1 m2 L2 K a fr b D m, Starts smallBoot f t ∧
    FirstFork alloc (smallBoot.first f t) L m1 L1 m2 L2 K a fr b D m ∧
    Run (step alloc) smallBoot [⟨smallBoot, .execve (some blankElf), [], smallBoot.first f t⟩,
      ⟨smallBoot.first f t, .fork, [], m⟩] m := by
  obtain ⟨f, t, hS⟩ := small_starts
  obtain ⟨L, m1, L1, m2, L2, K, a, fr, b, D, m, hF⟩ :=
    hS.first_fork hA (fun _ => (by decide : (0 : UInt8) ≤ 1)) (small_freeFrames fun _ _ => 0#32)
  exact ⟨f, t, L, m1, L1, m2, L2, K, a, fr, b, D, m, hS, hF, Run.snoc (Run.snoc Run.refl (hS.first_step hA)) hF.step⟩

/-- The kernel forks before any program starts. -/
theorem small_boot_fork {alloc : Kernel Nat} (hA : Serves alloc) :
    ∃ m1 L1 m2 L2 K a fr b D m, FirstFork alloc smallBoot (bootLayout smallImage) m1 L1 m2 L2 K a fr b D m :=
  boot_fork hA (fun _ => (by decide : (0 : UInt8) ≤ 1)) (small_freeFrames fun _ _ => 0#32)

section Child

variable {alloc : Kernel Nat} {f t K a fr b D d : Nat} {L L1 L2 : Layout} {m1 m2 m : Machine} (hS : Starts smallBoot f t)
  (hF : FirstFork alloc (smallBoot.first f t) L m1 L1 m2 L2 K a fr b D m)

include hS hF

/-- The child has one page table. -/
theorem small_absent (hlt : d < 768) (hne : d ≠ 767) : present (m.ram m.cr3 d) = false := by
  have hdir : (smallBoot.first f t).ram smallBoot.cr3 d = smallBoot.ram smallBoot.cr3 d :=
    (hS.dir (boot_sound _ _ _ _).holds d).trans (if_neg hne)
  have hnames : present (m.ram m.cr3 d) = present ((smallBoot.first f t).ram smallBoot.cr3 d) := (hF.names d hlt).1
  rw [hnames, hdir]
  exact boot_absent _ _ _ _ hlt

/-- A frame is free for its copy. -/
theorem small_supplied : Supplied m := by
  have hone : sharedTables m ⊆ {767} := by
    intro d hd
    obtain ⟨hlt, hp, _⟩ := Finset.mem_filter.mp hd
    by_contra hne
    rw [Finset.mem_singleton] at hne
    exact absurd (hp.symm.trans (small_absent hS hF (Finset.mem_range.mp hlt) hne)) (by decide)
  have hcard := Finset.card_le_card hone
  have hfree := hF.free
  rw [Finset.card_singleton] at hcard
  rw [Supplied]
  omega

end Child

/-- The file has no segments, and the program stores nothing. -/
theorem first_proper {f t : Nat} {m : Machine} :
    ∀ x ∈ ([⟨smallBoot, .execve (some blankElf), [], smallBoot.first f t⟩,
      ⟨smallBoot.first f t, .fork, [], m⟩] : List (Step Machine Act Empty)), x.act.Proper x.before := by
  intro x hx
  simp only [List.mem_cons, List.not_mem_nil, or_false] at hx
  rcases hx with rfl | rfl
  · exact blankElf_below
  · trivial

/-- The child of the first fork gets a stack page of its own. -/
theorem stack_fault_private : ∃ xs m m', Run (step allocUnreferenced) smallBoot xs m ∧
    (∀ x ∈ xs, x.act.Proper x.before) ∧ Counted m ∧ m.cur.codeEnd < 0xBFFFF000 ∧ cowDir (m.pde 0xBFFFF000) = true ∧
    Returns (pfRoViolation allocPageFrame 0xBFFFF000) m () m' ∧ PrivateCopy m m' 0xBFFFF000 := by
  obtain ⟨f, t, L, m1, L1, m2, L2, K, a, fr, b, D, m, hS, hF, hrun⟩ := small_fork serves_allocUnreferenced
  have hsound := hF.sound'
  have hv : 0xBFFFF000 < KERNEL_MEMORY := by decide
  have hcode : m.cur.codeEnd < 0xBFFFF000 := by
    rw [hF.cur]
    exact (by decide : 0 < 0xBFFFF000)
  -- the stack page, under a directory entry that the fork flagged
  have hhas : HasPage m.ram m.cr3 (dirIndex 0xBFFFF000) (pageTableIndex 0xBFFFF000) :=
    hF.names.hasPage.mpr (hS.first_page small_sound.holds).1
  have hcow : cowDir (m.pde 0xBFFFF000) = true := by
    have huser := (hF.forked.user 767 (by decide)).2
    rw [← hF.forked.cr3] at huser
    have hpde : m.pde 0xBFFFF000 = m.ram m.cr3 767 := rfl
    rw [hpde, huser]
    simp
  have hpresent : Returns (pagePresent 0xBFFFF000) m true m :=
    (pagePresent_ok hsound.holds.env (by decide)).mpr ⟨((hasPage_iff hv).mp hhas).symm, rfl⟩
  have henabled : Returns (coWEnabled 0xBFFFF000) m true m :=
    (coWEnabled_ok hsound.holds.env (by decide) hhas.2.2.1).mpr ⟨by rw [hcow, Bool.true_or], rfl⟩
  obtain ⟨hprivate, hreturns⟩ :=
    write_fault_private hands_unreferenced hrun first_proper hF.counted hv hcode hpresent henabled
  obtain ⟨m', hr⟩ := hreturns (by rw [if_pos hcow]; exact le_trans (by decide) hF.free)
  exact ⟨_, m, m', hrun, first_proper, hF.counted, hcode, hcow, hr, hprivate () m' hr⟩

end Raampjes.Mm
