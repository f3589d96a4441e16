import Raampjes.Ramdisk.Archive
import Raampjes.Mm.KernelHalf

/-!
# `do_execve` with a path

- `openFile_archive`: which file a path opens in an archive;
- `execve_missing_iff`: a path that names no member leaves the caller intact exactly when it is not empty and, if it is
  longer than 100 characters, its first 100 are not the name of a member either.
-/

namespace Raampjes.Ramdisk

open Progs Libc

/-- The file that `find_file` and `getsize` give to `do_execve`. -/
def openFile (rd : Rd) (path : Nat) : OnBytes (Option Mm.File) := do
  let header ← findFile rd path
  if header = NULL then pure none
  else do
    let size ← getsize (header + sizeOffset)
    let mem ← gets Bytes.mem
    pure (some ⟨size, fun i => mem ((header + 512 + i) % 2 ^ 32)⟩)

/-- `do_execve`, where the kernel reads the ramdisk and the path from `s`; `none` when `find_file` does not return. -/
def doExecve (alloc : Mm.Kernel Nat) (rd : Rd) (s : Bytes) (path : Nat) : Option (Mm.Kernel Int) :=
  match openFile rd path s with
  | .ok (file, _) => some (Mm.doExecve alloc file)
  | .error _ => none

/-- The call returns -1, and memory, frame counters and tasks are as before. -/
def Intact (alloc : Mm.Kernel Nat) (rd : Rd) (s : Bytes) (path : Nat) (m : Mm.Machine) : Prop :=
  ∃ k, doExecve alloc rd s path = some k ∧ Returns k m (-1) m

section Open

variable {rd : Rd} {s : Bytes} {ms : List Member} {path : Nat} {bs : List UInt8}

/-- A path opens no file exactly when the search returns `NULL`. -/
theorem openFile_archive (hA : Archive s.mem rd.firstHeader ms) (hpath : CString s.mem path bs) :
    ∃ file t, Returns (openFile rd path) s file t ∧ (file = none ↔ found rd.firstHeader ms bs = NULL) := by
  obtain ⟨t, ht, hlook⟩ := forever_archive hA hpath hA.length_lt
  have hrun : ∀ {file u}, Returns (openFile rd path) s file u ↔ _ := Returns.bind_iff ht _
  by_cases hnull : found rd.firstHeader ms bs = NULL
  · refine ⟨none, t, hrun.mpr ?_, iff_of_true rfl hnull⟩
    rw [if_pos hnull]
    exact pure_ok.mpr ⟨rfl, rfl⟩
  · obtain ⟨u, hu, -⟩ := getsize_returns (P := fun _ => True) t (found rd.firstHeader ms bs) fun _ _ => trivial
    refine ⟨some ⟨sizeAt t.mem (found rd.firstHeader ms bs), fun i => u.mem ((found rd.firstHeader ms bs + 512 + i) % 2 ^ 32)⟩,
      u, hrun.mpr ?_, iff_of_false (Option.some_ne_none _) hnull⟩
    rw [if_neg hnull, Returns.bind_iff hu, Returns.bind_iff ((gets_ok _).mpr ⟨rfl, rfl⟩)]
    exact pure_ok.mpr ⟨rfl, rfl⟩

theorem memberAt_eq_none {a : Nat} : memberAt a ms bs = none ↔ ∀ m ∈ ms, m.name ≠ bs := by
  induction ms generalizing a with
  | nil => simp [memberAt]
  | cons m ms ih =>
    by_cases h : m.name = bs
    · simp [memberAt, h]
    · simp [memberAt, h, ih]

theorem memberAt_ge {a b : Nat} (h : memberAt a ms bs = some b) : a ≤ b := by
  induction ms generalizing a with
  | nil => cases h
  | cons m ms ih =>
    rw [memberAt] at h
    by_cases hm : m.name = bs
    · rw [if_pos hm, Option.some.injEq] at h
      exact Nat.le_of_eq h
    · rw [if_neg hm] at h
      have := ih h
      omega

/-- The search returns `NULL` when the path is not empty and what it compares is not the name of a member. -/
theorem found_eq_null {a : Nat} (ha : a ≠ NULL) :
    found a ms bs = NULL ↔ bs ≠ [] ∧ ∀ m ∈ ms, m.name ≠ bs.take 100 := by
  have hpos : 0 < a := Nat.pos_of_ne_zero ha
  rw [← memberAt_eq_none (a := a), found]
  cases hm : memberAt a ms (bs.take 100) with
  | none =>
    rw [Option.getD_none]
    by_cases hbs : bs = []
    · rw [if_pos hbs]
      have := archiveEnd_ge a ms
      exact iff_of_false (by rw [NULL]; omega) fun h => h.1 hbs
    · rw [if_neg hbs]
      exact iff_of_true rfl ⟨hbs, rfl⟩
  | some b =>
    have := memberAt_ge hm
    exact iff_of_false (by rw [Option.getD_some, NULL]; omega) fun h => Option.some_ne_none b h.2

end Open

/-- A `do_execve` that has a file does not return -1. -/
theorem execve_found {alloc : Mm.Kernel Nat} {file : Mm.File} {m m' : Mm.Machine} {r : Int}
    (h : Returns (Mm.doExecve alloc (some file)) m r m') : r = 0 := by
  simp only [Mm.doExecve, bind_ok, pure_ok] at h
  obtain ⟨_, _, -, _, _, -, _, _, -, _, _, -, _, _, -, hr, -⟩ := h
  exact hr

/-- The caller is left intact exactly when the search returns `NULL`. -/
theorem intact_iff_found (alloc : Mm.Kernel Nat) (m : Mm.Machine) {rd : Rd} {s : Bytes} {ms : List Member}
    (hA : Archive s.mem rd.firstHeader ms) {path : Nat} {bs : List UInt8} (hpath : CString s.mem path bs) :
    Intact alloc rd s path m ↔ found rd.firstHeader ms bs = NULL := by
  obtain ⟨file, t, ht, hnone⟩ := openFile_archive hA hpath
  have hexec : doExecve alloc rd s path = some (Mm.doExecve alloc file) := by
    rw [doExecve, show openFile rd path s = .ok (file, t) from ht]
  rw [← hnone]
  constructor
  · rintro ⟨k, hk, hret⟩
    obtain rfl : Mm.doExecve alloc file = k := Option.some.inj (hexec.symm.trans hk)
    cases file with
    | none => rfl
    | some f => exact absurd (execve_found hret) (by decide)
  · rintro rfl
    exact ⟨_, hexec, pure_ok.mpr ⟨rfl, rfl⟩⟩

/-- **When a path that names no member leaves the caller intact.** -/
theorem execve_missing_iff (alloc : Mm.Kernel Nat) (m : Mm.Machine) {rd : Rd} {s : Bytes} {ms : List Member}
    (hA : Archive s.mem rd.firstHeader ms) (hbase : rd.firstHeader ≠ NULL) {path : Nat} {bs : List UInt8}
    (hpath : CString s.mem path bs) (hmiss : ∀ x ∈ ms, x.name ≠ bs) :
    Intact alloc rd s path m ↔ bs ≠ [] ∧ (100 < bs.length → ∀ x ∈ ms, x.name ≠ bs.take 100) := by
  rw [intact_iff_found alloc m hA hpath, found_eq_null hbase]
  refine and_congr_right fun _ => ⟨fun h _ => h, fun h => ?_⟩
  by_cases hlong : 100 < bs.length
  · exact h hlong
  · -- a short path is compared as a whole
    rwa [List.take_of_length_le (Nat.le_of_not_lt hlong)]

theorem execve_missing_two : Intact Mm.allocPageFrame twoRd twoState 0x2000 Mm.smallBoot := by
  have hpath : CString twoState.mem 0x2000 [99] := ⟨by decide, by decide, by decide, by decide⟩
  exact (execve_missing_iff Mm.allocPageFrame Mm.smallBoot archive_two (by decide) hpath (by decide)).mpr
    ⟨by decide, by decide⟩

/-- The empty path opens the end marker of an archive, and no member has an empty name. -/
theorem execve_empty_path : Archive twoState.mem twoRd.firstHeader [emptyMember, byteMember] ∧
    CString twoState.mem 0x3000 [] ∧ (∀ x ∈ [emptyMember, byteMember], x.name ≠ []) ∧
      ¬ Intact Mm.allocPageFrame twoRd twoState 0x3000 Mm.smallBoot := by
  have hpath : CString twoState.mem 0x3000 [] := ⟨by decide, by decide, by decide, by decide⟩
  refine ⟨archive_two, hpath, by decide, fun h => ?_⟩
  have hfound := (intact_iff_found _ _ archive_two hpath).mp h
  exact absurd hfound (by decide)

end Raampjes.Ramdisk
