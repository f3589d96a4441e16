import Raampjes.Ramdisk.FindFile

/-!
# `find_file` on arbitrary contents

The distance to the next header is whatever the size field of this one says, modulo `2 ^ 32`. It may be 0, go back or
leave the module; `tar_size` is recorded and never used.

- `headers`: the headers from the first one on, by their sizes;
- `findFile_chain`: when a header ends the search, the search is over within `2 ^ 32` rounds;
- `find_file_safe_iff`: the search ends and stays inside the module exactly when the headers do, up to one that ends it.
-/

namespace Raampjes.Ramdisk

open Progs Libc

/-- Header `k` of the chain. -/
def headers (mem : Nat → UInt8) (rd : Rd) (k : Nat) : Nat := (following mem)^[k] rd.firstHeader

/-- The search ends at this header: with the file, or with the end of the archive. -/
def EndsAt (mem : Nat → UInt8) (name address : Nat) : Prop := Matches mem name address ∨ Unnamed mem address

/-- The header lies in the module as a whole. -/
def Inside (rd : Rd) (address : Nat) : Prop :=
  rd.firstHeader ≤ address ∧ address + sizeofTarHeader ≤ rd.firstHeader + rd.tarSize

/-- `find_file` returns, and every header that it looks at lies in the module. -/
structure Safe (rd : Rd) (name : Nat) (s : Bytes) : Prop where
  returns : ∃ r t, Returns (findFile rd name) s r t
  inside : ∀ x, GoesOn (findRound name) (rd.firstHeader, s) x → Inside rd x.1

section Chain

variable {rd : Rd} {name : Nat} {s : Bytes}

theorem headers_succ (mem : Nat → UInt8) (rd : Rd) (k : Nat) :
    headers mem rd (k + 1) = following mem (headers mem rd k) := Function.iterate_succ_apply' _ _ _

/-- A round at a header that does not end the search goes on to the next one. -/
theorem findRound_on {t : Bytes} (hmem : t.mem = s.mem) {i : Nat} (h : ¬ EndsAt s.mem name (headers s.mem rd i)) :
    ∃ t', Returns (findRound name (headers s.mem rd i)) t (.inl (headers s.mem rd (i + 1))) t' ∧ t'.mem = s.mem := by
  obtain ⟨t', ht, hlook⟩ := findRound_returns name (headers s.mem rd i) t
  obtain ⟨hm, hz⟩ := not_or.mp h
  rw [hmem, if_neg hm, if_neg hz, ← headers_succ] at ht
  exact ⟨t', ht, hlook.mem.trans hmem⟩

/-- What a search returns that ends at this header. -/
def result (mem : Nat → UInt8) (name address : Nat) : Nat := if Matches mem name address then address else NULL

theorem findRound_done {t : Bytes} (hmem : t.mem = s.mem) {address : Nat} (h : EndsAt s.mem name address) :
    ∃ t', Returns (findRound name address) t (.inr (result s.mem name address)) t' ∧ t'.mem = s.mem := by
  obtain ⟨t', ht, hlook⟩ := findRound_returns name address t
  rw [hmem] at ht
  refine ⟨t', ?_, hlook.mem.trans hmem⟩
  rw [result]
  by_cases hm : Matches s.mem name address
  · rw [if_pos hm] at ht ⊢
    exact ht
  · rw [if_neg hm, if_pos (h.resolve_left hm)] at ht
    rw [if_neg hm]
    exact ht

/-- **A search that reaches an end reaches it within `2 ^ 32` rounds**, through the headers before it. -/
theorem findFile_chain (h : ∃ k, EndsAt s.mem name (headers s.mem rd k)) :
    ∃ k, EndsAt s.mem name (headers s.mem rd k) ∧ (∀ i < k, ¬ EndsAt s.mem name (headers s.mem rd i)) ∧
      (∃ t, Returns (findFile rd name) s (result s.mem name (headers s.mem rd k)) t) ∧
      ∀ x, GoesOn (findRound name) (rd.firstHeader, s) x → ∃ i, i ≤ k ∧ x.1 = headers s.mem rd i := by
  classical
  obtain ⟨j, hj, hend⟩ := exists_lt_of_iterate (p := EndsAt s.mem name) rd.firstHeader_lt
    (fun x => Nat.mod_lt _ (Nat.two_pow_pos 32) : ∀ x, following s.mem x < 2 ^ 32) h
  have hfirst : ∀ i < Nat.find h, ¬ EndsAt s.mem name (headers s.mem rd i) := fun i hi => Nat.find_min h hi
  have hon : ∀ i (t : Bytes), i < Nat.find h → t.mem = s.mem →
      ∃ t', Returns (findRound name (headers s.mem rd i)) t (.inl (headers s.mem rd (i + 1))) t' ∧ t'.mem = s.mem :=
    fun i t hi hmem => findRound_on hmem (hfirst i hi)
  have hdone := fun t (hmem : t.mem = s.mem) => findRound_done (t := t) hmem (Nat.find_spec h)
  refine ⟨Nat.find h, Nat.find_spec h, hfirst, ?_, fun x hx => ?_⟩
  · obtain ⟨t, ht, -⟩ := forever_chain (e := Stop.endless) (I := fun _ (t : Bytes) => t.mem = s.mem) hon hdone
      (Nat.lt_of_le_of_lt (Nat.find_min' h hend) hj) (rfl : s.mem = s.mem)
    exact ⟨t, ht⟩
  · obtain ⟨i, hi, hx, -⟩ := goesOn_chain (I := fun _ (t : Bytes) => t.mem = s.mem) hon
      (fun t hmem => (hdone t hmem).imp fun _ ht => ht.1) (rfl : s.mem = s.mem) hx
    exact ⟨i, hi, hx⟩

/-- The headers up to an end are all looked at. -/
theorem goesOn_headers {k : Nat} (h : ∀ i < k, ¬ EndsAt s.mem name (headers s.mem rd i)) :
    ∃ t, GoesOn (findRound name) (rd.firstHeader, s) (headers s.mem rd k, t) ∧ t.mem = s.mem := by
  induction k with
  | zero => exact ⟨s, .refl, rfl⟩
  | succ k ih =>
    obtain ⟨t, hgo, hmem⟩ := ih fun i hi => h i (Nat.lt_succ_of_lt hi)
    obtain ⟨t', ht, hmem'⟩ := findRound_on hmem (h k (Nat.lt_succ_self k))
    exact ⟨t', .tail hgo ht, hmem'⟩

/-- A search that returned came to an end. -/
theorem exists_endsAt {r : Nat} {t : Bytes} (h : Returns (findFile rd name) s r t) :
    ∃ k, EndsAt s.mem name (headers s.mem rd k) := by
  by_contra hno
  rw [not_exists] at hno
  -- otherwise every round goes on
  have hall : ∀ x, GoesOn (findRound name) (rd.firstHeader, s) x → ∃ k, x.1 = headers s.mem rd k ∧ x.2.mem = s.mem := by
    intro x hx
    induction hx with
    | refl => exact ⟨0, rfl, rfl⟩
    | @tail y z _ hz ih =>
      obtain ⟨k, hk, hmem⟩ := ih
      obtain ⟨t', ht, hmem'⟩ := findRound_on hmem (hno k)
      rw [hk] at hz
      obtain ⟨heq, rfl⟩ := ht.unique hz
      exact ⟨k + 1, (Sum.inl.inj heq).symm, hmem'⟩
  obtain ⟨x, hx, hdone⟩ := forever_goesOn h
  obtain ⟨k, hk, hmem⟩ := hall x hx
  obtain ⟨t', ht, -⟩ := findRound_on hmem (hno k)
  rw [hk] at hdone
  exact absurd (ht.unique hdone).1 Sum.inl_ne_inr

end Chain

/-- **When the search is safe.** The headers, from the first one on and by their sizes, lie in the module up to one that
has the name or has none. -/
theorem find_file_safe_iff (rd : Rd) (name : Nat) (s : Bytes) :
    Safe rd name s ↔
      ∃ k, EndsAt s.mem name (headers s.mem rd k) ∧ ∀ i ≤ k, Inside rd (headers s.mem rd i) := by
  constructor
  · rintro ⟨⟨r, t, hr⟩, hinside⟩
    obtain ⟨k, hend, hfirst, -⟩ := findFile_chain (exists_endsAt hr)
    refine ⟨k, hend, fun i hi => ?_⟩
    obtain ⟨t', hgo, -⟩ := goesOn_headers fun j hj => hfirst j (Nat.lt_of_lt_of_le hj hi)
    exact hinside _ hgo
  · rintro ⟨k, hend, hinside⟩
    obtain ⟨k', -, hfirst, ⟨t, ht⟩, hvisited⟩ := findFile_chain ⟨k, hend⟩
    have hle : k' ≤ k := by
      by_contra hlt
      exact hfirst k (Nat.lt_of_not_le hlt) hend
    refine ⟨⟨_, t, ht⟩, fun x hx => ?_⟩
    obtain ⟨i, hi, hx⟩ := hvisited x hx
    rw [hx]
    exact hinside i (Nat.le_trans hi hle)

/-- A member of size 0 that fills the module, with a name of zeros, and the name `a` elsewhere. -/
def unended (p : Nat) : UInt8 := if p = 0x1000 then 97 else if p = 0x1001 then 0 else 48

/-- A module of one block, with no end marker. -/
def oneBlock : Rd := ⟨0xC0100000, 512, by decide⟩

/-- The search leaves a module without an end marker. -/
theorem find_file_not_safe : ¬ Safe oneBlock 0x1000 ⟨unended, 0, []⟩ := by
  rw [find_file_safe_iff]
  rintro ⟨k, hend, hinside⟩
  cases k with
  | zero =>
    rcases hend with hm | hz
    · exact text_ne (by decide) hm
    · exact absurd hz (by decide)
  | succ k =>
    have hnext : headers unended oneBlock 1 = 0xC0100200 := by decide
    have := (hinside 1 (Nat.succ_le_succ (Nat.zero_le k))).2
    rw [hnext] at this
    exact absurd this (by decide)

end Raampjes.Ramdisk
