import Raampjes.Boot.Directory

/-!
# The boot sector

`first_stage.asm`: the directory is loaded, the second stage is looked up in it and loaded.

- `readSectors_loads`, `loadRootDir_loads`, `loadFAT_loads`: what the tables in memory are;
- `named_iff`: the sixteen entries of the first sector are seen over and over;
- `first_stage_boots`: when the second stage is loaded and run.
-/

namespace Raampjes.Boot

open Progs RealMode Nibbles

/-- The addresses behind the calls of the boot sector. -/
structure Calls where
  loadRootDir : Nat
  findDirEntry : Nat
  loadFAT : Nat
  loadFile : Nat

/-- From the label `loader` on; `stage2FileName` is where the name of the second stage is. The segment registers are 0. -/
def firstStage (disk : Disk) (sites : Sites) (calls : Calls) (stage2FileName : Nat) : OnLoader Nat := do
  update fun s => { s with ax := 0 }
  update fun s => { s with es := s.ax }
  update fun s => { s with stack := [] }
  update fun s => { s with vars := { s.vars with driveNumber := low s.dx } }
  update fun s => { s with bx := 0x7e00 }
  call calls.loadRootDir (loadRootDir disk sites)
  update fun s => { s with si := 0x7e00 }
  update fun s => { s with ax := stage2FileName }
  call calls.findDirEntry findDirEntry
  update fun s => { s with ax := wordAt (fun i => s.mem (linear s.es ((s.di + i) % 65536))) 0x0F }
  let stage2Cluster ← gets fun s => s.ax
  update fun s => { s with bx := 0x0500 }
  call calls.loadFAT (loadFAT disk sites)
  update fun s => { s with bx := 0x7e00 }
  update fun s => { s with vars := { s.vars with fileAddress := s.bx } }
  update fun s => { s with si := 0x0500 }
  update fun s => { s with ax := stage2Cluster }
  call calls.loadFile (loadFile disk sites)
  update fun s => { s with dx := word (high s.dx) s.vars.driveNumber }
  pure 0x7e00

/-! ## The tables -/

/-- The bytes of a sector of the drive. -/
def sectorBytes (disk : Disk) (drive lba : Nat) : Nat → UInt8 :=
  disk.content (low drive) (lba / sectorsPerTrack / headsPerCylinder) (lba / sectorsPerTrack % headsPerCylinder)
    (lba % sectorsPerTrack + 1)

/-- Among eighteen reads in a row at most four fail. -/
def Reliable (disk : Disk) : Prop := ∀ n, fails disk n 18 ≤ 4

section Tables

variable {s t : Machine Vars} {disk : Disk} {back : Nat} {rest : List Nat}

theorem Reliable.few (h : Reliable disk) (n : Nat) {k : Nat} (hk : k ≤ 18) : fails disk n k ≤ 4 := by
  have hmono := fails_mono disk n k (18 - k)
  rw [Nat.add_sub_cancel' hk] at hmono
  exact hmono.trans (h n)

/-- So one of five reads succeeds. -/
theorem Reliable.readable (h : Reliable disk) : Readable disk := by
  intro n
  by_contra hno
  have hall : ∀ k, k ≤ 5 → fails disk n k = k := by
    intro k
    induction k with
    | zero => exact fun _ => rfl
    | succ k ih =>
      intro hk
      have hfail : disk.readFails (n + k) = true := by
        by_contra hf
        exact hno ⟨k, hk, Bool.eq_false_iff.mpr hf⟩
      rw [fails, ih (Nat.le_of_succ_le hk), hfail, if_pos rfl]
  have := h.few n (k := 5) (by decide)
  rw [hall 5 le_rfl] at this
  exact absurd this (by decide)

/-- The same sector over and over, from `es:bx` on. -/
structure TableLoaded (disk : Disk) (s : Machine Vars) (lba sectors : Nat) (t : Machine Vars) : Prop where
  es : t.es = s.es
  driveNumber : t.vars.driveNumber = s.vars.driveNumber
  loaded : ∀ i < sectors, ∀ j < 512, t.mem (linear s.es (s.bx + 512 * i + j)) = sectorBytes disk s.vars.driveNumber lba j
  other : ∀ q, (∀ k < 512 * sectors, q ≠ linear s.es (s.bx + k)) → t.mem q = s.mem q

theorem readSectors_loads (sites : Sites) (hfew : FewErrors disk s) (hax : s.ax < 9216) (hcx : 1 ≤ s.cx)
    (hbx : s.bx + 512 * s.cx ≤ 65536) (hstack : s.stack = back :: rest) : ∃ t,
    Returns (readSectors disk sites) s back t ∧ t.stack = rest ∧ Kept s t ∧ TableLoaded disk s s.ax s.cx t := by
  rcases readSectors_ends disk sites (Nat.lt_trans hax (by decide)) hcx hbx hstack with
    ⟨-, t, e, ht, hrest, -, hprogress⟩ | ⟨hmany, -⟩
  · have hsector : ∀ offset, truncated (located s s.ax offset) = located s s.ax offset := by
      intro offset
      apply truncated_eq
      simp only [located, sectorsPerTrack, headsPerCylinder]
      omega
    refine ⟨t, ht, hrest, hprogress.kept, hprogress.kept.es, hprogress.kept.driveNumber, fun i hi j hj => ?_,
      hprogress.other⟩
    rw [hprogress.loaded i hi j hj, hsector]
    rfl
  · exact absurd hfew hmany

/-- The FAT in memory is its first sector nine times. -/
theorem loadFAT_loads (sites : Sites) (hdisk : Reliable disk) (hbx : s.bx + 512 * sectorsPerFAT ≤ 65536)
    (hstack : s.stack = back :: rest) : ∃ t, Returns (loadFAT disk sites) s back t ∧ t.stack = rest ∧ Kept s t ∧
      TableLoaded disk s reservedSectors sectorsPerFAT t := by
  obtain ⟨t, ht, hrest, hkept, hloaded⟩ := readSectors_loads (s := { s with
    ax := reservedSectors, cx := sectorsPerFAT, stack := sites.readFAT :: s.stack }) sites
    (hdisk.few _ (show sectorsPerFAT + 4 ≤ 18 by decide)) (show reservedSectors < 9216 by decide) (show 1 ≤ sectorsPerFAT by decide) hbx rfl
  refine ⟨{ t with stack := rest }, ?_, rfl, ?_, ?_⟩
  · unfold loadFAT
    rw [update_bind, update_bind, update_bind, Returns.bind_iff (call_returns ht)]
    exact ret_returns (hrest.trans hstack)
  · exact ⟨hkept.si, hkept.es, hkept.driveNumber, hkept.dataSector, hkept.fileAddress, hkept.cluster⟩
  · exact ⟨hloaded.es, hloaded.driveNumber, hloaded.loaded, hloaded.other⟩

/-- The root directory in memory is its first sector fourteen times; the data begins at sector 33. -/
theorem loadRootDir_loads (sites : Sites) (hdisk : Reliable disk) (hbx : s.bx + 512 * 14 ≤ 65536)
    (hstack : s.stack = back :: rest) : ∃ t, Returns (loadRootDir disk sites) s back t ∧ t.stack = rest ∧
      t.vars.dataSector = 33 ∧ t.dx = s.dx ∧ TableLoaded disk s 19 14 t := by
  have hal : word (high 0) numberOfFATs = 2 := rfl
  obtain ⟨t, ht, hrest, hkept, hloaded⟩ := readSectors_loads (s := { s with
      ax := 19, cx := 14, dx := 0, vars := { s.vars with dataSector := 33 }
      stack := sites.readRootDir :: s.di :: s.si :: 0 :: 0 :: s.bx :: s.dx :: s.cx :: s.ax :: s.stack }) sites
    (hdisk.few _ (show 14 + 4 ≤ 18 by decide)) (show 19 < 9216 by decide) (show 1 ≤ 14 by decide) hbx rfl
  refine ⟨{ t with
    ax := s.ax, bx := s.bx, cx := s.cx, dx := s.dx, si := s.si, di := s.di, stack := rest }, ?_, rfl, hkept.dataSector,
    rfl, hloaded.es, hloaded.driveNumber, hloaded.loaded, hloaded.other⟩
  unfold loadRootDir mul
  rw [Returns.bind_iff (pusha_returns s), update_bind, update_bind,
    Returns.bind_iff (div_returns (by decide) (by simp only [bytesPerSector, rootDirectoryEntries]; omega))]
  simp only [update_bind, hal, bytesPerSector, rootDirectoryEntries, sectorsPerFAT, reservedSectors]
  rw [Returns.bind_iff (call_returns ht), Returns.bind_iff (popa_returns hrest)]
  exact ret_returns hstack

end Tables

/-! ## The boot sector -/

/-- The address of `0:offset`. -/
theorem linear_zero {offset : Nat} (h : offset < 65536) : linear 0 offset = offset := by
  unfold linear
  omega

/-- An entry of the directory has the name. -/
def Listed (root name : Nat → UInt8) (i : Nat) : Prop := ∀ k < 11, root (32 * i + k) = name k

section Boot

variable {s t : Machine Vars} {disk : Disk} {name i : Nat}

/-- The entry `i` in memory is the entry `i % 16` on the disk. -/
theorem named_iff (h : TableLoaded disk s 19 14 t) (hes : s.es = 0) (hbx : s.bx = 0x7e00) (hlow : 0x7c00 ≤ name)
    (hhigh : name + 11 ≤ 0x7e00) (hi : i < rootDirectoryEntries) {u : Machine Vars} (hmem : u.mem = t.mem) (hues : u.es = 0)
    (hsi : u.si = 0x7e00) :
    Named u name i ↔ Listed (sectorBytes disk s.vars.driveNumber 19) (fun k => s.mem (name + k)) (i % 16) := by
  unfold rootDirectoryEntries at hi
  refine forall₂_congr fun k hk => ?_
  have hname : u.mem (linear 0 (name + k)) = s.mem (name + k) := by
    rw [hmem, linear_zero (by omega)]
    refine h.other _ fun j hj => ?_
    rw [hes, hbx, linear_zero (by omega)]
    omega
  have hentry : u.mem (linear u.es (u.si + 32 * i + k)) = sectorBytes disk s.vars.driveNumber 19 (32 * (i % 16) + k) := by
    have hplace := h.loaded (i / 16) (by omega) (32 * (i % 16) + k) (by omega)
    rw [hes, hbx] at hplace
    rw [hmem, hues, hsi, ← hplace]
    congr 2
    omega
  rw [hname, hentry]
  exact eq_comm

/-- The machine when `FindDirEntry` is called. -/
structure Searching (disk : Disk) (s : Machine Vars) (name : Nat) (t : Machine Vars) : Prop where
  es : t.es = 0
  ax : t.ax = name
  si : t.si = 0x7e00
  stack : t.stack = []
  dx : t.dx = s.dx
  driveNumber : t.vars.driveNumber = low s.dx
  dataSector : t.vars.dataSector = 33
  root : ∀ j < 512, t.mem (0x7e00 + j) = sectorBytes disk (low s.dx) 19 j
  named : ∀ i < rootDirectoryEntries,
    Named t name i ↔ Listed (sectorBytes disk (low s.dx) 19) (fun k => s.mem (name + k)) (i % 16)

/-- `firstStage` from the call of `FindDirEntry` on. -/
def afterRootDir (disk : Disk) (sites : Sites) (calls : Calls) : OnLoader Nat := do
  call calls.findDirEntry findDirEntry
  update fun s => { s with ax := wordAt (fun i => s.mem (linear s.es ((s.di + i) % 65536))) 0x0F }
  let stage2Cluster ← gets fun s => s.ax
  update fun s => { s with bx := 0x0500 }
  call calls.loadFAT (loadFAT disk sites)
  update fun s => { s with bx := 0x7e00 }
  update fun s => { s with vars := { s.vars with fileAddress := s.bx } }
  update fun s => { s with si := 0x0500 }
  update fun s => { s with ax := stage2Cluster }
  call calls.loadFile (loadFile disk sites)
  update fun s => { s with dx := word (high s.dx) s.vars.driveNumber }
  pure 0x7e00

theorem firstStage_searches (sites : Sites) (calls : Calls) (hdisk : Reliable disk) (hlow : 0x7c00 ≤ name)
    (hhigh : name + 11 ≤ 0x7e00) : ∃ t, Searching disk s name t ∧
      firstStage disk sites calls name s = afterRootDir disk sites calls t := by
  set s1 : Machine Vars := { s with
    ax := 0, es := 0, bx := 0x7e00, stack := [calls.loadRootDir], vars := { s.vars with driveNumber := low s.dx } }
  obtain ⟨t, ht, hstack, hdata, hdx, hloaded⟩ := loadRootDir_loads (s := s1) sites hdisk (show 0x7e00 + 512 * 14 ≤ 65536 by decide) rfl
  have hdrive : t.vars.driveNumber = low s.dx := hloaded.driveNumber
  refine ⟨{ t with si := 0x7e00, ax := name }, ⟨hloaded.es, rfl, rfl, hstack, hdx, hdrive, hdata, fun j hj => ?_,
    fun i hi => ?_⟩, ?_⟩
  · have hplace := hloaded.loaded 0 (by decide) j hj
    have hlinear : linear s1.es (s1.bx + 512 * 0 + j) = 0x7e00 + j := linear_zero (by show 0x7e00 + 512 * 0 + j < 65536; omega)
    rw [hlinear] at hplace
    exact hplace
  · exact named_iff hloaded rfl rfl hlow hhigh hi rfl hloaded.es rfl
  · have hcall : Returns (call calls.loadRootDir (loadRootDir disk sites)) { s1 with stack := [] } () t := call_returns ht
    rw [firstStage]
    simp only [update_run]
    rw [hcall.bind_eq, afterRootDir]
    simp only [update_run]

end Boot

/-! ## What stays -/

/-- The variable `DriveNumber` and the segment stay. -/
def SameDrive (s t : Machine Vars) : Prop := (t.vars.driveNumber, t.es) = (s.vars.driveNumber, s.es)

instance : Std.Refl SameDrive := ⟨fun _ => rfl⟩

instance : IsTrans (Machine Vars) SameDrive := ⟨fun _ _ _ h h' => h'.trans h⟩

section Drive

variable (disk : Disk) (sites : Sites)

theorem within_set {f : Machine Vars → Machine Vars} (h : ∀ s, ((f s).vars.driveNumber, (f s).es) = (s.vars.driveNumber, s.es)) :
    Within SameDrive (update f : OnLoader Unit) := within_update h

theorem within_push (r : Machine Vars → Nat) : Within SameDrive (push r) := within_set fun _ => rfl

theorem within_pop {set : Nat → Machine Vars → Machine Vars} 
    (h : ∀ w s, ((set w s).vars.driveNumber, (set w s).es) = (s.vars.driveNumber, s.es)) : Within SameDrive (pop set) := by
  intro s u t hr
  unfold Returns pop at hr
  split at hr
  · cases hr
  · cases hr
    exact h _ { s with stack := _ }

theorem within_ret : Within SameDrive ret := by
  intro s u t hr
  unfold Returns ret at hr
  split at hr
  · cases hr
  · cases hr
    rfl

theorem within_call {behind : Nat} {f : OnLoader Nat} (h : Within SameDrive f) : Within SameDrive (call behind f) :=
  (within_push _).bind fun _ => h.bind fun _ => Within.ite (within_pure ()) (within_stop _)

theorem within_div (m : Nat) : Within SameDrive (div m) :=
  (within_gets _).bind fun _ => (Within.onlyIf (within_stop _)).bind fun _ => within_set fun _ => rfl

theorem within_int13 : Within SameDrive (int13 disk) := by
  intro s u t hr
  unfold Returns int13 at hr
  split_ifs at hr
  · cases hr
    rfl
  · cases hr
    rfl

theorem within_lbaToCHS : Within SameDrive lbaToCHS := by
  unfold lbaToCHS
  repeat' with_reducible refine Within.bind ?_ fun _ => ?_
  all_goals with_reducible first
    | exact within_push _ | exact within_div _ | exact within_ret | exact within_pop fun _ _ => rfl
    | exact within_set fun _ => rfl

theorem within_resetFloppy : Within SameDrive (resetFloppy disk) := by
  have hround : Within SameDrive (resetRound disk) := by
    unfold resetRound
    repeat' with_reducible refine Within.bind ?_ fun _ => ?_
    all_goals with_reducible first
      | exact within_set fun _ => rfl | exact within_int13 disk | exact within_gets _ | exact within_pure _
  exact (within_gets _).bind fun _ => (Within.forever (fun _ => hround) _ _).bind fun _ => within_ret

theorem within_readRound : Within SameDrive (readRound disk sites) := by
  have herror : Within SameDrive (readError disk sites) := by
    unfold readError
    repeat' with_reducible refine Within.bind ?_ fun _ => ?_
    all_goals with_reducible first
      | exact within_call (within_resetFloppy disk) | exact within_pop fun _ _ => rfl | exact within_set fun _ => rfl
      | exact within_gets _ | exact within_pure _
  unfold readRound prepare
  repeat' with_reducible first | refine Within.bind ?_ fun _ => ?_ | refine Within.ite ?_ ?_
  all_goals with_reducible first
    | exact herror | exact within_push _ | exact within_call within_lbaToCHS | exact within_set fun _ => rfl
    | exact within_int13 disk | exact within_gets _ | exact within_pop fun _ _ => rfl | exact within_pure _

theorem within_readSectors : Within SameDrive (readSectors disk sites) := by
  unfold readSectors
  repeat' with_reducible refine Within.bind ?_ fun _ => ?_
  all_goals with_reducible first
    | exact within_set fun _ => rfl | exact Within.forever (fun _ => within_readRound disk sites) _ _
    | exact within_pop fun _ _ => rfl | exact within_ret

theorem within_clusterRound : Within SameDrive (clusterRound disk sites) := by
  have haddress : Within SameDrive addressFromCluster := by
    unfold addressFromCluster mul
    repeat' with_reducible refine Within.bind ?_ fun _ => ?_
    all_goals with_reducible first
      | exact within_push _ | exact within_ret | exact within_pop fun _ _ => rfl | exact within_set fun _ => rfl
  unfold clusterRound nextCluster
  repeat' with_reducible first | refine Within.bind ?_ fun _ => ?_ | refine Within.ite ?_ ?_
  all_goals with_reducible first
    | exact within_set fun _ => rfl | exact within_call haddress | exact within_call (within_readSectors disk sites)
    | exact within_gets _ | exact within_pure _

theorem within_loadFile : Within SameDrive (loadFile disk sites) := by
  unfold loadFile
  repeat' with_reducible refine Within.bind ?_ fun _ => ?_
  all_goals with_reducible first
    | exact within_set fun _ => rfl | exact Within.forever (fun _ => within_clusterRound disk sites) _ _
    | exact within_ret

end Drive

/-! ## The second stage is loaded -/

/-- A chain depends on the entries of its clusters. -/
theorem Chain.congr {fat fat' : Nat → Nat} {c : Nat} {cs : List Nat} (h : Chain fat c cs)
    (hsame : ∀ d ∈ cs, fat' d = fat d) : Chain fat' c cs := by
  induction h with
  | last hlow hhigh hend =>
    refine Chain.last hlow hhigh ?_
    rwa [hsame _ (List.mem_singleton_self _)]
  | next hlow hhigh _ ih =>
    refine Chain.next hlow hhigh ?_
    rw [hsame _ List.mem_cons_self]
    exact ih fun d hd => hsame d (List.mem_cons_of_mem _ hd)

section Stage

variable {s t : Machine Vars} {disk : Disk} {name i : Nat} {cs : List Nat}

/-- The file that begins with the cluster `c` is in memory from `0x7e00` on, and the drive number in `dl`. -/
structure StageLoaded (disk : Disk) (s : Machine Vars) (cs : List Nat) (t : Machine Vars) : Prop where
  es : t.es = 0
  drive : low t.dx = low s.dx
  loaded : ∀ (i : Nat) (h : i < cs.length), ∀ j < 512,
    t.mem (0x7e00 + 512 * i + j) = sectorBytes disk (low s.dx) (cs[i] + 31) j

/-- The first cluster in the entry that `FindDirEntry` found. -/
theorem Searching.cluster (h : Searching disk s name t) (hi : i < 16) {u : Machine Vars} (hmem : u.mem = t.mem)
    (hes : u.es = 0) (hdi : u.di = 0x7e00 + 32 * i + 11) :
    wordAt (fun i => u.mem (linear u.es ((u.di + i) % 65536))) 0x0F =
      wordAt (sectorBytes disk (low s.dx) 19) (32 * i + 26) := by
  have hbyte : ∀ k, 0x0F ≤ k → k ≤ 0x10 → u.mem (linear u.es ((u.di + k) % 65536)) =
      sectorBytes disk (low s.dx) 19 (32 * i + 11 + k) := by
    intro k h1 h2
    rw [hmem, hes, hdi, Nat.mod_eq_of_lt (by omega), linear_zero (by omega), ← h.root _ (by omega)]
    congr 1
    omega
  rw [wordAt, wordAt, hbyte _ le_rfl (by decide), hbyte _ (by decide) le_rfl]

/-- The entry of a cluster whose two bytes lie in the first sector of the FAT. -/
theorem TableLoaded.entry_eq (h : TableLoaded disk s 1 9 t) (hes : s.es = 0) (hbx : s.bx = 0x0500) {u : Machine Vars}
    (hmem : u.mem = t.mem) (hes' : u.es = t.es) {d : Nat} (hd : d + d / 2 + 1 < 512) :
    entry (table u) d = entry (sectorBytes disk s.vars.driveNumber 1) d := by
  have hbyte : ∀ k < 512, table u k = sectorBytes disk s.vars.driveNumber 1 k := by
    intro k hk
    have hplace := h.loaded 0 (by decide) k hk
    rw [hes, hbx] at hplace
    rw [table, hmem, hes', h.es, hes, ← hplace, Nat.mul_zero, Nat.add_zero]
  exact entry_congr (hbyte _ (by omega)) (hbyte _ (by omega))

/-- From the call of `FindDirEntry` on, with the entry `i` in the directory. -/
theorem afterRootDir_loads (sites : Sites) (calls : Calls) (hdisk : Reliable disk) (hname : name + 11 ≤ 0x7e00)
    (h : Searching disk s name t) (hi : i < 16)
    (hlisted : Listed (sectorBytes disk (low s.dx) 19) (fun k => s.mem (name + k)) i)
    (hfirst : ∀ j < i, ¬ Listed (sectorBytes disk (low s.dx) 19) (fun k => s.mem (name + k)) j)
    (hchain : Chain (entry (sectorBytes disk (low s.dx) 1)) (wordAt (sectorBytes disk (low s.dx) 19) (32 * i + 26)) cs)
    (hfat : ∀ c ∈ cs, c + c / 2 + 1 < 512) (hfit : 0x7e00 + 512 * cs.length < 65536) :
    ∃ u, Returns (afterRootDir disk sites calls) t 0x7e00 u ∧ StageLoaded disk s cs u := by
  have hnamed : ∀ j ≤ i, Named t name j ↔ Listed (sectorBytes disk (low s.dx) 19) (fun k => s.mem (name + k)) j := by
    intro j hj
    have := h.named j (by unfold rootDirectoryEntries; omega)
    rwa [Nat.mod_eq_of_lt (by omega)] at this
  -- the entry is found
  obtain ⟨t1, ht1, hstack1, hfound⟩ := findDirEntry_finds (s := { t with stack := calls.findDirEntry :: t.stack }) (i := i)
    (show t.ax + 11 < 65536 by rw [h.ax]; omega) (show t.si + 32 * rootDirectoryEntries < 65536 by rw [h.si]; decide)
    (by unfold rootDirectoryEntries; omega) (h.ax.symm ▸ (hnamed i le_rfl).mpr hlisted)
    (fun j hj hn => hfirst j hj ((hnamed j hj.le).mp (h.ax ▸ hn))) rfl
  have hes1 : t1.es = 0 := hfound.es.trans h.es
  have hmem1 : t1.mem = t.mem := hfound.mem
  have hdi1 : t1.di = 0x7e00 + 32 * i + 11 := by
    rw [hfound.di]
    show t.si + 32 * i + 11 = _
    rw [h.si]
  have hcluster := h.cluster hi hmem1 hes1 hdi1
  -- the FAT is loaded
  obtain ⟨t2, ht2, hstack2, hkept2, hfat2⟩ := loadFAT_loads (s := { t1 with
    ax := wordAt (sectorBytes disk (low s.dx) 19) (32 * i + 26), bx := 0x0500, stack := calls.loadFAT :: t1.stack }) sites
    hdisk (show 0x0500 + 512 * sectorsPerFAT ≤ 65536 by decide) rfl
  have hes2 : t2.es = 0 := hfat2.es.trans hes1
  have hdrive1 : t1.vars.driveNumber = low s.dx := by
    rw [hfound.vars]
    exact h.driveNumber
  have hdrive2 : t2.vars.driveNumber = low s.dx := hfat2.driveNumber.trans hdrive1
  have hdata2 : t2.vars.dataSector = 33 := by
    rw [hkept2.dataSector]
    show t1.vars.dataSector = _
    rw [hfound.vars]
    exact h.dataSector
  set t3 : Machine Vars := { t2 with
    bx := 0x7e00, si := 0x0500, ax := wordAt (sectorBytes disk (low s.dx) 19) (32 * i + 26)
    vars := { t2.vars with fileAddress := 0x7e00 }, stack := calls.loadFile :: t2.stack }
  have htable : ∀ d ∈ cs, entry (table t3) d = entry (sectorBytes disk (low s.dx) 1) d := by
    intro d hd
    rw [← hdrive1]
    exact hfat2.entry_eq hes1 rfl rfl rfl (hfat d hd)
  -- and the file
  obtain ⟨t4, ht4, hstack4, hfile⟩ := loadFile_loads (s := t3) disk sites (hchain.congr htable) hdisk.readable
    (fun c hc => by
      have := hfat c hc
      simp only [t3, hdata2, sectorsPerTrack, headsPerCylinder]
      omega)
    hfit (fun c hc => Or.inr (by have := hfat c hc; show _ ≤ 0x7e00; omega)) rfl
  obtain ⟨hdrive4, hes4⟩ := Prod.mk.inj (within_loadFile disk sites _ _ _ ht4)
  refine ⟨{ t4 with dx := word (high t4.dx) t4.vars.driveNumber }, ?_, hes4.trans hes2, ?_, fun i hi j hj => ?_⟩
  · rw [afterRootDir, Returns.bind_iff (call_returns ht1)]
    simp only [update_bind, gets_bind, hcluster]
    rw [Returns.bind_iff (call_returns ht2)]
    simp only [update_bind]
    rw [Returns.bind_iff (call_returns ht4), update_bind]
    exact pure_ok.mpr ⟨rfl, rfl⟩
  · have hlow : t4.vars.driveNumber = low s.dx := hdrive4.trans hdrive2
    rw [hlow]
    simp only [low, word]
    omega
  · have hplace := hfile.loaded i hi j hj
    have hlinear : linear t3.es (t3.vars.fileAddress + 512 * i + j) = 0x7e00 + 512 * i + j := by
      show linear t2.es (0x7e00 + 512 * i + j) = _
      rw [hes2, linear_zero (by omega)]
    have hsector : cs[i] - 2 + t3.vars.dataSector = cs[i] + 31 := by
      have := (hchain.bounds _ (List.getElem_mem hi)).1
      show cs[i] - 2 + t2.vars.dataSector = _
      omega
    rw [hlinear, hsector] at hplace
    show t4.mem _ = _
    rw [hplace]
    show sectorBytes disk t2.vars.driveNumber _ j = _
    rw [hdrive2]

/-- **The boot sector.** When among eighteen reads in a row at most four fail, the entry of the second stage is looked for
in the first sixteen of the directory. If none of them has its name, the boot sector waits in `hlt`, and then returns on an
empty stack; if the first one that has it begins a chain whose entries lie in the first sector of the FAT, the file is
loaded to `0x7e00` and run. -/
theorem first_stage_boots (sites : Sites) (calls : Calls) (hdisk : Reliable disk) (hlow : 0x7c00 ≤ name)
    (hname : name + 11 ≤ 0x7e00) :
    ((∀ i < 16, ¬ Listed (sectorBytes disk (low s.dx) 19) (fun k => s.mem (name + k)) i) →
      firstStage disk sites calls name s = .error .underflow) ∧
    ∀ i < 16, Listed (sectorBytes disk (low s.dx) 19) (fun k => s.mem (name + k)) i →
      (∀ j < i, ¬ Listed (sectorBytes disk (low s.dx) 19) (fun k => s.mem (name + k)) j) →
      ∀ cs, Chain (entry (sectorBytes disk (low s.dx) 1)) (wordAt (sectorBytes disk (low s.dx) 19) (32 * i + 26)) cs →
        (∀ c ∈ cs, c + c / 2 + 1 < 512) → 0x7e00 + 512 * cs.length < 65536 →
        ∃ t, Returns (firstStage disk sites calls name) s 0x7e00 t ∧ StageLoaded disk s cs t := by
  obtain ⟨t, hsearch, hruns⟩ := firstStage_searches (s := s) sites calls hdisk hlow hname
  constructor
  · intro hnone
    have hax : t.ax + 11 < 65536 := by
      rw [hsearch.ax]
      omega
    have hsi : t.si + 32 * rootDirectoryEntries < 65536 := by
      rw [hsearch.si]
      decide
    obtain ⟨u, hu, hfalls⟩ := findDirEntry_falls (s := { t with stack := calls.findDirEntry :: t.stack }) hax hsi
      (fun j hj hn => hnone (j % 16) (Nat.mod_lt _ (by decide)) ((hsearch.named j hj).mp (hsearch.ax ▸ hn))) rfl
    have hret : ret u = .error .underflow := by
      rw [ret, hu, hsearch.stack]
    rw [hruns, afterRootDir]
    exact bind_error (call_error (hfalls.trans hret)) _
  · intro i hi hlisted hfirst cs hchain hfat hfit
    obtain ⟨u, hu, hloaded⟩ := afterRootDir_loads sites calls hdisk hname hsearch hi hlisted hfirst hchain hfat hfit
    exact ⟨u, hruns.trans hu, hloaded⟩

end Stage

def stage2Name : List UInt8 := [83, 84, 65, 71, 69, 50, 32, 32, 66, 73, 78]

/-- The second stage is the first file, one cluster of sevens. -/
def bootDisk : Disk :=
  { blank false with content := fun _ _ head sector j =>
      if head = 1 ∧ sector = 2 then (stage2Name ++ List.replicate 15 0 ++ [2, 0]).getD j 0
      else if head = 0 ∧ sector = 2 then [0, 0, 0, 0xff, 0x0f].getD j 0
      else 7 }

def started : Machine Vars := { calling 0 with mem := fun q => stage2Name.getD (q - 0x7dd0) 0 }

theorem first_stage_boots_one : ∃ t, Returns (firstStage bootDisk sites ⟨11, 12, 13, 14⟩ 0x7dd0) started 0x7e00 t ∧
    StageLoaded bootDisk started [2] t ∧ ∀ j < 512, t.mem (0x7e00 + j) = 7 := by
  have hdisk : Reliable bootDisk := fun n => by
    have hnone : ∀ k, fails bootDisk n k = 0 := fun k => by
      induction k with
      | zero => rfl
      | succ k ih =>
        rw [fails, ih]
        rfl
    rw [hnone]
    decide
  have hlast : 0x0FF0 ≤ entry (sectorBytes bootDisk (low started.dx) 1) 2 := by decide
  have hcluster : wordAt (sectorBytes bootDisk (low started.dx) 19) (32 * 0 + 26) = 2 := by decide
  have hchain : Chain (entry (sectorBytes bootDisk (low started.dx) 1))
      (wordAt (sectorBytes bootDisk (low started.dx) 19) (32 * 0 + 26)) [2] :=
    hcluster.symm ▸ Chain.last (by decide) (by decide) hlast
  obtain ⟨t, ht, hloaded⟩ := (@first_stage_boots started bootDisk 0x7dd0 sites ⟨11, 12, 13, 14⟩ hdisk (by decide)
    (by decide)).2 0 (by decide) (by unfold Listed; decide) (fun j hj => absurd hj (Nat.not_lt_zero j)) [2] hchain (by decide)
    (by decide)
  refine ⟨t, ht, hloaded, fun j hj => ?_⟩
  have hbyte := hloaded.loaded 0 (by decide) j hj
  rwa [Nat.mul_zero, Nat.add_zero] at hbyte

end Raampjes.Boot
