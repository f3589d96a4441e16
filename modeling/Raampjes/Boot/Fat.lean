import Raampjes.Boot.Floppy
import Raampjes.Lib.Nibbles

/-!
# Following a chain of clusters

`fat.asm`: the root directory, the FAT and a file are loaded by `ReadSectors`.

- `addressFromCluster_returns`: the sector of a cluster;
- `nextCluster_returns`: the next cluster is the entry in the table of twelve-bit entries;
- `clusterRound_returns`: one cluster is loaded, and its own entry is read afterwards;
- `Chain`, `FileLoaded`: a file in the FAT, and what is to be in memory;
- `loadFile_loads`: a file is loaded completely, and nothing else changes.
-/

namespace Raampjes.Boot

open Progs RealMode Nibbles

/-! ## The program -/

def bytesPerSector : Nat := 512

def sectorsPerCluster : Nat := 1

def reservedSectors : Nat := 1

def numberOfFATs : Nat := 2

def rootDirectoryEntries : Nat := 224

def sectorsPerFAT : Nat := 9

def loadFAT (disk : Disk) (sites : Sites) : OnLoader Nat := do
  update fun s => { s with ax := 0 }
  update fun s => { s with ax := reservedSectors }
  update fun s => { s with cx := sectorsPerFAT }
  call sites.readFAT (readSectors disk sites)
  ret

def addressFromCluster : OnLoader Nat := do
  push fun s => s.cx
  update fun s => { s with ax := (s.ax + 65534) % 65536 }
  update fun s => { s with cx := 0 }
  update fun s => { s with cx := word (high s.cx) sectorsPerCluster }
  mul fun s => s.cx
  update fun s => { s with ax := (s.ax + s.vars.dataSector) % 65536 }
  pop fun w s => { s with cx := w }
  ret

/-- From the entry of the cluster in the FAT, at `es:0x0500`, to the label `.done`. -/
def nextCluster : OnLoader Unit := do
  update fun s => { s with ax := s.vars.cluster }
  update fun s => { s with cx := s.ax }
  update fun s => { s with dx := s.ax }
  update fun s => { s with dx := s.dx >>> 1 }
  update fun s => { s with cx := (s.cx + s.dx) % 65536 }
  update fun s => { s with si := 0x0500 }
  update fun s => { s with si := (s.si + s.cx) % 65536 }
  update fun s => { s with dx := wordAt (fun i => s.mem (linear s.es ((s.si + i) % 65536))) 0 }
  let odd ← gets fun s => s.ax &&& 1
  if odd ≠ 0 then update fun s => { s with dx := s.dx >>> 4 }
  else update fun s => { s with dx := s.dx &&& 0xFFF }

/-- From `.loop` to the jump back there, or behind it. -/
def clusterRound (disk : Disk) (sites : Sites) : OnLoader (Unit ⊕ Unit) := do
  update fun s => { s with ax := s.vars.cluster }
  call sites.addressFromCluster addressFromCluster
  update fun s => { s with cx := 0 }
  update fun s => { s with cx := word (high s.cx) sectorsPerCluster }
  update fun s => { s with bx := s.vars.fileAddress }
  call sites.readCluster (readSectors disk sites)
  nextCluster
  update fun s => { s with vars := { s.vars with cluster := s.dx } }
  update fun s => { s with bx := s.vars.fileAddress }
  update fun s => { s with bx := (s.bx + 0x200) % 65536 }
  update fun s => { s with vars := { s.vars with fileAddress := s.bx } }
  let dx ← gets fun s => s.dx
  pure (if dx < 0x0FF0 then .inl () else .inr ())

/-- There are fewer clusters than this, so a longer run has met one of them again, and never ends as long as the FAT stays
as it is. A file that is loaded over the FAT may end its own chain after more rounds; that is not modelled. -/
def clusterRounds : Nat := 0x0FF0

def loadFile (disk : Disk) (sites : Sites) : OnLoader Nat := do
  update fun s => { s with vars := { s.vars with cluster := s.ax } }
  forever .endless (fun _ => clusterRound disk sites) clusterRounds ()
  ret

/-- `pusha`; nothing here uses `sp` and `bp`, which are pushed too. -/
def pusha : OnLoader Unit := do
  push fun s => s.ax
  push fun s => s.cx
  push fun s => s.dx
  push fun s => s.bx
  push fun _ => 0
  push fun _ => 0
  push fun s => s.si
  push fun s => s.di

def popa : OnLoader Unit := do
  pop fun w s => { s with di := w }
  pop fun w s => { s with si := w }
  pop fun _ s => s
  pop fun _ s => s
  pop fun w s => { s with bx := w }
  pop fun w s => { s with dx := w }
  pop fun w s => { s with cx := w }
  pop fun w s => { s with ax := w }

def loadRootDir (disk : Disk) (sites : Sites) : OnLoader Nat := do
  pusha
  update fun s => { s with ax := 0x0020 }
  mul fun _ => rootDirectoryEntries
  div bytesPerSector
  update fun s => { s with ax := s.cx, cx := s.ax }
  update fun s => { s with ax := 0 }
  update fun s => { s with ax := word (high s.ax) numberOfFATs }
  mul fun _ => sectorsPerFAT
  update fun s => { s with ax := (s.ax + reservedSectors) % 65536 }
  update fun s => { s with vars := { s.vars with dataSector := s.ax } }
  update fun s => { s with vars := { s.vars with dataSector := (s.vars.dataSector + s.cx) % 65536 } }
  call sites.readRootDir (readSectors disk sites)
  popa
  ret

/-! ## The parts of a round -/

section Parts

variable {s t u : Machine Vars} {disk : Disk} {sites : Sites} {back : Nat} {rest : List Nat}

/-- `mul` by one cluster of one sector, and the first data sector added. -/
theorem addressFromCluster_returns (hax : 2 ≤ s.ax) (hsector : s.ax - 2 + s.vars.dataSector < 65536)
    (hs : s.stack = back :: rest) :
    Returns addressFromCluster s back { s with ax := s.ax - 2 + s.vars.dataSector, dx := 0, stack := rest } := by
  have hsub : (s.ax + 65534) % 65536 = s.ax - 2 := by omega
  have hone : word (high 0) sectorsPerCluster = 1 := rfl
  have hmod : (s.ax - 2) % 65536 = s.ax - 2 := by omega
  have hdiv : (s.ax - 2) / 65536 = 0 := by omega
  unfold addressFromCluster mul
  simp only [push_bind, update_bind, pop_bind, hsub, hone, Nat.mul_one, hmod, hdiv, Nat.mod_eq_of_lt hsector]
  exact ret_returns hs

/-- The FAT at `es:0x0500`. -/
def table (s : Machine Vars) (i : Nat) : UInt8 := s.mem (linear s.es (0x0500 + i))

/-- The bytes from `offset` on lie apart from the two bytes with the entry of a cluster. -/
def Apart (offset size c : Nat) : Prop := offset + size ≤ 0x0500 + (c + c / 2) ∨ 0x0500 + (c + c / 2) + 2 ≤ offset

theorem Apart.first {offset size c k : Nat} (h : Apart offset (size * (k + 1)) c) : Apart offset size c := by
  unfold Apart at h ⊢
  rw [Nat.mul_add_one] at h
  omega

theorem Apart.others {offset size c k : Nat} (h : Apart offset (size * (k + 1)) c) :
    Apart (offset + size) (size * k) c := by
  unfold Apart at h ⊢
  rw [Nat.mul_add_one] at h
  omega

/-- Both halves of the decoding give the entry of the table. -/
theorem entry_decoded (bytes : Nat → UInt8) (c : Nat) : entry bytes c =
    if c &&& 1 ≠ 0 then wordAt bytes (c + c / 2) >>> 4 else wordAt bytes (c + c / 2) &&& 0xFFF := by
  rw [Nat.and_one_is_mod]
  rcases Nat.mod_two_eq_zero_or_one c with h | h
  · rw [if_neg (by omega), entry_even bytes h]
    exact (Nat.and_two_pow_sub_one_eq_mod _ 12).symm
  · rw [if_pos (by omega), entry_odd bytes h, Nat.shiftRight_eq_div_pow]

/-- The entry of the cluster is read off the FAT. -/
theorem nextCluster_returns (hcluster : s.vars.cluster ≤ 0xFEF) : ∃ t, Returns nextCluster s () t ∧
    t.dx = entry (table s) s.vars.cluster ∧ t.mem = s.mem ∧ t.es = s.es ∧ t.stack = s.stack ∧ t.vars = s.vars ∧
      t.reads = s.reads ∧ t.transfers = s.transfers := by
  have hhalf : s.vars.cluster >>> 1 = s.vars.cluster / 2 := Nat.shiftRight_eq_div_pow _ 1
  have hoffset : (s.vars.cluster + s.vars.cluster / 2) % 65536 = s.vars.cluster + s.vars.cluster / 2 := by omega
  have hsi : (0x0500 + (s.vars.cluster + s.vars.cluster / 2)) % 65536 =
      0x0500 + (s.vars.cluster + s.vars.cluster / 2) := by omega
  have hword : wordAt (fun i => s.mem (linear s.es
      ((0x0500 + (s.vars.cluster + s.vars.cluster / 2) + i) % 65536))) 0 =
      wordAt (table s) (s.vars.cluster + s.vars.cluster / 2) := by
    have h0 : (0x0500 + (s.vars.cluster + s.vars.cluster / 2) + 0) % 65536 =
        0x0500 + (s.vars.cluster + s.vars.cluster / 2) := by omega
    have h1 : (0x0500 + (s.vars.cluster + s.vars.cluster / 2) + (0 + 1)) % 65536 =
        0x0500 + (s.vars.cluster + s.vars.cluster / 2 + 1) := by omega
    simp only [wordAt, table, h0, h1]
  rw [entry_decoded]
  unfold nextCluster
  simp only [update_bind, gets_bind, hhalf, hoffset, hsi, hword]
  by_cases hodd : s.vars.cluster &&& 1 ≠ 0
  · simp only [if_pos hodd, update_ok]
    exact ⟨_, rfl, rfl, rfl, rfl, rfl, rfl, rfl, rfl⟩
  · simp only [if_neg hodd, update_ok]
    exact ⟨_, rfl, rfl, rfl, rfl, rfl, rfl, rfl, rfl⟩

/-- No five reads in a row fail. -/
def Readable (disk : Disk) : Prop := ∀ n, ∃ k < 5, disk.readFails (n + k) = false

/-- What a round loads: the cluster to `fileAddress`, and nothing else. -/
structure ClusterLoaded (disk : Disk) (s t : Machine Vars) : Prop where
  stack : t.stack = s.stack
  es : t.es = s.es
  driveNumber : t.vars.driveNumber = s.vars.driveNumber
  dataSector : t.vars.dataSector = s.vars.dataSector
  cluster : t.vars.cluster = entry (table s) s.vars.cluster
  fileAddress : t.vars.fileAddress = s.vars.fileAddress + 512
  bx : t.bx = s.vars.fileAddress + 512
  transfers : t.transfers =
    s.transfers ++ [located s (s.vars.cluster - 2 + s.vars.dataSector) s.vars.fileAddress]
  loaded : ∀ j < 512, t.mem (linear s.es (s.vars.fileAddress + j)) =
    disk.sector (located s (s.vars.cluster - 2 + s.vars.dataSector) s.vars.fileAddress) j
  other : ∀ q, (∀ j < 512, q ≠ linear s.es (s.vars.fileAddress + j)) → t.mem q = s.mem q

/-- Loading a cluster leaves the entries that it lies apart from as they are. -/
theorem entry_kept {c offset : Nat} (hhigh : c ≤ 0xFEF) (hfit : offset + 512 < 65536)
    (hfat : Apart offset 512 c) (hes : t.es = s.es)
    (hother : ∀ q, (∀ j < 512, q ≠ linear s.es (offset + j)) → t.mem q = s.mem q) :
    entry (table t) c = entry (table s) c := by
  have hbyte : ∀ i, i = c + c / 2 ∨ i = c + c / 2 + 1 → table t i = table s i := by
    intro i hi
    unfold table
    rw [hes]
    apply hother
    intro j hj
    unfold Apart at hfat
    apply linear_ne <;> omega
  exact entry_congr (hbyte _ (Or.inl rfl)) (hbyte _ (Or.inr rfl))

/-- **A round** loads the cluster and goes on to the next one. -/
theorem clusterRound_returns (sites : Sites) (hread : Readable disk) (hlow : 2 ≤ s.vars.cluster)
    (hhigh : s.vars.cluster ≤ 0xFEF) (hsector : s.vars.cluster - 2 + s.vars.dataSector < 9216)
    (hfit : s.vars.fileAddress + 512 < 65536) (hfat : Apart s.vars.fileAddress 512 s.vars.cluster) : ∃ t,
    Returns (clusterRound disk sites) s (if entry (table s) s.vars.cluster < 0x0FF0 then .inl () else .inr ()) t ∧
      ClusterLoaded disk s t := by
  have haddress := call_returns (s := { s with ax := s.vars.cluster })
    (addressFromCluster_returns (s := { s with ax := s.vars.cluster, stack := sites.addressFromCluster :: s.stack }) hlow
      (Nat.lt_trans hsector (by decide)) rfl)
  have hone : word (high 0) sectorsPerCluster = 1 := rfl
  -- from the machine at the call of `ReadSectors`
  obtain ⟨t, ht, hstack, hkept, htransfers, hloaded, hother⟩ := oneSector_returns sites
    (s := { s with
      ax := s.vars.cluster - 2 + s.vars.dataSector, dx := 0, cx := 1, bx := s.vars.fileAddress
      stack := sites.readCluster :: s.stack })
    (hread _) rfl hsector hfit.le rfl
  have hcall := call_returns (s := { s with
    ax := s.vars.cluster - 2 + s.vars.dataSector, dx := 0, cx := 1, bx := s.vars.fileAddress }) ht
  have hcluster : t.vars.cluster = s.vars.cluster := hkept.cluster
  have hfile : t.vars.fileAddress = s.vars.fileAddress := hkept.fileAddress
  obtain ⟨u, hu, hdx, hmem, hes, hstack', hvars, -, htransfers'⟩ := nextCluster_returns (s := t) (by omega)
  -- the entry is as it was before the cluster was loaded
  have hentry : entry (table t) t.vars.cluster = entry (table s) s.vars.cluster := by
    rw [hcluster]
    exact entry_kept hhigh hfit hfat hkept.es hother
  have hbx : (s.vars.fileAddress + 0x200) % 65536 = s.vars.fileAddress + 512 := by omega
  refine ⟨{ u with
    bx := s.vars.fileAddress + 512
    vars := { u.vars with cluster := u.dx, fileAddress := s.vars.fileAddress + 512 } }, ?_, ?_⟩
  · unfold clusterRound
    rw [update_bind, Returns.bind_iff haddress]
    simp only [update_bind, hone]
    rw [Returns.bind_iff hcall, Returns.bind_iff hu]
    simp only [update_bind, gets_bind, hvars, hfile, hbx, hdx, hentry]
    exact pure_ok.mpr ⟨rfl, rfl⟩
  · refine ⟨hstack'.trans hstack, hes.trans hkept.es, ?_, ?_, hdx.trans hentry, rfl, rfl,
      htransfers'.trans htransfers, ?_, ?_⟩
    · exact (congrArg Vars.driveNumber hvars).trans hkept.driveNumber
    · exact (congrArg Vars.dataSector hvars).trans hkept.dataSector
    · intro j hj
      show u.mem _ = _
      rw [hmem]
      exact hloaded j hj
    · intro q hq
      show u.mem _ = _
      rw [hmem]
      exact hother q hq

end Parts

/-! ## Chains -/

/-- The clusters from `c` on: data clusters whose entries lead from one to the next, and after the last one an entry
from `0xFF0` on. Such a chain comes to no cluster twice. -/
inductive Chain (fat : Nat → Nat) : Nat → List Nat → Prop
  | last {c : Nat} (hlow : 2 ≤ c) (hhigh : c ≤ 0xFEF) (hend : 0x0FF0 ≤ fat c) : Chain fat c [c]
  | next {c : Nat} {cs : List Nat} (hlow : 2 ≤ c) (hhigh : c ≤ 0xFEF) (h : Chain fat (fat c) cs) : Chain fat c (c :: cs)

/-- What `LoadFile` is to do with a chain: the clusters are loaded behind each other, and nothing else is. -/
structure FileLoaded (disk : Disk) (s : Machine Vars) (cs : List Nat) (t : Machine Vars) : Prop where
  transfers : t.transfers = s.transfers ++
    cs.mapIdx fun i c => located s (c - 2 + s.vars.dataSector) (s.vars.fileAddress + 512 * i)
  loaded : ∀ (i : Nat) (h : i < cs.length), ∀ j < 512, t.mem (linear s.es (s.vars.fileAddress + 512 * i + j)) =
    disk.sector (located s (cs[i] - 2 + s.vars.dataSector) (s.vars.fileAddress + 512 * i)) j
  other : ∀ q, (∀ k < 512 * cs.length, q ≠ linear s.es (s.vars.fileAddress + k)) → t.mem q = s.mem q
  bx : t.bx = s.vars.fileAddress + 512 * cs.length
  fileAddress : t.vars.fileAddress = s.vars.fileAddress + 512 * cs.length

section Chains

variable {s t u : Machine Vars} {disk : Disk} {sites : Sites} {fat : Nat → Nat} {c : Nat} {cs : List Nat}

/-- A chain begins with its first cluster. -/
theorem Chain.head_mem (h : Chain fat c cs) : c ∈ cs := by
  cases h with
  | last => exact List.mem_singleton_self c
  | next => exact List.mem_cons_self

/-- A chain has data clusters only. -/
theorem Chain.bounds (h : Chain fat c cs) : ∀ d ∈ cs, 2 ≤ d ∧ d ≤ 0xFEF := by
  induction h with
  | last hlow hhigh _ =>
    intro d hd
    obtain rfl := List.mem_singleton.mp hd
    exact ⟨hlow, hhigh⟩
  | next hlow hhigh _ ih =>
    intro d hd
    rcases List.mem_cons.mp hd with rfl | hd
    · exact ⟨hlow, hhigh⟩
    · exact ih d hd

/-- The first cluster alone. -/
theorem ClusterLoaded.single (h : ClusterLoaded disk s t) : FileLoaded disk s [s.vars.cluster] t := by
  refine ⟨h.transfers, ?_, h.other, h.bx, h.fileAddress⟩
  intro i hi j hj
  obtain rfl : i = 0 := by rwa [List.length_singleton, Nat.lt_one_iff] at hi
  exact h.loaded j hj

/-- The first cluster, and the others behind it. -/
theorem ClusterLoaded.cons (h : ClusterLoaded disk s t) (h' : FileLoaded disk t cs u)
    (hend : s.vars.fileAddress + 512 * (cs.length + 1) < 65536) : FileLoaded disk s (s.vars.cluster :: cs) u := by
  have hlocated : ∀ lba offset, located t lba offset = located s lba offset := by
    intro lba offset
    simp only [located, h.driveNumber, h.es]
  have hoffset : ∀ i, s.vars.fileAddress + 512 + 512 * i = s.vars.fileAddress + 512 * (i + 1) := fun i => by omega
  refine ⟨?_, ?_, ?_, ?_, ?_⟩
  · rw [h'.transfers, h.transfers, List.mapIdx_cons, List.append_assoc, List.singleton_append]
    simp only [hlocated, h.dataSector, h.fileAddress, hoffset, Nat.mul_zero, Nat.add_zero]
  · intro i hi j hj
    cases i with
    | zero =>
      rw [Nat.mul_zero, Nat.add_zero, h'.other, h.loaded j hj, List.getElem_cons_zero]
      intro k hk
      rw [h.es, h.fileAddress]
      apply linear_ne <;> omega
    | succ i =>
      have := h'.loaded i (Nat.lt_of_succ_lt_succ hi) j hj
      rwa [h.es, h.fileAddress, hoffset, h.dataSector, hlocated] at this
  · intro q hq
    rw [List.length_cons] at hq
    rw [h'.other, h.other]
    · exact fun j hj => hq j (by omega)
    · intro k hk
      rw [h.es, h.fileAddress, Nat.add_assoc]
      exact hq _ (by omega)
  · rw [h'.bx, h.fileAddress, List.length_cons]
    omega
  · rw [h'.fileAddress, h.fileAddress, List.length_cons]
    omega

/-- **The loop** follows the chain to its end. -/
theorem loadLoop_returns (sites : Sites) (hread : Readable disk) (h : Chain fat c cs) (hcluster : s.vars.cluster = c)
    (hentry : ∀ d ∈ cs, entry (table s) d = fat d) (hsector : ∀ d ∈ cs, d - 2 + s.vars.dataSector < 9216)
    (hend : s.vars.fileAddress + 512 * cs.length < 65536)
    (hfat : ∀ d ∈ cs, Apart s.vars.fileAddress (512 * cs.length) d) {n : Nat} (hn : cs.length ≤ n) : ∃ t,
    Returns (forever .endless (fun _ => clusterRound disk sites) n ()) s () t ∧ t.stack = s.stack ∧
      FileLoaded disk s cs t := by
  induction h generalizing s n with
  | @last c hlow hhigh hlast =>
    obtain ⟨n, rfl⟩ := Nat.exists_eq_add_of_le' hn
    obtain rfl := hcluster
    have hmem := List.mem_singleton_self s.vars.cluster
    rw [List.length_singleton, Nat.mul_one] at hend hfat
    obtain ⟨t, ht, hloaded⟩ := clusterRound_returns sites hread hlow hhigh (hsector _ hmem) hend (hfat _ hmem)
    rw [hentry _ hmem, if_neg (Nat.not_lt.mpr hlast)] at ht
    exact ⟨t, forever_succ.mpr (Or.inl ht), hloaded.stack, hloaded.single⟩
  | @next c cs hlow hhigh hrest ih =>
    rw [List.length_cons] at hn hend hfat
    have hfits : s.vars.fileAddress + 512 + 512 * cs.length < 65536 := by
      rwa [Nat.mul_add_one, Nat.add_comm (512 * cs.length), ← Nat.add_assoc] at hend
    have hfirst : s.vars.fileAddress + 512 < 65536 := Nat.lt_of_le_of_lt (Nat.le_add_right _ _) hfits
    obtain ⟨n, rfl⟩ := Nat.exists_eq_add_of_le' (Nat.le_of_add_left_le hn)
    obtain rfl := hcluster
    have hnext := (hrest.bounds _ hrest.head_mem).2
    have hmem : s.vars.cluster ∈ s.vars.cluster :: cs := List.mem_cons_self
    obtain ⟨t, ht, hloaded⟩ := clusterRound_returns sites hread hlow hhigh (hsector _ hmem) hfirst (hfat _ hmem).first
    rw [hentry _ hmem, if_pos (Nat.lt_succ_of_le hnext)] at ht
    -- the entries of the other clusters are not overwritten
    have hentry' : ∀ d ∈ cs, entry (table t) d = fat d := by
      intro d hd
      have hd' := List.mem_cons_of_mem s.vars.cluster hd
      rw [← hentry d hd']
      exact entry_kept (hrest.bounds d hd).2 hfirst (hfat d hd').first hloaded.es hloaded.other
    obtain ⟨u, hu, hstack, hfile⟩ := ih (s := t) (hloaded.cluster.trans (hentry _ hmem)) hentry'
      (fun d hd => by rw [hloaded.dataSector]; exact hsector d (List.mem_cons_of_mem _ hd))
      (by rwa [hloaded.fileAddress])
      (fun d hd => by rw [hloaded.fileAddress]; exact (hfat d (List.mem_cons_of_mem _ hd)).others)
      (Nat.le_of_succ_le_succ hn)
    exact ⟨u, forever_succ.mpr (Or.inr ⟨(), t, ht, hu⟩), hstack.trans hloaded.stack, hloaded.cons hfile hend⟩

/-- **`LoadFile`** loads the chain that begins with the cluster in `ax`, and goes back to its caller. -/
theorem loadFile_loads (disk : Disk) (sites : Sites) {back : Nat} {rest : List Nat}
    (hchain : Chain (entry (table s)) s.ax cs) (hread : Readable disk)
    (hsector : ∀ c ∈ cs, (c - 2 + s.vars.dataSector) / sectorsPerTrack / headsPerCylinder < 256)
    (hend : s.vars.fileAddress + 512 * cs.length < 65536)
    (hfat : ∀ c ∈ cs, Apart s.vars.fileAddress (512 * cs.length) c) (hstack : s.stack = back :: rest) :
    ∃ t, Returns (loadFile disk sites) s back t ∧ t.stack = rest ∧ FileLoaded disk s cs t := by
  have hsector' : ∀ c ∈ cs, c - 2 + s.vars.dataSector < 9216 := by
    intro c hc
    have := hsector c hc
    simp only [sectorsPerTrack, headsPerCylinder] at this
    omega
  have hrounds : cs.length ≤ clusterRounds := by
    unfold clusterRounds
    omega
  obtain ⟨t, ht, hstack', hloaded⟩ := loadLoop_returns (s := { s with vars := { s.vars with cluster := s.ax } }) sites
    hread hchain rfl (fun _ _ => rfl) hsector' hend hfat hrounds
  refine ⟨{ t with stack := rest }, ?_, rfl, ?_⟩
  · rw [loadFile, update_bind, Returns.bind_iff ht]
    exact ret_returns (hstack'.trans hstack)
  · exact ⟨hloaded.transfers, hloaded.loaded, hloaded.other, hloaded.bx, hloaded.fileAddress⟩

end Chains

/-- The machine at a call of `LoadFile`: cluster 2 leads to cluster 3, which is the last one. -/
def loading : Machine Vars :=
  { calling 1 with
    ax := 2
    mem := fun q => if q = 0x503 then 0x03 else if q = 0x504 then 0xf0 else if q = 0x505 then 0xff else 0
    vars := { (calling 1).vars with dataSector := 33, fileAddress := 0x7e00 } }

theorem two_clusters_loaded : ∃ t, Returns (loadFile (blank false) sites) loading 0x7d00 t ∧ t.stack = [0x1234] ∧
    FileLoaded (blank false) loading [2, 3] t := by
  have hnext : entry (table loading) 2 = 3 := by decide
  have hlast : 0x0FF0 ≤ entry (table loading) 3 := by decide
  have hchain : Chain (entry (table loading)) 2 [2, 3] :=
    Chain.next (by decide) (by decide) (hnext.symm ▸ Chain.last (by decide) (by decide) hlast)
  exact loadFile_loads (blank false) sites hchain (fun n => ⟨0, by decide, rfl⟩) (by decide) (by decide)
    (by unfold Apart; decide) rfl

/-! ## The tables of the disk -/

section Tables

variable {s : Machine Vars} {disk : Disk} {sites : Sites} {back : Nat} {rest : List Nat}

theorem pusha_returns (s : Machine Vars) : Returns pusha s ()
    { s with stack := s.di :: s.si :: 0 :: 0 :: s.bx :: s.dx :: s.cx :: s.ax :: s.stack } := by
  unfold pusha
  simp only [push_bind]
  exact (update_ok _ _).mpr rfl

theorem popa_returns {di si sp bp bx dx cx ax : Nat}
    (h : s.stack = di :: si :: sp :: bp :: bx :: dx :: cx :: ax :: rest) :
    Returns popa s () { s with di := di, si := si, bx := bx, dx := dx, cx := cx, ax := ax, stack := rest } := by
  unfold popa
  rw [Returns.bind_iff (pop_returns _ h)]
  simp only [pop_bind]
  exact pop_returns _ rfl

end Tables

end Raampjes.Boot
