import Raampjes.Lib.RealMode

/-!
# Reading sectors

`floppy.asm`, with the geometry of `OEM.asm`. The loader's variables and its stack lie apart from the memory that is read
into.

- `lbaToCHS_returns`: the three variables that a sector number is taken apart into;
- `resetFloppy_returns`: the resets end with the first one that succeeds;
- `readRound_reads`, `readRound_fails`: the two ways through the loop;
- `Progress`: what the loop has done after some sectors and some failures;
- `readSectors_ends`: all sectors are read, or the return address is lost with the fifth failure;
- `readSectors_reads_iff`: when the sectors that were asked for are loaded.
-/

namespace Raampjes.Boot

open Progs RealMode

/-! ## The program -/

def sectorsPerTrack : Nat := 18

def headsPerCylinder : Nat := 2

/-- The variables of the loader. -/
structure Vars where
  sectorNumber : Nat
  headNumber : Nat
  cylinderNumber : Nat
  driveNumber : Nat
  dataSector : Nat
  fileAddress : Nat
  cluster : Nat

/-- The addresses behind the calls of the loader. -/
structure Sites where
  lbaToCHS : Nat
  resetFloppy : Nat
  readFAT : Nat
  addressFromCluster : Nat
  readCluster : Nat
  readRootDir : Nat

abbrev OnLoader (α : Type) := OnMachine Vars α

def lbaToCHS : OnLoader Nat := do
  push fun s => s.ax
  update fun s => { s with dx := 0 }
  div sectorsPerTrack
  update fun s => { s with dx := word (high s.dx) (low (low s.dx + 1)) }
  update fun s => { s with vars := { s.vars with sectorNumber := low s.dx } }
  update fun s => { s with dx := 0 }
  div headsPerCylinder
  update fun s => { s with vars := { s.vars with headNumber := low s.dx } }
  update fun s => { s with vars := { s.vars with cylinderNumber := low s.ax } }
  pop fun w s => { s with ax := w }
  ret

/-- From `ResetFloppy` to the jump back there, or behind it. -/
def resetRound (disk : Disk) : OnLoader (Unit ⊕ Unit) := do
  update fun s => { s with ax := 0 }
  int13 disk
  let failed ← gets fun s => s.cf
  pure (if failed then .inl () else .inr ())

/-- The loop ends with the first reset that succeeds. -/
def resetFloppy (disk : Disk) : OnLoader Nat := do
  let n ← gets fun s => s.resets
  forever .endless (fun _ => resetRound disk) (Nat.find (disk.recovers n) + 1) ()
  ret

/-- `dec r`. -/
def dec (w : Nat) : Nat := (w + 65535) % 65536

/-- From `ReadLoop` to the command to the BIOS. -/
def prepare (sites : Sites) : OnLoader Unit := do
  push fun s => s.ax
  push fun s => s.cx
  call sites.lbaToCHS lbaToCHS
  update fun s => { s with ax := word 2 (low s.ax) }
  update fun s => { s with ax := word (high s.ax) 1 }
  update fun s => { s with cx := word s.vars.cylinderNumber (low s.cx) }
  update fun s => { s with cx := word (high s.cx) s.vars.sectorNumber }
  update fun s => { s with dx := word s.vars.headNumber (low s.dx) }
  update fun s => { s with dx := word (high s.dx) (low s.vars.driveNumber) }

/-- From the label `Error` on. -/
def readError (disk : Disk) (sites : Sites) : OnLoader (Unit ⊕ Unit) := do
  call sites.resetFloppy (resetFloppy disk)
  pop fun w s => { s with cx := w }
  update fun s => { s with di := dec s.di, zf := dec s.di = 0 }
  -- the flag is still that of `dec di` at the jump
  pop fun w s => { s with ax := w }
  let zero ← gets fun s => s.zf
  pure (if zero then .inr () else .inl ())

/-- From `ReadLoop` to a jump back there, or to `finished`. -/
def readRound (disk : Disk) (sites : Sites) : OnLoader (Unit ⊕ Unit) := do
  prepare sites
  int13 disk
  let failed ← gets fun s => s.cf
  if failed then readError disk sites
  else do
    update fun s => { s with bx := (s.bx + 0x200) % 65536 }
    pop fun w s => { s with cx := w }
    update fun s => { s with cx := dec s.cx, zf := dec s.cx = 0 }
    let cx ← gets fun s => s.cx
    if cx = 0 then pure (.inr ())
    else do
      pop fun w s => { s with ax := w }
      pure (.inl ())

/-- Each round counts `cx` down or `di`. -/
def readRounds : Nat := 65536 + 5

def readSectors (disk : Disk) (sites : Sites) : OnLoader Nat := do
  update fun s => { s with di := 5 }
  forever .endless (fun _ => readRound disk sites) readRounds ()
  pop fun w s => { s with ax := w }
  ret

/-! ## The parts of a round -/

section Parts

variable {s t u : Machine Vars} {back : Nat} {rest : List Nat} {disk : Disk} {sites : Sites}

/-- A sector number taken apart. -/
def addressed (s : Machine Vars) (rest : List Nat) : Machine Vars :=
  { s with
    dx := s.ax / 18 % 2
    stack := rest
    vars := { s.vars with
      sectorNumber := s.ax % 18 + 1, headNumber := s.ax / 18 % 2, cylinderNumber := s.ax / 18 / 2 % 256 } }

theorem lbaToCHS_returns (hax : s.ax < 65536) (hs : s.stack = back :: rest) :
    Returns lbaToCHS s back (addressed s rest) := by
  unfold lbaToCHS
  rw [push_bind, update_bind]
  rw [Returns.bind_iff (div_returns (by decide) (by simp only [sectorsPerTrack]; omega))]
  rw [update_bind, update_bind, update_bind]
  rw [Returns.bind_iff (div_returns (by decide) (by simp only [sectorsPerTrack, headsPerCylinder]; omega))]
  rw [update_bind, update_bind, Returns.bind_iff (pop_returns _ rfl)]
  have hsector : low (word (high (s.ax % 18)) (low (low (s.ax % 18) + 1))) = s.ax % 18 + 1 := by
    simp only [low, high, word]
    omega
  have hhead : low (s.ax / 18 % 2) = s.ax / 18 % 2 := by
    simp only [low]
    omega
  simp only [sectorsPerTrack, headsPerCylinder, Nat.mul_zero, Nat.zero_add, hsector, hhead]
  exact ret_returns hs

/-- Resets leave everything as it is but `ax`, the carry and their own count. -/
structure Reset (s t : Machine Vars) : Prop where
  bx : t.bx = s.bx
  di : t.di = s.di
  si : t.si = s.si
  es : t.es = s.es
  mem : t.mem = s.mem
  vars : t.vars = s.vars
  reads : t.reads = s.reads
  transfers : t.transfers = s.transfers

theorem Reset.trans (h : Reset s t) (h' : Reset t u) : Reset s u :=
  ⟨h'.bx.trans h.bx, h'.di.trans h.di, h'.si.trans h.si, h'.es.trans h.es, h'.mem.trans h.mem, h'.vars.trans h.vars,
    h'.reads.trans h.reads, h'.transfers.trans h.transfers⟩

theorem resetRound_returns (disk : Disk) (s : Machine Vars) : ∃ t,
    Returns (resetRound disk) s (if disk.resetFails s.resets then .inl () else .inr ()) t ∧ t.resets = s.resets + 1 ∧
      t.stack = s.stack ∧ Reset s t := by
  refine ⟨{ s with
    cf := disk.resetFails s.resets, ax := disk.status (s.reads + s.resets) % 65536, resets := s.resets + 1 }, ?_, rfl, rfl,
    ⟨rfl, rfl, rfl, rfl, rfl, rfl, rfl, rfl⟩⟩
  unfold resetRound
  simp only [update_bind]
  rw [Returns.bind_iff (int13_reset disk (show high 0 = 0 by decide)), Returns.bind_iff ((gets_ok _).mpr ⟨rfl, rfl⟩)]
  exact pure_ok.mpr ⟨rfl, rfl⟩

/-- The loop of `ResetFloppy` ends when the BIOS succeeds. -/
theorem resetFloppy_returns (disk : Disk) (hs : s.stack = back :: rest) : ∃ t,
    Returns (resetFloppy disk) s back t ∧ t.stack = rest ∧ Reset s t := by
  have hfind := Nat.find_spec (disk.recovers s.resets)
  have hfails : ∀ i, i < Nat.find (disk.recovers s.resets) - s.resets → disk.resetFails (s.resets + i) = true := by
    intro i hi
    have := Nat.find_min (disk.recovers s.resets) (m := s.resets + i) (by omega)
    simpa using this
  have hloop : ∃ t,
      Returns (forever .endless (fun _ => resetRound disk) (Nat.find (disk.recovers s.resets) + 1) ()) s () t ∧
        t.stack = s.stack ∧ Reset s t := forever_chain (f := fun _ => ())
    (I := fun i t => t.resets = s.resets + i ∧ t.stack = s.stack ∧ Reset s t)
    (J := fun t => t.stack = s.stack ∧ Reset s t) (k := Nat.find (disk.recovers s.resets) - s.resets)
    (fun i t hi ⟨hcount, hstack, hreset⟩ => by
      obtain ⟨u, hu, hcount', hstack', hreset'⟩ := resetRound_returns disk t
      rw [hcount, hfails i hi, if_pos rfl] at hu
      exact ⟨u, hu, by rw [hcount', hcount, Nat.add_assoc], hstack'.trans hstack, hreset.trans hreset'⟩)
    (fun t ⟨hcount, hstack, hreset⟩ => by
      obtain ⟨u, hu, -, hstack', hreset'⟩ := resetRound_returns disk t
      rw [hcount, Nat.add_sub_cancel' hfind.1, hfind.2, if_neg Bool.false_ne_true] at hu
      exact ⟨u, hu, hstack'.trans hstack, hreset.trans hreset'⟩)
    (by omega) ⟨rfl, rfl, ⟨rfl, rfl, rfl, rfl, rfl, rfl, rfl, rfl⟩⟩
  obtain ⟨t, ht, hstack, hreset⟩ := hloop
  refine ⟨{ t with stack := rest }, ?_, rfl, ⟨hreset.1, hreset.2, hreset.3, hreset.4, hreset.5, hreset.6, hreset.7,
    hreset.8⟩⟩
  unfold resetFloppy
  rw [Returns.bind_iff ((gets_ok _).mpr ⟨rfl, rfl⟩), Returns.bind_iff ht]
  exact ret_returns (hstack.trans hs)

/-- The registers as the BIOS gets them. -/
def prepared (s : Machine Vars) : Machine Vars :=
  { addressed s (s.cx :: s.ax :: s.stack) with
    ax := word 2 1
    cx := word (s.ax / 18 / 2 % 256) (s.ax % 18 + 1)
    dx := word (s.ax / 18 % 2) (low s.vars.driveNumber) }

/-- Both bytes of a word can be replaced one after the other. -/
theorem word_high {h : Nat} (hh : h < 256) (w l : Nat) : word (high (word h (low w))) l = word h l := by
  simp only [word, high, low]
  omega

theorem prepare_returns (sites : Sites) (hax : s.ax < 65536) : Returns (prepare sites) s () (prepared s) := by
  unfold prepare
  simp only [push_bind]
  have hcall := lbaToCHS_returns (s := { s with stack := sites.lbaToCHS :: s.cx :: s.ax :: s.stack }) hax rfl
  rw [Returns.bind_iff (call_returns (s := { s with stack := s.cx :: s.ax :: s.stack }) hcall)]
  simp only [update_bind, addressed, update_ok]
  rw [word_high (by decide), word_high (Nat.mod_lt _ (by decide)), word_high (by omega)]
  rfl

/-- Sector `lba`, put to `offset`. -/
def located (s : Machine Vars) (lba offset : Nat) : Transfer :=
  ⟨low s.vars.driveNumber, lba / sectorsPerTrack / headsPerCylinder, lba / sectorsPerTrack % headsPerCylinder,
    lba % sectorsPerTrack + 1, s.es, offset⟩

/-- What `LBAToCHS` makes of it: the cylinder is a byte. -/
def truncated (t : Transfer) : Transfer := { t with cylinder := low t.cylinder }

theorem asked_prepared (s : Machine Vars) : asked (prepared s) = truncated (located s s.ax s.bx) := by
  have hsmall : ∀ h l, h < 256 → l < 256 → high (word h l) = h ∧ low (word h l) = l := by
    intro h l hh hl
    simp only [high, low, word]
    omega
  obtain ⟨h1, h2⟩ := hsmall (s.ax / 18 / 2 % 256) (s.ax % 18 + 1) (by omega) (by omega)
  obtain ⟨h3, h4⟩ := hsmall (s.ax / 18 % 2) (low s.vars.driveNumber) (by omega) (Nat.mod_lt _ (by decide))
  have h5 : (s.ax % 18 + 1) / 64 = 0 := by omega
  have h6 : (s.ax % 18 + 1) % 64 = s.ax % 18 + 1 := by omega
  simp only [asked, prepared, h1, h2, h3, h4, h5, h6, Nat.mul_zero, Nat.add_zero]
  rfl

/-- What reading sectors leaves as it is. -/
structure Kept (s t : Machine Vars) : Prop where
  si : t.si = s.si
  es : t.es = s.es
  driveNumber : t.vars.driveNumber = s.vars.driveNumber
  dataSector : t.vars.dataSector = s.vars.dataSector
  fileAddress : t.vars.fileAddress = s.vars.fileAddress
  cluster : t.vars.cluster = s.vars.cluster

theorem Kept.trans (h : Kept s t) (h' : Kept t u) : Kept s u :=
  ⟨h'.si.trans h.si, h'.es.trans h.es, h'.driveNumber.trans h.driveNumber, h'.dataSector.trans h.dataSector,
    h'.fileAddress.trans h.fileAddress, h'.cluster.trans h.cluster⟩

theorem Reset.kept (h : Reset s t) : Kept s t :=
  ⟨h.si, h.es, by rw [h.vars], by rw [h.vars], by rw [h.vars], by rw [h.vars]⟩

/-- The machine after the command to the BIOS. -/
def answered (disk : Disk) (s : Machine Vars) : Machine Vars :=
  { prepared s with
    cf := disk.readFails s.reads
    ax := disk.status (s.reads + s.resets) % 65536
    reads := s.reads + 1
    mem := place s.es s.bx
      (if disk.readFails s.reads then disk.torn s.reads else disk.sector (truncated (located s s.ax s.bx))) s.mem
    transfers := if disk.readFails s.reads then s.transfers else s.transfers ++ [truncated (located s s.ax s.bx)] }

theorem int13_prepared (disk : Disk) (s : Machine Vars) : Returns (int13 disk) (prepared s) () (answered disk s) := by
  unfold answered
  cases hf : disk.readFails s.reads with
  | true => exact int13_fails rfl hf
  | false =>
    rw [← asked_prepared]
    exact int13_reads rfl hf

/-- The machine after a round whose read succeeds: `ax` stays on the stack after the last sector. -/
def afterRead (disk : Disk) (s : Machine Vars) : Machine Vars :=
  { answered disk s with
    bx := (s.bx + 0x200) % 65536
    cx := dec s.cx
    zf := dec s.cx = 0
    ax := if dec s.cx = 0 then (answered disk s).ax else s.ax
    stack := if dec s.cx = 0 then s.ax :: s.stack else s.stack }

theorem afterRead_di (disk : Disk) (s : Machine Vars) : (afterRead disk s).di = s.di := by
  simp only [afterRead, answered, prepared, addressed]

theorem afterRead_kept (disk : Disk) (s : Machine Vars) : Kept s (afterRead disk s) := by
  constructor <;> simp only [afterRead, answered, prepared, addressed]

/-- In front of the last sector both registers are as before the round. -/
theorem afterRead_ax (disk : Disk) {s : Machine Vars} (h : dec s.cx ≠ 0) :
    (afterRead disk s).ax = s.ax ∧ (afterRead disk s).stack = s.stack := by
  simp only [afterRead, if_neg h, and_self]

theorem afterRead_last (disk : Disk) {s : Machine Vars} (h : dec s.cx = 0) :
    (afterRead disk s).stack = s.ax :: s.stack := by
  simp only [afterRead, if_pos h]

theorem answered_stack (disk : Disk) (s : Machine Vars) : (answered disk s).stack = s.cx :: s.ax :: s.stack := rfl

theorem readRound_reads (sites : Sites) (hax : s.ax < 65536) (hok : disk.readFails s.reads = false) :
    Returns (readRound disk sites) s (if dec s.cx = 0 then .inr () else .inl ()) (afterRead disk s) := by
  have hcf : (answered disk s).cf = false := hok
  rw [readRound, Returns.bind_iff (prepare_returns sites hax), Returns.bind_iff (int13_prepared disk s), gets_bind, hcf,
    if_neg Bool.false_ne_true]
  simp only [update_bind, answered_stack, pop_bind, gets_bind]
  by_cases h0 : dec s.cx = 0
  · simp only [if_pos h0, afterRead]
    exact pure_ok.mpr ⟨rfl, rfl⟩
  · simp only [if_neg h0, afterRead, pop_bind]
    exact pure_ok.mpr ⟨rfl, rfl⟩

/-- A round whose read fails changes nothing but the count of failures, and what the BIOS has left in memory. -/
theorem readRound_fails (sites : Sites) (hax : s.ax < 65536) (hf : disk.readFails s.reads = true) : ∃ t,
    Returns (readRound disk sites) s (if dec s.di = 0 then .inr () else .inl ()) t ∧ t.ax = s.ax ∧ t.bx = s.bx ∧
      t.cx = s.cx ∧ t.di = dec s.di ∧ t.stack = s.stack ∧ t.reads = s.reads + 1 ∧ t.transfers = s.transfers ∧
      t.mem = place s.es s.bx (disk.torn s.reads) s.mem ∧ Kept s t := by
  have hcf : (answered disk s).cf = true := hf
  obtain ⟨u, hu, hstack, hreset⟩ := resetFloppy_returns
    (s := { answered disk s with stack := sites.resetFloppy :: s.cx :: s.ax :: s.stack }) disk rfl
  have hcall : Returns (call sites.resetFloppy (resetFloppy disk)) (answered disk s) () u := call_returns hu
  have hdi : u.di = s.di := hreset.di
  refine ⟨{ u with cx := s.cx, ax := s.ax, di := dec s.di, zf := dec s.di = 0, stack := s.stack }, ?_, rfl, hreset.bx, rfl,
    rfl, rfl, hreset.reads, ?_, ?_, ?_⟩
  · rw [readRound, Returns.bind_iff (prepare_returns sites hax), Returns.bind_iff (int13_prepared disk s), gets_bind, hcf,
      if_pos rfl, readError, Returns.bind_iff hcall, Returns.bind_iff (pop_returns _ hstack)]
    simp only [update_bind, pop_bind, gets_bind, hdi]
    refine pure_ok.mpr ⟨?_, rfl⟩
    simp only [decide_eq_true_eq]
  · exact hreset.transfers.trans (if_pos hf)
  · refine hreset.mem.trans ?_
    show place s.es s.bx _ s.mem = _
    rw [if_pos hf]
  · have hkept : Kept s u := by
      refine Kept.trans ?_ hreset.kept
      exact ⟨rfl, rfl, rfl, rfl, rfl, rfl⟩
    exact ⟨hkept.si, hkept.es, hkept.driveNumber, hkept.dataSector, hkept.fileAddress, hkept.cluster⟩

end Parts

/-! ## The loop -/

section Loop

variable {s t u : Machine Vars} {disk : Disk} {sites : Sites} {ok e : Nat}

/-- After so many sectors and so many failures: each of the sectors is the one that the call began with. -/
structure Progress (disk : Disk) (s t : Machine Vars) (ok e : Nat) : Prop where
  bx : t.bx = (s.bx + 512 * ok) % 65536
  cx : t.cx = s.cx - ok
  di : t.di = 5 - e
  reads : t.reads = s.reads + (ok + e)
  errors : fails disk s.reads (ok + e) = e
  transfers : t.transfers =
    s.transfers ++ (List.range ok).map fun i => truncated (located s s.ax (s.bx + 512 * i))
  loaded : ∀ i < ok, ∀ j < 512, t.mem (linear s.es (s.bx + 512 * i + j)) =
    disk.sector (truncated (located s s.ax (s.bx + 512 * i))) j
  other : ∀ q, (∀ k < 512 * s.cx, q ≠ linear s.es (s.bx + k)) → t.mem q = s.mem q
  kept : Kept s t

theorem dec_pos {w : Nat} (h : 0 < w) (hw : w ≤ 65536) : dec w = w - 1 := by
  unfold dec
  omega

theorem Kept.located (h : Kept s t) (lba offset : Nat) : located t lba offset = located s lba offset := by
  simp only [Boot.located, h.driveNumber, h.es]

/-- A place that is written within the destination leaves what lies outside of it. -/
theorem Progress.outside (h : Progress disk s t ok e) (hok : ok < s.cx) (bytes : Nat → UInt8) {q : Nat}
    (hq : ∀ k < 512 * s.cx, q ≠ linear s.es (s.bx + k)) : place s.es (s.bx + 512 * ok) bytes t.mem q = s.mem q := by
  rw [place_other, h.other q hq]
  intro j hj
  rw [Nat.add_assoc]
  exact hq _ (by omega)

/-- The sectors loaded before lie outside of it too. -/
theorem Progress.before (h : Progress disk s t ok e) (hbx : s.bx + 512 * s.cx ≤ 65536) (hok : ok < s.cx)
    (bytes : Nat → UInt8) {i j : Nat} (hi : i < ok) (hj : j < 512) :
    place s.es (s.bx + 512 * ok) bytes t.mem (linear s.es (s.bx + 512 * i + j)) =
      disk.sector (truncated (Boot.located s s.ax (s.bx + 512 * i))) j := by
  rw [place_other, h.loaded i hi j hj]
  intro k hk
  apply linear_ne <;> omega

/-- **One more sector.** -/
theorem Progress.read (h : Progress disk s t ok e) (hax : t.ax = s.ax) (hbx : s.bx + 512 * s.cx ≤ 65536) (hok : ok < s.cx)
    (hread : disk.readFails t.reads = false) : Progress disk s (afterRead disk t) (ok + 1) e := by
  have hoffset : t.bx = s.bx + 512 * ok := by
    rw [h.bx]
    omega
  have hsector : truncated (located t t.ax t.bx) = truncated (located s s.ax (s.bx + 512 * ok)) := by
    rw [h.kept.located, hax, hoffset]
  have hmem : (afterRead disk t).mem =
      place s.es (s.bx + 512 * ok) (disk.sector (truncated (located s s.ax (s.bx + 512 * ok)))) t.mem := by
    show place t.es t.bx _ t.mem = _
    rw [hread, if_neg Bool.false_ne_true, hsector, h.kept.es, hoffset]
  have htransfers : (afterRead disk t).transfers = t.transfers ++ [truncated (located s s.ax (s.bx + 512 * ok))] := by
    show (if disk.readFails t.reads then _ else _) = _
    rw [hread, if_neg Bool.false_ne_true, hsector]
  rw [h.reads] at hread
  refine ⟨?_, ?_, (afterRead_di disk t).trans h.di, ?_, ?_, ?_, ?_, ?_, h.kept.trans (afterRead_kept disk t)⟩
  · show (t.bx + 0x200) % 65536 = _
    rw [hoffset]
    omega
  · show dec t.cx = _
    rw [h.cx, dec_pos (by omega) (by omega)]
    omega
  · show t.reads + 1 = _
    rw [h.reads]
    omega
  · rw [Nat.add_right_comm, fails, hread, if_neg Bool.false_ne_true]
    exact h.errors
  · rw [htransfers, h.transfers, List.range_succ, List.map_append, List.map_singleton, List.append_assoc]
  · intro i hi j hj
    rw [hmem]
    rcases Nat.lt_succ_iff_lt_or_eq.mp hi with hi | rfl
    · exact h.before hbx hok _ hi hj
    · exact place_here _ _ _ _ hj
  · intro q hq
    rw [hmem]
    exact h.outside hok _ hq

/-- **One more failure.** -/
theorem Progress.fail (h : Progress disk s t ok e) (hbx : s.bx + 512 * s.cx ≤ 65536) (hok : ok < s.cx) (he : e < 5)
    (hfail : disk.readFails t.reads = true) (hb : u.bx = t.bx) (hc : u.cx = t.cx) (hd : u.di = dec t.di)
    (hr : u.reads = t.reads + 1) (ht : u.transfers = t.transfers)
    (hm : u.mem = place t.es t.bx (disk.torn t.reads) t.mem) (hk : Kept t u) : Progress disk s u ok (e + 1) := by
  have hoffset : t.bx = s.bx + 512 * ok := by
    rw [h.bx]
    omega
  rw [h.kept.es, hoffset] at hm
  have hcount := h.reads
  refine ⟨hb.trans h.bx, hc.trans h.cx, ?_, ?_, ?_, ht.trans h.transfers, ?_, ?_, h.kept.trans hk⟩
  · rw [hd, h.di, dec_pos (by omega) (by omega)]
    omega
  · rw [hr, hcount]
    omega
  · rw [hcount] at hfail
    rw [← Nat.add_assoc, fails, hfail, if_pos rfl, h.errors]
  · intro i hi j hj
    rw [hm]
    exact h.before hbx hok _ hi hj
  · intro q hq
    rw [hm]
    exact h.outside hok _ hq

/-- **The loop** ends with the last sector, or with the fifth failure. -/
theorem readLoop_returns (sites : Sites) (hs : s.ax < 65536) (hbx : s.bx + 512 * s.cx ≤ 65536) (n : Nat)
    (h : Progress disk s t ok e) (hax : t.ax = s.ax) (hstack : t.stack = s.stack) (hok : ok < s.cx) (he : e < 5)
    (hn : s.cx - ok + (5 - e) ≤ n) : ∃ u, Returns (forever .endless (fun _ => readRound disk sites) n ()) t () u ∧
      ((∃ e' < 5, Progress disk s u s.cx e' ∧ u.stack = s.ax :: s.stack) ∨
        ∃ ok' < s.cx, Progress disk s u ok' 5 ∧ u.stack = s.stack) := by
  induction n generalizing t ok e with
  | zero => omega
  | succ n ih =>
    cases hread : disk.readFails t.reads with
    | false =>
      have hround := readRound_reads (s := t) sites (hax ▸ hs) hread
      have hnext := h.read hax hbx hok hread
      have hdec : dec t.cx = s.cx - (ok + 1) := hnext.cx
      by_cases hlast : ok + 1 = s.cx
      · have h0 : dec t.cx = 0 := by omega
        rw [if_pos h0] at hround
        refine ⟨_, forever_succ.mpr (Or.inl hround), Or.inl ⟨e, he, hlast ▸ hnext, ?_⟩⟩
        rw [afterRead_last disk h0, hax, hstack]
      · have h0 : dec t.cx ≠ 0 := by omega
        rw [if_neg h0] at hround
        obtain ⟨ha, hst⟩ := afterRead_ax disk h0
        obtain ⟨u, hu, hend⟩ := ih hnext (ha.trans hax) (hst.trans hstack) (by omega) he (by omega)
        exact ⟨u, forever_succ.mpr (Or.inr ⟨(), _, hround, hu⟩), hend⟩
    | true =>
      obtain ⟨v, hround, ha, hb, hc, hd, hst, hr, ht, hm, hk⟩ := readRound_fails (s := t) sites (hax ▸ hs) hread
      have hnext := h.fail hbx hok he hread hb hc hd hr ht hm hk
      have hdec : dec t.di = 5 - (e + 1) := hd.symm.trans hnext.di
      by_cases hlast : e + 1 = 5
      · have h0 : dec t.di = 0 := by omega
        rw [if_pos h0] at hround
        exact ⟨v, forever_succ.mpr (Or.inl hround), Or.inr ⟨ok, hok, hlast ▸ hnext, hst.trans hstack⟩⟩
      · have h0 : dec t.di ≠ 0 := by omega
        rw [if_neg h0] at hround
        obtain ⟨u, hu, hend⟩ := ih hnext (ha.trans hax) (hst.trans hstack) hok (by omega) (by omega)
        exact ⟨u, forever_succ.mpr (Or.inr ⟨(), _, hround, hu⟩), hend⟩

theorem Progress.start (disk : Disk) (hbx : s.bx < 65536) : Progress disk s { s with di := 5 } 0 0 := by
  refine ⟨(Nat.mod_eq_of_lt hbx).symm, rfl, rfl, rfl, rfl, ?_, ?_, fun _ _ => rfl, ⟨rfl, rfl, rfl, rfl, rfl, rfl⟩⟩
  · exact (List.append_nil _).symm
  · exact fun i hi => absurd hi (Nat.not_lt_zero i)

/-- At most four reads fail during the call: the sectors asked for and four more reads hold no fifth failure. -/
def FewErrors (disk : Disk) (s : Machine Vars) : Prop := fails disk s.reads (s.cx + 4) ≤ 4

/-- **`ReadSectors` ends** with all sectors read and goes back to its caller, or, after the fifth failure, goes where the
caller's own stack says. -/
theorem readSectors_ends (disk : Disk) (sites : Sites) (hs : s.ax < 65536) (hcx : 1 ≤ s.cx)
    (hbx : s.bx + 512 * s.cx ≤ 65536) {back : Nat} {rest : List Nat} (hstack : s.stack = back :: rest) :
    (FewErrors disk s ∧ ∃ t e, Returns (readSectors disk sites) s back t ∧ t.stack = rest ∧ t.ax = s.ax ∧
      Progress disk s t s.cx e) ∨
    (¬ FewErrors disk s ∧ ∀ r t, Returns (readSectors disk sites) s r t → rest = r :: t.stack) := by
  obtain ⟨u, hu, hend⟩ := readLoop_returns sites hs hbx readRounds (Progress.start disk (by omega)) rfl rfl hcx (by decide)
    (by rw [readRounds]; omega)
  rcases hend with ⟨e, he, hprogress, hu'⟩ | ⟨ok, hok, hprogress, hu'⟩
  · left
    refine ⟨?_, { u with ax := s.ax, stack := rest }, e, ?_, rfl, rfl, ?_⟩
    · have := fails_add_le disk s.reads (s.cx + e) (4 - e)
      rw [hprogress.errors] at this
      rw [FewErrors, show s.cx + 4 = s.cx + e + (4 - e) by omega]
      omega
    · unfold readSectors
      rw [update_bind, Returns.bind_iff hu, Returns.bind_iff (pop_returns _ hu')]
      exact ret_returns (s := { u with ax := s.ax, stack := s.stack }) hstack
    · obtain ⟨h1, h2, h3, h4, h5, h6, h7, h8, h9⟩ := hprogress
      exact ⟨h1, h2, h3, h4, h5, h6, h7, h8, ⟨h9.1, h9.2, h9.3, h9.4, h9.5, h9.6⟩⟩
  · right
    refine ⟨fun hfew => ?_, fun r t ht => ?_⟩
    · have := fails_mono disk s.reads (ok + 5) (s.cx + 4 - (ok + 5))
      rw [hprogress.errors, show ok + 5 + (s.cx + 4 - (ok + 5)) = s.cx + 4 by omega] at this
      rw [FewErrors] at hfew
      omega
    · -- the address of the caller is popped as if it were `ax`
      unfold readSectors at ht
      rw [update_bind, Returns.bind_iff hu, Returns.bind_iff (pop_returns _ (hu'.trans hstack))] at ht
      unfold Returns ret at ht
      cases rest with
      | nil => cases ht
      | cons w rest =>
        cases ht
        rfl

/-- `ReadSectors` goes back to its caller with the stack as it was before the call, and unless more than four reads fail
it loads the consecutive sectors, in order. -/
def ReadsSectors (disk : Disk) (sites : Sites) (s : Machine Vars) : Prop :=
  ∃ back t, Returns (readSectors disk sites) s back t ∧ s.stack = back :: t.stack ∧
    (FewErrors disk s →
      t.transfers = s.transfers ++ (List.range s.cx).map (fun i => located s (s.ax + i) (s.bx + 512 * i)) ∧
      ∀ i < s.cx, ∀ j < 512, t.mem (linear s.es (s.bx + 512 * i + j)) =
        disk.sector (located s (s.ax + i) (s.bx + 512 * i)) j)

theorem truncated_eq {t : Transfer} (h : t.cylinder < 256) : truncated t = t := by
  unfold truncated low
  rw [Nat.mod_eq_of_lt h]

/-- One sector is loaded when no five reads in a row fail. -/
theorem oneSector_returns (sites : Sites) (hread : ∃ k < 5, disk.readFails (s.reads + k) = false) (hcx : s.cx = 1)
    (hax : s.ax < 9216) (hbx : s.bx + 512 ≤ 65536) {back : Nat} {rest : List Nat} (hstack : s.stack = back :: rest) :
    ∃ t, Returns (readSectors disk sites) s back t ∧ t.stack = rest ∧ Kept s t ∧
      t.transfers = s.transfers ++ [located s s.ax s.bx] ∧
      (∀ j < 512, t.mem (linear s.es (s.bx + j)) = disk.sector (located s s.ax s.bx) j) ∧
      ∀ q, (∀ j < 512, q ≠ linear s.es (s.bx + j)) → t.mem q = s.mem q := by
  have hsector : truncated (located s s.ax s.bx) = located s s.ax s.bx := by
    apply truncated_eq
    simp only [located, sectorsPerTrack, headsPerCylinder]
    omega
  rcases readSectors_ends disk sites (Nat.lt_trans hax (by decide)) hcx.ge (by omega) hstack with
    ⟨-, t, e, ht, hrest, -, hprogress⟩ | ⟨hmany, -⟩
  · have htransfers := hprogress.transfers
    have hloaded := hprogress.loaded
    have hother := hprogress.other
    rw [hcx] at htransfers hloaded hother
    refine ⟨t, ht, hrest, hprogress.kept, ?_, fun j hj => ?_, hother⟩
    · rw [htransfers, List.range_one, List.map_singleton, Nat.mul_zero, Nat.add_zero, hsector]
    · have := hloaded 0 Nat.one_pos j hj
      rwa [Nat.mul_zero, Nat.add_zero, hsector] at this
  · rw [FewErrors, hcx] at hmany
    exact absurd (Nat.le_of_lt_succ (fails_lt hread)) hmany

/-- Only the first of the sectors asked for is ever loaded. -/
theorem reads_sectors_iff (disk : Disk) (sites : Sites) (hs : s.ax < 65536) (hcx : 1 ≤ s.cx)
    (hbx : s.bx + 512 * s.cx ≤ 65536) {back : Nat} {rest : List Nat} (hstack : s.stack = back :: rest) :
    ReadsSectors disk sites s ↔
      s.cx = 1 ∧ s.ax / sectorsPerTrack / headsPerCylinder < 256 ∧ FewErrors disk s := by
  rcases readSectors_ends disk sites hs hcx hbx hstack with ⟨hfew, t, e, ht, hrest, hax, hprogress⟩ | ⟨hmany, hjump⟩
  · constructor
    · rintro ⟨back', t', ht', -, hloads⟩
      obtain ⟨rfl, rfl⟩ := ht.unique ht'
      have htransfers := (hloads hfew).1
      rw [hprogress.transfers] at htransfers
      have hsame := List.map_inj_left.mp (List.append_cancel_left htransfers)
      have hfirst := congrArg Transfer.cylinder (hsame 0 (List.mem_range.mpr hcx))
      have hcx1 : s.cx = 1 := by
        by_contra hne
        -- the second sector has another number on its track
        have hsecond := congrArg Transfer.sector (hsame 1 (List.mem_range.mpr (by omega)))
        simp only [truncated, located, sectorsPerTrack] at hsecond
        omega
      refine ⟨hcx1, ?_, hfew⟩
      simp only [truncated, located, low, Nat.add_zero] at hfirst
      omega
    · rintro ⟨hcx1, hcylinder, -⟩
      have hsector : ∀ i < s.cx, truncated (located s s.ax (s.bx + 512 * i)) = located s (s.ax + i) (s.bx + 512 * i) := by
        intro i hi
        obtain rfl : i = 0 := by omega
        exact truncated_eq hcylinder
      refine ⟨back, t, ht, hrest ▸ hstack, fun _ => ⟨?_, fun i hi j hj => ?_⟩⟩
      · rw [hprogress.transfers]
        congr 1
        exact List.map_congr_left fun i hi => hsector i (List.mem_range.mp hi)
      · rw [hprogress.loaded i hi j hj, hsector i hi]
  · constructor
    · rintro ⟨back', t, ht, hback, -⟩
      have hlen := congrArg List.length (hstack.symm.trans hback)
      rw [hjump back' t ht, List.length_cons, List.length_cons] at hlen
      omega
    · rintro ⟨-, -, hfew⟩
      exact absurd hfew hmany

/-- **When sectors are read**: exactly when there is one, its cylinder fits in a byte, and no fifth read fails. -/
theorem readSectors_reads_iff (disk : Disk) (sites : Sites) (hs : s.ax < 65536) (hcx : 1 ≤ s.cx)
    (hbx : s.bx + 512 * s.cx ≤ 65536) {back : Nat} {rest : List Nat} (hstack : s.stack = back :: rest) :
    ReadsSectors disk sites s ↔
      s.cx = 1 ∧ s.ax / sectorsPerTrack / headsPerCylinder < 256 ∧ FewErrors disk s :=
  reads_sectors_iff disk sites hs hcx hbx hstack

end Loop

/-- A disk of zeros whose reads all succeed or all fail. -/
def blank (fails : Bool) : Disk :=
  ⟨fun _ => fails, fun _ => false, fun n => ⟨n, Nat.le_refl n, rfl⟩, fun _ => 0, fun _ _ => 0, fun _ _ _ _ _ => 0⟩

/-- The machine at a call of `ReadSectors` for so many sectors from 19 on. -/
def calling (sectors : Nat) : Machine Vars :=
  ⟨19, 0x7e00, sectors, 0, 0, 0, 0, false, false, [0x7d00, 0x1234], fun _ => 0, ⟨0, 0, 0, 0, 33, 0, 0⟩, 0, 0, []⟩

def sites : Sites := ⟨1, 2, 3, 4, 5, 6⟩

theorem one_sector_read :
    ReadsSectors (blank false) sites (calling 1) ↔
      1 = 1 ∧ 19 / sectorsPerTrack / headsPerCylinder < 256 ∧ FewErrors (blank false) (calling 1) :=
  readSectors_reads_iff (s := calling 1) (blank false) sites (by decide) (by decide) (by decide) rfl

/-- Two sectors are not read; nor is one when every read fails. -/
theorem sectors_not_read :
    ¬ ReadsSectors (blank false) sites (calling 2) ∧ ¬ ReadsSectors (blank true) sites (calling 1) := by
  refine ⟨fun h => ?_, fun h => ?_⟩
  · have := (reads_sectors_iff (s := calling 2) (blank false) sites (by decide) (by decide) (by decide) rfl).mp h
    exact absurd this.1 (by decide)
  · have := (reads_sectors_iff (s := calling 1) (blank true) sites (by decide) (by decide) (by decide) rfl).mp h
    exact absurd this.2.2 (by unfold FewErrors; decide)

end Raampjes.Boot
