import Raampjes.Lib.Runs

/-!
# The keyboard

`keyboard.c`: the bytes that the controller delivers, the flags of the modifier keys, and the two tables. A byte past
the end of a table is whatever memory holds there.

- `getScanCode`, `handleKeyboardInput`: the source; `step`: one interrupt;
- `Tracks`: the flags say which keys are down, and the tables were read inside their bounds;
- `tracks_step`: what one scan code does to that; `modifiers_tracked_iff`: the same for whole runs.
-/

namespace Raampjes.Keyboard

open Runs

/-- The static variable `State`. -/
structure State where
  shift : Bool
  control : Bool
  alt : Bool
  caps : Bool
  numlock : Bool

def key : List UInt8 :=
  [0, 0, 49, 50, 51, 52, 53, 54,
   55, 56, 57, 48, 45, 61, 8, 9,
   113, 119, 101, 114, 116, 121, 117, 105,
   111, 112, 91, 93, 10, 0, 97, 115,
   100, 102, 103, 104, 106, 107, 108, 59,
   39, 96, 0, 92, 122, 120, 99, 118,
   98, 110, 109, 44, 46, 47, 0, 42,
   0, 32, 0, 0, 0, 0, 0, 0,
   0, 0, 0, 0, 0, 0, 0, 55,
   56, 57, 45, 52, 53, 54, 43, 49,
   50, 51, 48, 46, 0, 0, 0, 0]

def keyShift : List UInt8 :=
  [0, 0, 33, 64, 35, 36, 37, 94,
   38, 42, 40, 41, 95, 43, 8, 9,
   81, 87, 69, 82, 84, 89, 85, 73,
   79, 80, 123, 125, 10, 0, 65, 83,
   68, 70, 71, 72, 74, 75, 76, 58,
   34, 126, 0, 124, 90, 88, 67, 86,
   66, 78, 77, 60, 62, 63, 0, 42,
   0, 32, 0, 0, 0, 0, 0, 0,
   0, 0, 0, 0, 0, 0, 0, 55,
   56, 57, 45, 52, 53, 54, 43, 49,
   50, 51, 48, 46, 0, 0, 0, 0]

theorem key_length : key.length = 88 := rfl

theorem keyShift_length : keyShift.length = 88 := rfl

/-- The memory behind the tables, by index. -/
structure Behind where
  key : Nat → UInt8
  keyShift : Nat → UInt8

/-- What `get_scan_code` returns, with `make` and `special_key`. -/
structure ScanCode where
  code : UInt8
  make : Bool
  special : Bool

/-- The flags, the indices looked up in the tables so far and the characters given to `tty_input`. -/
structure Board where
  state : State
  lookups : List Nat
  typed : List UInt8

/-- `get_scan_code`, reading from the bytes to come; it waits when they end with a prefix. -/
def getScanCode : List UInt8 → Option (ScanCode × List UInt8)
  | [] => none
  | input :: rest =>
    if input = 0xE0 then (getScanCode rest).map fun r => ({ r.1 with special := true }, r.2)
    else if input &&& 0x80 ≠ 0 then some (⟨input - 0x80, false, false⟩, rest)
    else some (⟨input, true, false⟩, rest)

/-- `translate`. -/
def translate (mem : Behind) (st : State) (scancode : Nat) : UInt8 :=
  if st.caps || st.shift then keyShift.getD scancode (mem.keyShift scancode) else key.getD scancode (mem.key scancode)

/-- The default case of `handle_keyboard_input`. -/
def typeKey (mem : Behind) (k : ScanCode) (b : Board) : Board :=
  if k.make && !k.special then
    let i := k.code.toNat
    if key.getD i (mem.key i) ≠ 0 then
      { b with lookups := b.lookups ++ [i, i], typed := b.typed ++ [translate mem b.state i] }
    else { b with lookups := b.lookups ++ [i] }
  else b

/-- `handle_keyboard_input` after `get_scan_code`. -/
def handleKeyboardInput (mem : Behind) (k : ScanCode) (b : Board) : Board :=
  if k.code = 0x1d then { b with state := { b.state with control := k.make } }
  else if k.code = 0x38 then { b with state := { b.state with alt := k.make } }
  else if k.code = 0x2a ∨ k.code = 0x36 then { b with state := { b.state with shift := k.make } }
  else if k.code = 0x3a then
    if k.make then { b with state := { b.state with caps := !b.state.caps } } else b
  else if k.code = 0x45 then
    if k.make then { b with state := { b.state with numlock := !b.state.numlock } } else b
  else typeKey mem k b

/-! ## The keyboard and the kernel -/

/-- The bytes still to come, the kernel, and what the keys did: which are down, by prefix and code, and how often caps
lock was made. -/
structure World where
  input : List UInt8
  board : Board
  down : Bool → UInt8 → Bool
  capsMakes : Nat

/-- A key is made or broken. -/
def World.press (w : World) (k : ScanCode) : World :=
  { w with
    down := fun special code => if special = k.special ∧ code = k.code then k.make else w.down special code
    capsMakes := if k.code = 0x3a ∧ k.make = true ∧ k.special = false then w.capsMakes + 1 else w.capsMakes }

/-- One interrupt. -/
def step (mem : Behind) (w : World) (_ : Unit) : Option (World × List Empty) :=
  (getScanCode w.input).map fun r =>
    ({ w.press r.1 with input := r.2, board := handleKeyboardInput mem r.1 w.board }, [])

/-- All keys are up, and the flags are cleared. -/
def start (input : List UInt8) : World :=
  ⟨input, ⟨⟨false, false, false, false, false⟩, [], []⟩, fun _ _ => false, 0⟩

/-- One of the two shift keys is down. -/
def World.shiftDown (w : World) : Prop := w.down false 0x2a = true ∨ w.down false 0x36 = true

/-- One of the two keys with this code is down. -/
def World.eitherDown (w : World) (code : UInt8) : Prop := w.down false code = true ∨ w.down true code = true

/-- The flags say which keys are down, and no lookup went past the end of a table. -/
structure Tracks (w : World) : Prop where
  shift : w.board.state.shift = true ↔ w.shiftDown
  control : w.board.state.control = true ↔ w.eitherDown 0x1d
  alt : w.board.state.alt = true ↔ w.eitherDown 0x38
  caps : w.board.state.caps = decide (w.capsMakes % 2 = 1)
  lookups : ∀ i ∈ w.board.lookups, i < key.length ∧ i < keyShift.length

/-- The other shift key. -/
def otherShift (code : UInt8) : UInt8 := if code = 0x2a then 0x36 else 0x2a

/-- The scan codes that the flags can follow: a shift, control or alt key is not broken while its twin is down, a
prefixed shift code is made only while a shift key is down and broken only while none is, caps lock is not made with a
prefix, and plain makes are in the table. -/
structure Fits (w : World) (k : ScanCode) : Prop where
  shift : k.code = 0x2a ∨ k.code = 0x36 →
    if k.special then k.make = true ↔ w.shiftDown else k.make = false → w.down false (otherShift k.code) = false
  twin : k.code = 0x1d ∨ k.code = 0x38 → k.make = false → w.down (!k.special) k.code = false
  caps : k.code = 0x3a → k.special = true → k.make = false
  table : k.make = true → k.special = false → k.code.toNat < 88

/-- The next scan code fits. -/
def NextFits (w : World) : Prop := ∀ k rest, getScanCode w.input = some (k, rest) → Fits w k

/-! ## The handler, flag by flag -/

section Handler

variable (mem : Behind) (k : ScanCode) (b : Board)

theorem typeKey_state : (typeKey mem k b).state = b.state := by
  rw [typeKey]
  split
  · dsimp only
    split <;> rfl
  · rfl

theorem handle_shift : (handleKeyboardInput mem k b).state.shift =
    if k.code = 0x2a ∨ k.code = 0x36 then k.make else b.state.shift := by
  unfold handleKeyboardInput
  split_ifs <;> simp_all [typeKey_state]

theorem handle_control : (handleKeyboardInput mem k b).state.control =
    if k.code = 0x1d then k.make else b.state.control := by
  unfold handleKeyboardInput
  split_ifs <;> simp_all [typeKey_state]

theorem handle_alt : (handleKeyboardInput mem k b).state.alt = if k.code = 0x38 then k.make else b.state.alt := by
  unfold handleKeyboardInput
  split_ifs <;> simp_all [typeKey_state]

theorem handle_caps : (handleKeyboardInput mem k b).state.caps =
    if k.code = 0x3a ∧ k.make = true then !b.state.caps else b.state.caps := by
  unfold handleKeyboardInput
  split_ifs <;> simp_all [typeKey_state]

/-- The indices of the modifier keys are in the tables anyway. -/
theorem handle_lookups : (∀ i ∈ (handleKeyboardInput mem k b).lookups, i < 88) ↔
    (∀ i ∈ b.lookups, i < 88) ∧ (k.make = true → k.special = false → k.code.toNat < 88) := by
  have hkeep : k.code.toNat < 88 → ((∀ i ∈ b.lookups, i < 88) ↔
      (∀ i ∈ b.lookups, i < 88) ∧ (k.make = true → k.special = false → k.code.toNat < 88)) := fun h =>
    ⟨fun hb => ⟨hb, fun _ _ => h⟩, fun hb => hb.1⟩
  have hcode : ∀ c : UInt8, k.code = c → c.toNat < 88 → k.code.toNat < 88 := fun c h hc => h ▸ hc
  unfold handleKeyboardInput
  split_ifs with h1 h2 h3 h4 _ h5
  · exact hkeep (hcode _ h1 (by decide))
  · exact hkeep (hcode _ h2 (by decide))
  · exact hkeep (h3.elim (fun h => hcode _ h (by decide)) fun h => hcode _ h (by decide))
  · exact hkeep (hcode _ h4 (by decide))
  · exact hkeep (hcode _ h4 (by decide))
  · exact hkeep (hcode _ h5 (by decide))
  · exact hkeep (hcode _ h5 (by decide))
  · rw [typeKey]
    cases hm : k.make <;> cases hsp : k.special
    · simp
    · simp
    · simp only [Bool.not_false, Bool.and_self, if_true, true_implies]
      split <;> simp [or_imp, forall_and]
    · simp

end Handler

/-! ## One interrupt -/

section Step

variable {mem : Behind} {w w' : World} {k : ScanCode} {rest : List UInt8} {es : List Empty}

/-- The world after the scan code `k`. -/
def World.next (w : World) (mem : Behind) (k : ScanCode) (rest : List UInt8) : World :=
  { w.press k with input := rest, board := handleKeyboardInput mem k w.board }

theorem step_eq : step mem w () = some (w', es) ↔
    ∃ k rest, getScanCode w.input = some (k, rest) ∧ w' = w.next mem k rest := by
  have hes : es = [] := by
    cases es with
    | nil => rfl
    | cons e _ => cases e
  subst hes
  simp only [step, Option.map_eq_some_iff, Prod.mk.injEq, and_true, Prod.exists]
  constructor
  · rintro ⟨k, rest, hk, rfl⟩
    exact ⟨k, rest, hk, rfl⟩
  · rintro ⟨k, rest, hk, rfl⟩
    exact ⟨k, rest, hk, rfl⟩

theorem next_down (special : Bool) (code : UInt8) : (w.next mem k rest).down special code =
    if special = k.special ∧ code = k.code then k.make else w.down special code := rfl

theorem next_shift (h : Tracks w) :
    ((w.next mem k rest).board.state.shift = true ↔ (w.next mem k rest).shiftDown) ↔
      (k.code = 0x2a ∨ k.code = 0x36 →
        if k.special then k.make = true ↔ w.shiftDown else k.make = false → w.down (false) (otherShift k.code) = false) := by
  rw [World.shiftDown, next_down, next_down]
  show ((handleKeyboardInput mem k w.board).state.shift = true ↔ _) ↔ _
  rw [handle_shift]
  have hsame := h.shift
  rw [World.shiftDown] at hsame ⊢
  by_cases hl : k.code = 0x2a
  · cases hsp : k.special <;> cases hm : k.make <;> simp [hl, otherShift]
  by_cases hr : k.code = 0x36
  · cases hsp : k.special <;> cases hm : k.make <;> simp [hr, otherShift]
  · simp [hl, hr, Ne.symm hl, Ne.symm hr, hsame]

/-- Control and alt: both keys of a pair have the same code. -/
theorem next_twin {c : UInt8} {flag : Bool} (h : flag = true ↔ w.eitherDown c) :
    ((if k.code = c then k.make else flag) = true ↔ (w.next mem k rest).eitherDown c) ↔
      (k.code = c → k.make = false → w.down (!k.special) k.code = false) := by
  rw [World.eitherDown, next_down, next_down]
  rw [World.eitherDown] at h
  by_cases hc : k.code = c
  · cases hsp : k.special <;> cases hm : k.make <;> simp [hc]
  · simp [hc, Ne.symm hc, h]

theorem next_caps (h : Tracks w) :
    ((w.next mem k rest).board.state.caps = decide ((w.next mem k rest).capsMakes % 2 = 1)) ↔
      (k.code = 0x3a → k.special = true → k.make = false) := by
  show ((handleKeyboardInput mem k w.board).state.caps = decide ((w.press k).capsMakes % 2 = 1)) ↔ _
  rw [handle_caps, World.press, h.caps]
  have hodd : decide ((w.capsMakes + 1) % 2 = 1) = !decide (w.capsMakes % 2 = 1) := by
    rw [← decide_not, decide_eq_decide]
    omega
  by_cases hc : k.code = 0x3a
  · cases hsp : k.special <;> cases hm : k.make <;> simp [hc, hodd]
  · simp [hc]

/-- **One scan code**, from a world where the flags say which keys are down. -/
theorem tracks_step (h : Tracks w) : Tracks (w.next mem k rest) ↔ Fits w k := by
  have hlk : (∀ i ∈ (w.next mem k rest).board.lookups, i < key.length ∧ i < keyShift.length) ↔
      (k.make = true → k.special = false → k.code.toNat < 88) := by
    have hold : ∀ i ∈ w.board.lookups, i < 88 := fun i hi => (h.lookups i hi).1
    simp only [key_length, keyShift_length, and_self]
    show (∀ i ∈ (handleKeyboardInput mem k w.board).lookups, i < 88) ↔ _
    rw [handle_lookups]
    exact ⟨fun hb => hb.2, fun hb => ⟨hold, hb⟩⟩
  have hcontrol := @next_twin mem w k rest _ _ h.control
  have halt := @next_twin mem w k rest _ _ h.alt
  rw [← handle_control mem] at hcontrol
  rw [← handle_alt mem] at halt
  constructor
  · rintro ⟨h1, h2, h3, h4, h5⟩
    refine ⟨(next_shift h).mp h1, ?_, (next_caps h).mp h4, hlk.mp h5⟩
    rintro (hc | hc)
    · exact hcontrol.mp h2 hc
    · exact halt.mp h3 hc
  · rintro ⟨h1, h2, h3, h4⟩
    exact ⟨(next_shift h).mpr h1, hcontrol.mpr fun hc => h2 (Or.inl hc), halt.mpr fun hc => h2 (Or.inr hc),
      (next_caps h).mpr h3, hlk.mpr h4⟩

end Step

/-! ## Runs -/

theorem start_tracks (input : List UInt8) : Tracks (start input) := by
  refine ⟨?_, ?_, ?_, rfl, ?_⟩
  · simp [start, World.shiftDown]
  · simp [start, World.eitherDown]
  · simp [start, World.eitherDown]
  · intro i hi
    cases hi

/-- **Modifier keys.** After every interrupt of a run the flags say which keys are down and the lookups were inside the
tables, just if every scan code fitted when it came. -/
theorem modifiers_tracked_iff (mem : Behind) (input : List UInt8) {xs : List (Runs.Step World Unit Empty)} {w : World}
    (hrun : Run (step mem) (start input) xs w) : (∀ x ∈ xs, Tracks x.after) ↔ ∀ x ∈ xs, NextFits x.before := by
  refine hrun.good_iff (C := fun w _ => NextFits w) Tracks (start_tracks input) ?_
  intro w _ w' es h hst
  obtain ⟨k, rest, hk, rfl⟩ := step_eq.mp hst
  rw [tracks_step h]
  constructor
  · intro hfits k' rest' hk'
    rw [hk, Option.some.injEq, Prod.mk.injEq] at hk'
    exact hk'.1 ▸ hfits
  · exact fun hnext => hnext k rest hk

/-- Left shift made and broken. -/
theorem modifiers_tracked_iff_tap : ∃ xs w, Run (step ⟨fun _ => 0, fun _ => 0⟩) (start [0x2a, 0xaa]) xs w ∧
    xs.length = 2 ∧ ∀ x ∈ xs, Tracks x.after := by
  obtain ⟨xs, w, hrun, hacts, hfits⟩ := @Run.of_replay _ _ _ (step ⟨fun _ => 0, fun _ => 0⟩)
    (start [0x2a, 0xaa]) [(), ()]
    (fun xs _ => xs.all fun x => (x.before.input == [0x2a, 0xaa] || x.before.input == [0xaa]) &&
      !x.before.down false 0x36) (by decide)
  have hlen : xs.length = 2 := by
    rw [← List.length_map (f := Runs.Step.act)]
    exact congrArg List.length hacts
  refine ⟨xs, w, hrun, hlen, (modifiers_tracked_iff _ _ hrun).mpr fun x hx k rest hk => ?_⟩
  have hx' := List.all_eq_true.mp hfits x hx
  simp only [Bool.and_eq_true, Bool.or_eq_true, beq_iff_eq, Bool.not_eq_true'] at hx'
  obtain ⟨hin, hup⟩ := hx'
  rcases hin with hin | hin
  · rw [hin] at hk
    obtain ⟨rfl, rfl⟩ := Prod.mk.inj (Option.some.inj hk)
    exact ⟨by simp, fun hc => absurd hc (by decide), fun hc => absurd hc (by decide), fun _ _ => by decide⟩
  · rw [hin] at hk
    obtain ⟨rfl, rfl⟩ := Prod.mk.inj (Option.some.inj hk)
    exact ⟨fun _ _ => hup, fun hc => absurd hc (by decide), fun hc => absurd hc (by decide), fun hm => absurd hm (by decide)⟩

/-- Both shift keys are made and the left one is broken: the right one is still down. -/
theorem modifiers_not_tracked : ∃ xs w, Run (step ⟨fun _ => 0, fun _ => 0⟩) (start [0x2a, 0x36, 0xaa]) xs w ∧
    ¬ ∀ x ∈ xs, Tracks x.after := by
  obtain ⟨xs, w, hrun, _, hany⟩ := @Run.of_replay _ _ _ (step ⟨fun _ => 0, fun _ => 0⟩)
    (start [0x2a, 0x36, 0xaa]) [(), (), ()]
    (fun xs _ => xs.any fun x => !x.after.board.state.shift && x.after.down false 0x36) (by decide)
  refine ⟨xs, w, hrun, fun hall => ?_⟩
  obtain ⟨x, hx, hlast⟩ := List.any_eq_true.mp hany
  simp only [Bool.and_eq_true, Bool.not_eq_true'] at hlast
  have hshift := (hall x hx).shift.mpr (Or.inr hlast.2)
  rw [hlast.1] at hshift
  cases hshift

end Raampjes.Keyboard
