import Raampjes.Lib.Words
import Raampjes.Libc.String

/-!
# `strtok`

The first call with a string skips delimiters, later calls do not. `strchr` compares with a signed `char`, so only
delimiters below 128 count (`sep`).

- `strtok_none`, `strtok_first`: a call with a string; `strtok_over`: a call behind the last token;
- `strtok_last`, `strtok_sep`: a call that goes on in a string, without and with a delimiter ahead.
-/

namespace Raampjes.Libc

open Progs

/-! ## The function -/

/-- `tok_next = p`. -/
def setTokNext (p : Nat) : OnBytes Unit := update fun s => { s with tokNext := p }

/-- A round of the loop that skips delimiters; it ends with whether a token begins. -/
def skipRound (s2 c : Nat) : OnBytes (Nat ⊕ Bool) := do
  let b ← load c
  if b = 0 then pure (.inr false)
  else do
    let found ← strchr s2 b
    if found = NULL then do
      setTokNext c
      pure (.inr true)
    else pure (.inl ((c + 1) % 2 ^ 32))

/-- A round of the loop that looks for the end of the token. -/
def scanRound (s2 : Nat) : OnBytes (Unit ⊕ Unit) := do
  let next ← gets Bytes.tokNext
  let b ← load next
  if b = 0 then do
    setTokNext NULL
    pure (.inr ())
  else do
    let found ← strchr s2 b
    if found = NULL then do
      setTokNext ((next + 1) % 2 ^ 32)
      pure (.inl ())
    else do
      store next 0
      setTokNext ((next + 1) % 2 ^ 32)
      pure (.inr ())

/-- The end of `strtok`, from the token at `tok_next`. -/
def takeToken (s2 : Nat) : OnBytes Nat := do
  let c ← gets Bytes.tokNext
  forever .endless (fun _ : Unit => scanRound s2) rounds ()
  pure c

def strtok (s1 s2 : Nat) : OnBytes Nat := do
  let next ← gets Bytes.tokNext
  if next = NULL ∧ s1 = NULL then pure NULL
  else if s1 = NULL then takeToken s2
  else do
    let begins ← forever .endless (skipRound s2) rounds s1
    if begins then takeToken s2 else pure NULL

/-- The characters that `strtok` takes for delimiters. -/
def sep (ds : List UInt8) (c : UInt8) : Bool := decide (c ∈ ds ∧ c.toNat < 128)

section Calls

variable {s : Bytes} {p q : Nat} {ds cs : List UInt8}

/-! ## One character -/

theorem setTokNext_returns (s : Bytes) (p : Nat) : Returns (setTokNext p) s () { s with tokNext := p } := rfl

theorem store_returns (s : Bytes) (p : Nat) (b : UInt8) :
    Returns (store p b) s () { s with mem := Function.update s.mem (p % 2 ^ 32) b } := rfl

theorem strchr_sep {c : UInt8} (hc : c ≠ 0) (hds : CString s.mem q ds) :
    ∃ r t, Returns (strchr q c) s r t ∧ (r = NULL ↔ sep ds c = false) ∧ t.mem = s.mem ∧ t.tokNext = s.tokNext := by
  obtain ⟨r, t, ht, hr, hlook⟩ := strchr_returns hc hds
  refine ⟨r, t, ht, ?_, hlook.mem, hlook.tokNext⟩
  rw [sep, decide_eq_false_iff_not, ← hr, not_not]
  rfl

/-- A character is read and looked up. -/
theorem load_strchr {a : Nat} {c : UInt8} (ha : s.mem (a % 2 ^ 32) = c) (hc : c ≠ 0) (hds : CString s.mem q ds) :
    ∃ t r u, Returns (load a) s c t ∧ Returns (strchr q c) t r u ∧ (r = NULL ↔ sep ds c = false) ∧ u.mem = s.mem ∧
      u.tokNext = s.tokNext := by
  obtain ⟨t, ht, hlook⟩ := load_returns (P := fun _ => True) s (p := a) trivial
  obtain ⟨r, u, hu, hr, hmem, htok⟩ := strchr_sep hc (hlook.mem ▸ hds)
  exact ⟨t, r, u, ha ▸ ht, hu, hr, hmem.trans hlook.mem, htok.trans hlook.tokNext⟩

/-- Character `i` of a string. -/
theorem CString.load_byte {mem : Nat → UInt8} (hcs : CString mem p cs) {i : Nat} (hi : i < cs.length) :
    mem ((p + i) % 2 ^ 32) = cs[i] ∧ cs[i] ≠ 0 ∧ (p + i) % 2 ^ 32 = p + i ∧ (p + i + 1) % 2 ^ 32 = p + i + 1 := by
  have hfits := hcs.fits
  exact ⟨(hcs.byte hi).1, (hcs.byte hi).2, Nat.mod_eq_of_lt (by omega), Nat.mod_eq_of_lt (by omega)⟩

/-- The character behind the first part of a string. -/
theorem CString.load_mid {mem : Nat → UInt8} {pre post : List UInt8} {c : UInt8} (hcs : CString mem p (pre ++ c :: post)) :
    mem ((p + pre.length) % 2 ^ 32) = c ∧ c ≠ 0 ∧ (p + pre.length) % 2 ^ 32 = p + pre.length ∧
      (p + pre.length + 1) % 2 ^ 32 = p + pre.length + 1 := by
  have h := hcs.load_byte (i := pre.length) (by simp)
  simpa using h

/-! ## Skipping -/

theorem skipRound_sep {t : Bytes} (hmem : t.mem = s.mem) (hcs : CString s.mem p cs) (hds : CString s.mem q ds) {i : Nat}
    (hi : i < cs.length) (hsep : sep ds cs[i] = true) :
    ∃ t', Returns (skipRound q (p + i)) t (.inl (p + (i + 1))) t' ∧ t'.mem = s.mem := by
  obtain ⟨hb, hne, -, hp⟩ := hcs.load_byte hi
  rw [← hmem] at hb hds
  obtain ⟨u, r, v, hu, hv, hr, hmem', -⟩ := load_strchr hb hne hds
  refine ⟨v, ?_, hmem'.trans hmem⟩
  rw [skipRound, Returns.bind_iff hu, if_neg hne, Returns.bind_iff hv,
    if_neg (fun h0 => Bool.noConfusion (hsep.symm.trans (hr.mp h0))), hp]
  exact pure_ok.mpr ⟨rfl, rfl⟩

/-- A string of delimiters has no token. -/
theorem skip_none (hcs : CString s.mem p cs) (hds : CString s.mem q ds) (hall : ∀ c ∈ cs, sep ds c = true) :
    ∃ t, Returns (forever .endless (skipRound q) rounds p) s false t ∧ t.mem = s.mem := by
  have hfits := hcs.fits
  refine forever_chain (I := fun _ (t : Bytes) => t.mem = s.mem) (f := fun i => p + i) (k := cs.length)
    (fun i t hi hmem => skipRound_sep hmem hcs hds hi (hall _ (List.getElem_mem hi))) (fun t hmem => ?_)
    (show cs.length < rounds by rw [rounds]; omega) rfl
  obtain ⟨u, hu, hlook⟩ := load_returns (P := fun _ => True) t (p := p + cs.length) trivial
  refine ⟨u, ?_, hlook.mem.trans hmem⟩
  rw [skipRound, Returns.bind_iff hu, hmem, Nat.mod_eq_of_lt hfits, if_pos hcs.ends]
  exact pure_ok.mpr ⟨rfl, rfl⟩

/-- The first token begins at the first character that is no delimiter. -/
theorem skip_some {pre post : List UInt8} {c : UInt8} (hcs : CString s.mem p (pre ++ c :: post))
    (hds : CString s.mem q ds) (hpre : ∀ c ∈ pre, sep ds c = true) (hc : sep ds c = false) :
    ∃ t, Returns (forever .endless (skipRound q) rounds p) s true t ∧ t.mem = s.mem ∧ t.tokNext = p + pre.length := by
  have hfits := hcs.fits
  have hlen : (pre ++ c :: post).length = pre.length + (post.length + 1) := by simp
  refine forever_chain (I := fun _ (t : Bytes) => t.mem = s.mem) (f := fun i => p + i) (k := pre.length)
    (fun i t hi hmem => skipRound_sep hmem hcs hds (by omega) ?_) (fun t hmem => ?_)
    (show pre.length < rounds by rw [rounds]; omega) rfl
  · rw [List.getElem_append_left hi]
    exact hpre _ (List.getElem_mem hi)
  · obtain ⟨hb, hne, hp, -⟩ := hcs.load_mid
    rw [← hmem] at hb hds
    obtain ⟨u, r, v, hu, hv, hr, hmem', -⟩ := load_strchr hb hne hds
    refine ⟨{ v with tokNext := p + pre.length }, ?_, hmem'.trans hmem, rfl⟩
    rw [skipRound, Returns.bind_iff hu, if_neg hne, Returns.bind_iff hv, if_pos (hr.mpr hc),
      Returns.bind_iff (setTokNext_returns _ _)]
    exact pure_ok.mpr ⟨rfl, rfl⟩

/-! ## Taking a token -/

/-- A character of the token is passed. -/
theorem scanRound_pass {t : Bytes} (hmem : t.mem = s.mem) (hcs : CString s.mem p cs) (hds : CString s.mem q ds) {i : Nat}
    (hi : i < cs.length) (hsep : sep ds cs[i] = false) (htok : t.tokNext = p + i) :
    ∃ t', Returns (scanRound q) t (.inl ()) t' ∧ t'.mem = s.mem ∧ t'.tokNext = p + (i + 1) := by
  obtain ⟨hb, hne, -, hp⟩ := hcs.load_byte hi
  rw [← hmem] at hb hds
  obtain ⟨u, r, v, hu, hv, hr, hmem', -⟩ := load_strchr hb hne hds
  refine ⟨{ v with tokNext := p + i + 1 }, ?_, hmem'.trans hmem, rfl⟩
  rw [scanRound, Returns.bind_iff ((gets_ok _).mpr ⟨htok.symm, rfl⟩), Returns.bind_iff hu, if_neg hne,
    Returns.bind_iff hv, if_pos (hr.mpr hsep), hp, Returns.bind_iff (setTokNext_returns _ _)]
  exact pure_ok.mpr ⟨rfl, rfl⟩

/-- The loop over a token without a delimiter behind it. -/
theorem scan_last (hcs : CString s.mem p cs) (hds : CString s.mem q ds) (hno : ∀ c ∈ cs, sep ds c = false)
    (htok : s.tokNext = p) :
    ∃ t, Returns (forever .endless (fun _ : Unit => scanRound q) rounds ()) s () t ∧ t.mem = s.mem ∧ t.tokNext = NULL := by
  have hfits := hcs.fits
  refine forever_chain (I := fun i (t : Bytes) => t.mem = s.mem ∧ t.tokNext = p + i) (f := fun _ => ()) (k := cs.length)
    (fun i t hi ht => scanRound_pass ht.1 hcs hds hi (hno _ (List.getElem_mem hi)) ht.2) (fun t ht => ?_)
    (show cs.length < rounds by rw [rounds]; omega) ⟨rfl, htok⟩
  obtain ⟨hmem, htok⟩ := ht
  obtain ⟨u, hu, hlook⟩ := load_returns (P := fun _ => True) t (p := p + cs.length) trivial
  rw [hmem, Nat.mod_eq_of_lt hfits] at hu
  refine ⟨{ u with tokNext := NULL }, ?_, hlook.mem.trans hmem, rfl⟩
  rw [scanRound, Returns.bind_iff ((gets_ok _).mpr ⟨htok.symm, rfl⟩), Returns.bind_iff hu, if_pos hcs.ends,
    Returns.bind_iff (setTokNext_returns _ _)]
  exact pure_ok.mpr ⟨rfl, rfl⟩

/-- The loop over a token with a delimiter behind it, which becomes the terminator. -/
theorem scan_sep {w : List UInt8} {d : UInt8} (hcs : CString s.mem p (w ++ d :: cs)) (hds : CString s.mem q ds)
    (hw : ∀ c ∈ w, sep ds c = false) (hd : sep ds d = true) (htok : s.tokNext = p) :
    ∃ t, Returns (forever .endless (fun _ : Unit => scanRound q) rounds ()) s () t ∧
      t.mem = Function.update s.mem (p + w.length) 0 ∧ t.tokNext = p + w.length + 1 := by
  have hfits := hcs.fits
  have hlen : (w ++ d :: cs).length = w.length + (cs.length + 1) := by simp
  refine forever_chain (I := fun i (t : Bytes) => t.mem = s.mem ∧ t.tokNext = p + i) (f := fun _ => ()) (k := w.length)
    (fun i t hi ht => scanRound_pass ht.1 hcs hds (by omega) ?_ ht.2) (fun t ht => ?_)
    (show w.length < rounds by rw [rounds]; omega) ⟨rfl, htok⟩
  · rw [List.getElem_append_left hi]
    exact hw _ (List.getElem_mem hi)
  · obtain ⟨hmem, htok⟩ := ht
    obtain ⟨hb, hne, hp, hp1⟩ := hcs.load_mid
    rw [← hmem] at hb hds
    obtain ⟨u, r, v, hu, hv, hr, hmem', -⟩ := load_strchr hb hne hds
    refine ⟨{ v with mem := Function.update v.mem ((p + w.length) % 2 ^ 32) 0, tokNext := p + w.length + 1 }, ?_, ?_, rfl⟩
    · rw [scanRound, Returns.bind_iff ((gets_ok _).mpr ⟨htok.symm, rfl⟩), Returns.bind_iff hu, if_neg hne,
        Returns.bind_iff hv, if_neg (fun h0 => Bool.noConfusion (hd.symm.trans (hr.mp h0))), hp1,
        Returns.bind_iff (store_returns _ _ _), Returns.bind_iff (setTokNext_returns _ _)]
      exact pure_ok.mpr ⟨rfl, rfl⟩
    · show Function.update v.mem _ 0 = _
      rw [hmem'.trans hmem, hp]

/-! ## The calls -/

theorem takeToken_iff {c : Nat} {t u : Bytes} (h : Returns (forever .endless (fun _ : Unit => scanRound q) rounds ()) s () t) :
    Returns (takeToken q) s c u ↔ c = s.tokNext ∧ u = t := by
  rw [takeToken, Returns.bind_iff ((gets_ok _).mpr ⟨rfl, rfl⟩), Returns.bind_iff h, pure_ok]

/-- A call behind the last token. -/
theorem strtok_over (q : Nat) (h : s.tokNext = NULL) : Returns (strtok NULL q) s NULL s := by
  rw [strtok, Returns.bind_iff ((gets_ok _).mpr ⟨h.symm, rfl⟩), if_pos ⟨rfl, rfl⟩]
  exact pure_ok.mpr ⟨rfl, rfl⟩

theorem strtok_next {c : Nat} {t : Bytes} (h : s.tokNext ≠ NULL) :
    Returns (strtok NULL q) s c t ↔ Returns (takeToken q) s c t := by
  rw [strtok, Returns.bind_iff ((gets_ok _).mpr ⟨rfl, rfl⟩), if_neg (fun h' => h h'.1), if_pos rfl]

/-- A call that goes on at `p`, with no delimiter ahead. -/
theorem strtok_last (hcs : CString s.mem p cs) (hds : CString s.mem q ds) (hno : ∀ c ∈ cs, sep ds c = false)
    (htok : s.tokNext = p) (hp : p ≠ NULL) :
    ∃ t, Returns (strtok NULL q) s p t ∧ t.mem = s.mem ∧ t.tokNext = NULL := by
  obtain ⟨t, ht, hmem, hnext⟩ := scan_last hcs hds hno htok
  exact ⟨t, (strtok_next (htok ▸ hp)).mpr ((takeToken_iff ht).mpr ⟨htok.symm, rfl⟩), hmem, hnext⟩

/-- A call that goes on at `p`, with a delimiter ahead. -/
theorem strtok_sep {w : List UInt8} {d : UInt8} (hcs : CString s.mem p (w ++ d :: cs)) (hds : CString s.mem q ds)
    (hw : ∀ c ∈ w, sep ds c = false) (hd : sep ds d = true) (htok : s.tokNext = p) (hp : p ≠ NULL) :
    ∃ t, Returns (strtok NULL q) s p t ∧ t.mem = Function.update s.mem (p + w.length) 0 ∧
      t.tokNext = p + w.length + 1 := by
  obtain ⟨t, ht, hmem, hnext⟩ := scan_sep hcs hds hw hd htok
  exact ⟨t, (strtok_next (htok ▸ hp)).mpr ((takeToken_iff ht).mpr ⟨htok.symm, rfl⟩), hmem, hnext⟩

/-- A call with a string of delimiters. -/
theorem strtok_none (hcs : CString s.mem p cs) (hds : CString s.mem q ds) (hp : p ≠ NULL)
    (hall : ∀ c ∈ cs, sep ds c = true) : ∃ t, Returns (strtok p q) s NULL t ∧ t.mem = s.mem := by
  obtain ⟨t, ht, hmem⟩ := skip_none hcs hds hall
  refine ⟨t, ?_, hmem⟩
  rw [strtok, Returns.bind_iff ((gets_ok _).mpr ⟨rfl, rfl⟩), if_neg (fun h => hp h.2), if_neg hp, Returns.bind_iff ht,
    if_neg Bool.false_ne_true]
  exact pure_ok.mpr ⟨rfl, rfl⟩

/-- **A call with a string** goes on like a later call at the first character that is no delimiter. -/
theorem strtok_first {pre post : List UInt8} {c : UInt8} (hcs : CString s.mem p (pre ++ c :: post))
    (hds : CString s.mem q ds) (hp : p ≠ NULL) (hpre : ∀ c ∈ pre, sep ds c = true) (hc : sep ds c = false) :
    ∃ t, t.mem = s.mem ∧ t.tokNext = p + pre.length ∧
      ∀ r u, Returns (strtok p q) s r u ↔ Returns (strtok NULL q) t r u := by
  obtain ⟨t, ht, hmem, htok⟩ := skip_some hcs hds hpre hc
  refine ⟨t, hmem, htok, fun r u => ?_⟩
  have hpos : t.tokNext ≠ NULL := by
    rw [htok]
    have := Nat.pos_of_ne_zero hp
    rw [NULL]
    omega
  rw [strtok_next hpos, strtok, Returns.bind_iff ((gets_ok _).mpr ⟨rfl, rfl⟩), if_neg (fun h => hp h.2), if_neg hp,
    Returns.bind_iff ht, if_pos rfl]

/-- A string that is cut at a delimiter. -/
theorem CString.cut {mem : Nat → UInt8} {w : List UInt8} {d : UInt8} (h : CString mem p (w ++ d :: cs)) :
    CString (Function.update mem (p + w.length) 0) p w ∧
      CString (Function.update mem (p + w.length) 0) (p + w.length + 1) cs := by
  have hfits := h.fits
  have hlen : (w ++ d :: cs).length = w.length + (cs.length + 1) := by simp
  refine ⟨⟨fun i hi => ?_, Function.update_self _ _ _, fun hz => h.nonzero (List.mem_append_left _ hz), by omega⟩,
    ⟨fun i hi => ?_, ?_, fun hz => h.nonzero (by simp [hz]), by omega⟩⟩
  · rw [Function.update_of_ne (by omega), h.held i (by omega), List.getElem_append_left hi]
  · have heq : p + w.length + 1 + i = p + (w.length + (i + 1)) := by omega
    rw [Function.update_of_ne (by omega), heq, h.held _ (by omega)]
    simp
  · have heq : p + w.length + 1 + cs.length = p + (w ++ d :: cs).length := by omega
    rw [Function.update_of_ne (by omega), heq, h.ends]

/-- The end of a string, from one of its characters on. -/
theorem CString.suffix {mem : Nat → UInt8} {pre : List UInt8} (h : CString mem p (pre ++ cs)) :
    CString mem (p + pre.length) cs := by
  induction pre generalizing p with
  | nil => exact h
  | cons a pre ih =>
    have := ih h.tail
    rwa [List.length_cons, Nat.add_comm pre.length 1, ← Nat.add_assoc]

/-- A string away from the changes. -/
theorem CString.congr {mem mem' : Nat → UInt8} (h : CString mem p cs)
    (hsame : ∀ a, p ≤ a → a ≤ p + cs.length → mem' a = mem a) : CString mem' p cs :=
  ⟨fun i hi => by rw [hsame _ (by omega) (by omega), h.held i hi],
    by rw [hsame _ (by omega) (Nat.le_refl _), h.ends], h.nonzero, h.fits⟩

/-- There is one string at a place. -/
theorem CString.unique {mem : Nat → UInt8} {bs : List UInt8} (h : CString mem p cs) (h' : CString mem p bs) : cs = bs := by
  have hcs := h.text_eq (cs.length + bs.length)
  have hbs := h'.text_eq (cs.length + bs.length)
  rw [List.take_of_length_le (Nat.le_add_right _ _)] at hcs
  rw [List.take_of_length_le (Nat.le_add_left _ _)] at hbs
  exact hcs.symm.trans hbs

end Calls

end Raampjes.Libc
