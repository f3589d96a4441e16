import Raampjes.Libc.Strtok

/-!
# Tokens of a command line

`split_tokens` of the shell, with its array as a list.

- `splitTokens_pieces`: the tokens are the pieces between single delimiters, and the program exits when they are
  `MAX_TOKENS` or more;
- `split_tokens_iff`: they are the words of the line exactly when no delimiter in it is above 127 and, behind the leading
  delimiters, each one is followed by a character that is none.
-/

namespace Raampjes.Initrd

open Progs Libc Words

def MAX_TOKENS : Nat := 128

/-- A round of the loop of `split_tokens`, with the tokens so far and the last result of `strtok`. -/
def splitRound (delims : Nat) (x : List Nat × Nat) : OnBytes ((List Nat × Nat) ⊕ List Nat) :=
  if x.2 = NULL then pure (.inr x.1)
  else do
    let token ← strtok NULL delims
    onlyIf (x.1.length + 1 ≥ MAX_TOKENS) (stop (.exited 1))
    pure (.inl (x.1 ++ [x.2], token))

def splitTokens (line delims : Nat) : OnBytes (List Nat) := do
  let token ← strtok line delims
  forever .endless (splitRound delims) rounds ([], token)

/-- A character of the delimiter string. -/
def delim (ds : List UInt8) (c : UInt8) : Bool := decide (c ∈ ds)

/-- The tokens are strings in memory: the words of the line, in order. -/
def Tokenised (line delims : Nat) (bs ds : List UInt8) (s : Bytes) : Prop :=
  ∃ tokens t, Returns (splitTokens line delims) s tokens t ∧ List.Forall₂ (CString t.mem) tokens (words (delim ds) bs)

section Rounds

variable {s : Bytes} {p q : Nat} {ds cs : List UInt8}

/-- A round with a pending token and room for it. -/
theorem splitRound_on {tokens : List Nat} {token next : Nat} {t : Bytes} (h0 : token ≠ NULL)
    (ht : Returns (strtok NULL q) s next t) (hroom : tokens.length + 1 < MAX_TOKENS) :
    Returns (splitRound q (tokens, token)) s (.inl (tokens ++ [token], next)) t := by
  rw [splitRound, if_neg h0, Returns.bind_iff ht, check_bind_ok]
  exact ⟨decide_eq_false (Nat.not_le_of_lt hroom), pure_ok.mpr ⟨rfl, rfl⟩⟩

/-- A round with a pending token and no room. -/
theorem splitRound_full {tokens : List Nat} {token next : Nat} {t : Bytes} (h0 : token ≠ NULL)
    (ht : Returns (strtok NULL q) s next t) (hfull : MAX_TOKENS ≤ tokens.length + 1) :
    splitRound q (tokens, token) s = .error (.exited 1) := by
  rw [splitRound, if_neg h0, ht.bind_eq, onlyIf_pos (decide_eq_true hfull)]
  rfl

/-- The last round. -/
theorem splitRound_done (tokens : List Nat) : Returns (splitRound q (tokens, NULL)) s (.inr tokens) s := by
  rw [splitRound, if_pos rfl]
  exact pure_ok.mpr ⟨rfl, rfl⟩

/-- What the loop does with a pending token and the pieces `ws` from `p` on. -/
structure Splits (q p : Nat) (ws : List (List UInt8)) (n : Nat) (tokens : List Nat) (token : Nat) (s : Bytes) : Prop where
  returns : tokens.length + 1 + ws.length < MAX_TOKENS →
    ∃ more t, Returns (forever .endless (splitRound q) n (tokens, token)) s (tokens ++ token :: more) t ∧
      List.Forall₂ (CString t.mem) more ws ∧ ∀ a < p, t.mem a = s.mem a
  exits : MAX_TOKENS ≤ tokens.length + 1 + ws.length →
    forever .endless (splitRound q) n (tokens, token) s = .error (.exited 1)

theorem splits_over {tokens : List Nat} {token : Nat} {n : Nat} (h0 : token ≠ NULL) (htok : s.tokNext = NULL) (hn : 2 ≤ n) :
    Splits q p [] n tokens token s := by
  obtain ⟨n, rfl⟩ := Nat.exists_eq_add_of_le' hn
  have ht := strtok_over q htok
  constructor
  · intro hroom
    refine ⟨[], s, ?_, .nil, fun _ _ => rfl⟩
    have hon := splitRound_on h0 ht hroom
    exact forever_succ.mpr (Or.inr ⟨_, s, hon, forever_succ.mpr (Or.inl (splitRound_done _))⟩)
  · intro hfull
    exact forever_stops (splitRound_full h0 ht hfull)

/-- One more round before the loop goes on with the other pieces. -/
theorem Splits.before {p' : Nat} {w : List UInt8} {ws : List (List UInt8)} {n : Nat} {tokens : List Nat} {token : Nat} {t : Bytes}
    (h0 : token ≠ NULL) (ht : Returns (strtok NULL q) s p t) (hw : CString t.mem p w) (hp' : p + w.length < p')
    (hmem : ∀ a < p, t.mem a = s.mem a) (h : Splits q p' ws n (tokens ++ [token]) p t) :
    Splits q p (w :: ws) (n + 1) tokens token s := by
  have hlen : (tokens ++ [token]).length + 1 + ws.length = tokens.length + 1 + (w :: ws).length := by
    simp only [List.length_append, List.length_cons, List.length_nil]
    omega
  constructor
  · intro hroom
    obtain ⟨more, u, hu, hmore, hsame⟩ := h.returns (by rw [hlen]; exact hroom)
    have hon := splitRound_on h0 ht (show tokens.length + 1 < MAX_TOKENS by omega)
    refine ⟨p :: more, u, forever_succ.mpr (Or.inr ⟨_, t, hon, ?_⟩), .cons ?_ hmore, fun a ha => ?_⟩
    · rwa [List.append_assoc] at hu
    · exact hw.congr fun a _ ha => hsame a (by omega)
    · rw [hsame a (by omega), hmem a ha]
  · intro hfull
    by_cases hroom : tokens.length + 1 < MAX_TOKENS
    · rw [forever_on (splitRound_on h0 ht hroom)]
      exact h.exits (by rw [hlen]; exact hfull)
    · exact forever_stops (splitRound_full h0 ht (Nat.le_of_not_lt hroom))

/-- A list without separators, or cut at the first one. -/
theorem separators (f : UInt8 → Bool) (cs : List UInt8) :
    (∀ c ∈ cs, f c = false) ∨ ∃ w d rest, cs = w ++ d :: rest ∧ (∀ c ∈ w, f c = false) ∧ f d = true := by
  induction cs with
  | nil => exact Or.inl fun c hc => nomatch hc
  | cons a cs ih =>
    cases ha : f a with
    | true => exact Or.inr ⟨[], a, cs, rfl, fun c hc => (nomatch hc), ha⟩
    | false =>
      rcases ih with hno | ⟨w, d, rest, rfl, hw, hd⟩
      · exact Or.inl (List.forall_mem_cons.mpr ⟨ha, hno⟩)
      · exact Or.inr ⟨a :: w, d, rest, rfl, List.forall_mem_cons.mpr ⟨ha, hw⟩, hd⟩

/-- The strings do not overlap. -/
def Apart (p m q n : Nat) : Prop := p + m < q ∨ q + n < p

/-- The call at `p` takes the first piece, and the loop then takes the others. -/
structure Takes (q p m : Nat) (w : List UInt8) (ws : List (List UInt8)) (s t : Bytes) (p' : Nat) : Prop where
  call : Returns (strtok NULL q) s p t
  token : CString t.mem p w
  below : p + w.length < p'
  same : ∀ a < p, t.mem a = s.mem a
  rest : ∀ tokens token n, token ≠ NULL → m + 2 ≤ n → Splits q p' ws n tokens token t

/-- **The calls from a place in the line on.** -/
theorem takes_at (hcs : CString s.mem p cs) (hds : CString s.mem q ds) (hap : Apart p cs.length q ds.length)
    (hp : p ≠ NULL) (htok : s.tokNext = p) :
    ∃ w ws t p', cs.splitOnP (sep ds) = w :: ws ∧ Takes q p cs.length w ws s t p' := by
  induction hlen : cs.length using Nat.strong_induction_on generalizing cs p s with
  | _ len ih =>
    subst hlen
    rcases separators (sep ds) cs with hno | ⟨w, d, rest, rfl, hw, hd⟩
    · obtain ⟨t, ht, hmem, hnext⟩ := strtok_last hcs hds hno htok hp
      refine ⟨cs, [], t, p + cs.length + 1, List.splitOnP_eq_singleton hno, ht, hmem ▸ hcs, by omega, ?_, ?_⟩
      · exact fun a _ => by rw [hmem]
      · exact fun tokens token n h0 hn => splits_over h0 hnext (by omega)
    · obtain ⟨t, ht, hmem, hnext⟩ := strtok_sep hcs hds hw hd htok hp
      have hcut := hcs.cut
      rw [← hmem] at hcut
      have hlen : (w ++ d :: rest).length = w.length + (rest.length + 1) := by simp
      rw [Apart, hlen] at hap
      have hds' : CString t.mem q ds := hds.congr fun a h1 h2 => by
        rw [hmem, Function.update_of_ne (by omega)]
      have hp' : p + w.length + 1 ≠ NULL := Nat.succ_ne_zero _
      obtain ⟨v, vs, u, p', hsplit, htakes⟩ := ih rest.length (by omega) hcut.2 hds'
        (by rw [Apart]; omega) hp' hnext rfl
      refine ⟨w, v :: vs, t, p + w.length + 1, ?_, ht, hcut.1, Nat.lt_succ_self _, fun a ha => ?_, ?_⟩
      · rw [List.splitOnP_append_cons_of_forall_mem hw d hd, hsplit]
      · rw [hmem, Function.update_of_ne (by omega)]
      · intro tokens token n h0 hn
        obtain ⟨n, rfl⟩ := Nat.exists_eq_add_of_le' (show 1 ≤ n by omega)
        exact (htakes.rest _ _ n hp' (by omega)).before h0 htakes.call htakes.token htakes.below htakes.same

/-- **The tokens are the pieces**, and the program exits when there is no room for them. -/
theorem splitTokens_pieces {line : Nat} {bs : List UInt8} (hline : CString s.mem line bs) (hds : CString s.mem q ds)
    (hnull : line ≠ NULL) (hap : Apart line bs.length q ds.length) :
    ((pieces (sep ds) bs).length < MAX_TOKENS → ∃ tokens t, Returns (splitTokens line q) s tokens t ∧
      List.Forall₂ (CString t.mem) tokens (pieces (sep ds) bs)) ∧
    (MAX_TOKENS ≤ (pieces (sep ds) bs).length → splitTokens line q s = .error (.exited 1)) := by
  have hfits := hline.fits
  have hpos := Nat.pos_of_ne_zero hnull
  rcases hrest : bs.dropWhile (sep ds) with _ | ⟨c, post⟩
  · -- nothing but delimiters
    have hall : ∀ c ∈ bs, sep ds c = true := List.dropWhile_eq_nil_iff.mp hrest
    obtain ⟨t, ht, -⟩ := strtok_none hline hds hnull hall
    have hpieces : pieces (sep ds) bs = [] := by rw [pieces, hrest]
    rw [hpieces]
    refine ⟨fun _ => ⟨[], t, ?_, .nil⟩, fun h => absurd h (by decide)⟩
    rw [splitTokens, Returns.bind_iff ht]
    exact forever_succ.mpr (Or.inl (splitRound_done []))
  · have hbs : bs = bs.takeWhile (sep ds) ++ c :: post := by rw [← hrest, List.takeWhile_append_dropWhile]
    have hlen : bs.length = (bs.takeWhile (sep ds)).length + (c :: post).length := by
      rw [← List.length_append, ← hbs]
    have hc : sep ds c = false := by
      have := List.head_dropWhile_not (sep ds) (l := bs) (by rw [hrest]; exact List.cons_ne_nil c post)
      simpa [hrest] using this
    obtain ⟨s', hmem, htok, hcall⟩ := strtok_first (hbs ▸ hline) hds hnull (fun c hc => List.mem_takeWhile_imp hc) hc
    have hcs : CString s'.mem (line + (bs.takeWhile (sep ds)).length) (c :: post) := by
      rw [hmem]
      exact (hbs ▸ hline).suffix
    obtain ⟨w, ws, t, p', hsplit, htakes⟩ := takes_at hcs (hmem ▸ hds) (by rw [Apart] at *; omega)
      (by rw [NULL]; omega) htok
    have hpieces : pieces (sep ds) bs = w :: ws := by
      rw [pieces, hrest]
      exact hsplit
    have hrun : splitTokens line q s = forever .endless (splitRound q) rounds ([], line + (bs.takeWhile (sep ds)).length) t := by
      rw [splitTokens, ((hcall _ _).mpr htakes.call).bind_eq]
    have hsplits := htakes.rest [] (line + (bs.takeWhile (sep ds)).length) rounds (by rw [NULL]; omega)
      (by rw [rounds]; omega)
    have hcount : ([] : List Nat).length + 1 + ws.length = (w :: ws).length := by
      rw [List.length_nil, List.length_cons]
      omega
    rw [hpieces, ← hcount]
    refine ⟨fun hroom => ?_, fun hfull => hrun.trans (hsplits.exits hfull)⟩
    obtain ⟨more, u, hu, hmore, hsame⟩ := hsplits.returns hroom
    have hbelow := htakes.below
    exact ⟨_, u, hrun.trans hu, .cons (htakes.token.congr fun a _ ha => hsame a (by omega)) hmore⟩

end Rounds

/-- Strings at the same places are the same. -/
theorem forall₂_unique {mem : Nat → UInt8} {ps : List Nat} {ws vs : List (List UInt8)}
    (h : List.Forall₂ (CString mem) ps ws) (h' : List.Forall₂ (CString mem) ps vs) : ws = vs := by
  induction h generalizing vs with
  | nil =>
    cases h'
    rfl
  | cons hw _ ih =>
    cases h' with
    | cons hv hvs => rw [hw.unique hv, ih hvs]

section Words

variable {s : Bytes} {line delims : Nat} {bs ds : List UInt8}

theorem tokenised_iff_pieces (hline : CString s.mem line bs) (hds : CString s.mem delims ds) (hnull : line ≠ NULL)
    (hap : Apart line bs.length delims ds.length) (hmax : (words (delim ds) bs).length < MAX_TOKENS) :
    Tokenised line delims bs ds s ↔ pieces (sep ds) bs = words (delim ds) bs := by
  obtain ⟨hreturns, hexits⟩ := splitTokens_pieces hline hds hnull hap
  constructor
  · rintro ⟨tokens, t, ht, hwords⟩
    rcases Nat.lt_or_ge (pieces (sep ds) bs).length MAX_TOKENS with hlt | hge
    · obtain ⟨tokens', t', ht', hpieces⟩ := hreturns hlt
      obtain ⟨rfl, rfl⟩ := ht.unique ht'
      exact forall₂_unique hpieces hwords
    · have herror : splitTokens line delims s = .ok (tokens, t) := ht
      rw [hexits hge] at herror
      cases herror
  · intro heq
    rw [Tokenised, ← heq]
    exact hreturns (heq ▸ hmax)

theorem delim_of_sep (c : UInt8) (hc : sep ds c = true) : delim ds c = true := decide_eq_true (of_decide_eq_true hc).1

/-- **When `split_tokens` finds the words of a line.** -/
theorem split_tokens_iff (hline : CString s.mem line bs) (hds : CString s.mem delims ds) (hnull : line ≠ NULL)
    (hap : Apart line bs.length delims ds.length) (hmax : (words (delim ds) bs).length < MAX_TOKENS) :
    Tokenised line delims bs ds s ↔
      (∀ c ∈ bs, c ∈ ds → c.toNat < 128) ∧ Spaced (delim ds) (bs.dropWhile (delim ds)) := by
  have hcond : (∀ c ∈ bs, c ∈ ds → c.toNat < 128) ↔ ∀ c ∈ bs, delim ds c = true → sep ds c = true := by
    simp only [delim, sep, decide_eq_true_eq]
    exact forall₂_congr fun c _ => ⟨fun h hc => ⟨hc, h hc⟩, fun h hc => (h hc).2⟩
  rw [tokenised_iff_pieces hline hds hnull hap hmax, hcond]
  exact pieces_eq_words_iff' delim_of_sep

end Words

/-- The memory of the examples: a line at `0x1000`, and a blank for the delimiters at `0x2000`. -/
def lineMemory (bs : List UInt8) (p : Nat) : UInt8 :=
  if p = 0x2000 then 32 else if p < 0x1000 then 0 else bs.getD (p - 0x1000) 0

theorem split_tokens_two : Tokenised 0x1000 0x2000 [97, 32, 98] [32] ⟨lineMemory [97, 32, 98], 0, []⟩ := by
  have hline : CString (lineMemory [97, 32, 98]) 0x1000 [97, 32, 98] := ⟨by decide, by decide, by decide, by decide⟩
  have hds : CString (lineMemory [97, 32, 98]) 0x2000 [32] := ⟨by decide, by decide, by decide, by decide⟩
  refine (split_tokens_iff (s := ⟨lineMemory [97, 32, 98], 0, []⟩) hline hds (by decide) (Or.inl (by decide)) ?_).mpr
    ⟨by simp, ?_⟩
  · simp [words, delim, List.splitOnP_cons_eq_if_modifyHead, MAX_TOKENS]
  · simp [delim, spaced_cons, spaced_nil]

/-- Two blanks between two words give an empty token. -/
theorem split_tokens_empty : (words (delim [32]) [97, 32, 32, 98]).length = 2 ∧
    ¬ Tokenised 0x1000 0x2000 [97, 32, 32, 98] [32] ⟨lineMemory [97, 32, 32, 98], 0, []⟩ := by
  have hline : CString (lineMemory [97, 32, 32, 98]) 0x1000 [97, 32, 32, 98] :=
    ⟨by decide, by decide, by decide, by decide⟩
  have hds : CString (lineMemory [97, 32, 32, 98]) 0x2000 [32] := ⟨by decide, by decide, by decide, by decide⟩
  have hlen : (words (delim [32]) [97, 32, 32, 98]).length = 2 := by
    simp [words, delim, List.splitOnP_cons_eq_if_modifyHead]
  have hmax : (words (delim [32]) [97, 32, 32, 98]).length < MAX_TOKENS := by
    rw [hlen, MAX_TOKENS]
    omega
  refine ⟨hlen, fun h => ?_⟩
  have heq := (tokenised_iff_pieces (s := ⟨lineMemory [97, 32, 32, 98], 0, []⟩) hline hds (by decide)
    (Or.inl (by decide)) hmax).mp h
  have hspaced := ((pieces_eq_words_iff' delim_of_sep).mp heq).2
  simp [delim, spaced_cons, spaced_nil] at hspaced

end Raampjes.Initrd
