import Mathlib

/-!
# Words of a list

A list with separators: its words are the longest runs without one.

- `words`: the words, in order; `pieces`: what lies between single separators, behind the leading ones;
- `forall_tail_iff`: no piece behind the first is empty exactly when every separator is followed by something else;
- `pieces_eq_words_iff`: when the pieces for fewer separators are the words.
-/

namespace Words

variable {α : Type*} {p q : α → Bool} {l : List α}

/-- The longest runs of elements that are no separators. -/
def words (p : α → Bool) (l : List α) : List (List α) := (l.splitOnP p).filter (!·.isEmpty)

/-- What lies between single separators, when those at the start are left out. -/
def pieces (p : α → Bool) (l : List α) : List (List α) :=
  match l.dropWhile p with
  | [] => []
  | c :: rest => (c :: rest).splitOnP p

/-- Every separator is followed by an element that is none. -/
def Spaced (p : α → Bool) (l : List α) : Prop :=
  ∀ pre c post, l = pre ++ c :: post → p c = true → ∃ d post', post = d :: post' ∧ p d = false

theorem spaced_nil (p : α → Bool) : Spaced p [] := fun pre c post h => by simp at h

theorem spaced_cons {a : α} :
    Spaced p (a :: l) ↔ (p a = true → ∃ d post, l = d :: post ∧ p d = false) ∧ Spaced p l := by
  constructor
  · intro h
    exact ⟨fun ha => h [] a l rfl ha, fun pre c post hl hc => h (a :: pre) c post (by rw [hl]; rfl) hc⟩
  · rintro ⟨ha, hrest⟩ pre c post hl hc
    cases pre with
    | nil =>
      obtain ⟨rfl, rfl⟩ := List.cons.inj hl
      exact ha hc
    | cons b pre =>
      rw [List.cons_append] at hl
      obtain ⟨-, hl⟩ := List.cons.inj hl
      exact hrest pre c post hl hc

/-- The first piece begins with the first element, unless that is a separator. -/
theorem head_splitOnP (p : α → Bool) (l : List α) :
    (∃ w ws, l.splitOnP p = w :: ws ∧ w ≠ []) ↔ ∃ d post, l = d :: post ∧ p d = false := by
  cases l with
  | nil => simp [List.splitOnP_nil]
  | cons a l =>
    rw [List.splitOnP_cons_eq_if_modifyHead]
    obtain ⟨w, ws, hw⟩ := List.exists_cons_of_ne_nil (List.splitOnP_ne_nil p l)
    cases ha : p a with
    | true => simp [ha]
    | false => simp [hw, ha]

/-- **No piece behind the first is empty exactly when every separator is followed by something else.** -/
theorem forall_tail_iff : (∀ w ∈ (l.splitOnP p).tail, w ≠ []) ↔ Spaced p l := by
  induction l with
  | nil => exact iff_of_true (by simp [List.splitOnP_nil]) (spaced_nil p)
  | cons a l ih =>
    rw [spaced_cons, ← ih, ← head_splitOnP, List.splitOnP_cons_eq_if_modifyHead]
    obtain ⟨w, ws, hw⟩ := List.exists_cons_of_ne_nil (List.splitOnP_ne_nil p l)
    cases ha : p a with
    | true => simp [hw]
    | false => simp [hw]

theorem mem_splitOnP {c : α} (hc : c ∈ l) (h : p c = false) : ∃ w ∈ l.splitOnP p, c ∈ w := by
  induction l with
  | nil => cases hc
  | cons a l ih =>
    rw [List.splitOnP_cons_eq_if_modifyHead]
    obtain ⟨w, ws, hw⟩ := List.exists_cons_of_ne_nil (List.splitOnP_ne_nil p l)
    rcases List.mem_cons.mp hc with rfl | hc
    · simp [h, hw]
    · obtain ⟨v, hv, hcv⟩ := ih hc
      cases ha : p a with
      | true => exact ⟨v, by simpa using Or.inr hv, hcv⟩
      | false =>
        rw [hw] at hv
        rcases List.mem_cons.mp hv with rfl | hv
        · exact ⟨a :: v, by simp [hw], List.mem_cons_of_mem a hcv⟩
        · exact ⟨v, by simp [hw, hv], hcv⟩

theorem not_sep_of_mem {w : List α} (hw : w ∈ l.splitOnP p) {c : α} (hc : c ∈ w) : p c = false := by
  induction l generalizing w with
  | nil =>
    rw [List.splitOnP_nil, List.mem_singleton] at hw
    rw [hw] at hc
    cases hc
  | cons a l ih =>
    rw [List.splitOnP_cons_eq_if_modifyHead] at hw
    obtain ⟨v, vs, hv⟩ := List.exists_cons_of_ne_nil (List.splitOnP_ne_nil p l)
    rw [hv] at ih hw
    cases ha : p a with
    | true =>
      rw [if_pos ha] at hw
      rcases List.mem_cons.mp hw with rfl | hw
      · cases hc
      · exact ih hw hc
    | false =>
      rw [if_neg (by simp [ha]), List.modifyHead_cons] at hw
      rcases List.mem_cons.mp hw with rfl | hw
      · rcases List.mem_cons.mp hc with rfl | hc
        · exact ha
        · exact ih List.mem_cons_self hc
      · exact ih (List.mem_cons_of_mem v hw) hc

theorem splitOnP_congr (h : ∀ c ∈ l, p c = q c) : l.splitOnP p = l.splitOnP q := by
  induction l with
  | nil => rw [List.splitOnP_nil, List.splitOnP_nil]
  | cons a l ih =>
    rw [List.splitOnP_cons_eq_if_modifyHead, List.splitOnP_cons_eq_if_modifyHead, h a List.mem_cons_self,
      ih fun c hc => h c (List.mem_cons_of_mem a hc)]

theorem dropWhile_congr (h : ∀ c ∈ l, p c = q c) : l.dropWhile p = l.dropWhile q := by
  induction l with
  | nil => rfl
  | cons a l ih =>
    rw [List.dropWhile_cons, List.dropWhile_cons, h a List.mem_cons_self, ih fun c hc => h c (List.mem_cons_of_mem a hc)]

theorem spaced_congr (h : ∀ c ∈ l, p c = q c) : Spaced p l ↔ Spaced q l := by
  rw [← forall_tail_iff, ← forall_tail_iff, splitOnP_congr h]

theorem words_dropWhile (p : α → Bool) (l : List α) : words p (l.dropWhile p) = words p l := by
  induction l with
  | nil => rfl
  | cons a l ih =>
    cases ha : p a with
    | true =>
      rw [List.dropWhile_cons_of_pos ha, ih, words, words, List.splitOnP_cons_eq_if_modifyHead, if_pos ha]
      rfl
    | false => rw [List.dropWhile_cons_of_neg (by simp [ha])]

/-- **When the pieces for some of the separators are the words.** -/
theorem pieces_eq_words_iff (hpq : ∀ c, p c = true → q c = true) :
    pieces p l = words q l ↔ (∀ c ∈ l, q c = true → p c = true) ∧ Spaced p (l.dropWhile p) := by
  constructor
  · intro heq
    have hnot : ∀ w ∈ pieces p l, w ≠ [] ∧ ∀ c ∈ w, q c = false := by
      intro w hw
      rw [heq, words, List.mem_filter] at hw
      exact ⟨by simpa using hw.2, fun c hc => not_sep_of_mem hw.1 hc⟩
    constructor
    · intro c hc hq
      by_contra hp
      have hp : p c = false := by simpa using hp
      -- an element that is left is in some piece
      have hrest : c ∈ l.dropWhile p := by
        have hmem : c ∈ l.takeWhile p ++ l.dropWhile p := by rwa [List.takeWhile_append_dropWhile]
        rcases List.mem_append.mp hmem with ht | hd
        · exact absurd (List.mem_takeWhile_imp ht) (by simp [hp])
        · exact hd
      obtain ⟨w, hw, hcw⟩ := mem_splitOnP hrest hp
      have hwp : w ∈ pieces p l := by
        rw [pieces]
        split
        · next hnil =>
          rw [hnil] at hrest
          cases hrest
        · next hcons => rwa [hcons] at hw
      rw [(hnot w hwp).2 c hcw] at hq
      cases hq
    · rw [← forall_tail_iff]
      intro w hw
      refine (hnot w ?_).1
      rw [pieces]
      split
      · next hnil =>
        rw [hnil, List.splitOnP_nil] at hw
        cases hw
      · next hcons =>
        rw [hcons] at hw
        exact List.mem_of_mem_tail hw
  · rintro ⟨hsame, hspaced⟩
    have hcongr : ∀ c ∈ l, p c = q c := by
      intro c hc
      cases hq : q c with
      | true => exact hsame c hc hq
      | false =>
        by_contra hp
        rw [hpq c (by simpa using hp)] at hq
        cases hq
    have hwords : words q l = words p (l.dropWhile p) := by
      rw [words_dropWhile, words, words, splitOnP_congr hcongr]
    rw [hwords, pieces]
    split
    · next hnil =>
      rw [hnil]
      rfl
    · next c rest hcons =>
      have hc : p c = false := by
        have := List.head_dropWhile_not p (l := l) (by rw [hcons]; exact List.cons_ne_nil c rest)
        simpa [hcons] using this
      rw [hcons] at hspaced ⊢
      rw [words]
      symm
      rw [List.filter_eq_self]
      intro w hw
      obtain ⟨v, vs, hv, hne⟩ := (head_splitOnP p (c :: rest)).mpr ⟨c, rest, rfl, hc⟩
      have htail := forall_tail_iff.mpr hspaced
      rw [hv] at hw htail
      rcases List.mem_cons.mp hw with rfl | hw
      · simpa using hne
      · simpa using htail w hw

/-- The same with the words' own separators in the condition. -/
theorem pieces_eq_words_iff' (hpq : ∀ c, p c = true → q c = true) :
    pieces p l = words q l ↔ (∀ c ∈ l, q c = true → p c = true) ∧ Spaced q (l.dropWhile q) := by
  rw [pieces_eq_words_iff hpq]
  refine and_congr_right fun hsame => ?_
  have hcongr : ∀ c ∈ l, p c = q c := fun c hc => Bool.eq_iff_iff.mpr ⟨hpq c, hsame c hc⟩
  rw [dropWhile_congr hcongr]
  exact spaced_congr fun c hc => hcongr c ((List.dropWhile_sublist q).mem hc)

end Words
