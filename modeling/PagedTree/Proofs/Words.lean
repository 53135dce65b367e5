import Mathlib.Data.List.Basic
import PagedTree.Text.Blank

/-! # Words and the blanks between them

What trimming and splitting make of a text is said by how the text is put together: from blanks, from
words, which have no blank in them, and from text that neither starts nor ends with a blank.
-/
namespace PagedTree.Text

def Blank (s : List Char) : Prop := ∀ c ∈ s, isBlank c

def Unbroken (s : List Char) : Prop := ∀ c ∈ s, isBlank c = false

/-- What separates two words. -/
def Gap (s : List Char) : Prop := s ≠ [] ∧ Blank s

def Word (s : List Char) : Prop := s ≠ [] ∧ Unbroken s

/-- No blank stands at either end. -/
def Tight (s : List Char) : Prop :=
  (∀ c, s.head? = some c → isBlank c = false) ∧ ∀ c, s.getLast? = some c → isBlank c = false

/-- A word in front of this text ends there. -/
def Stops (s : List Char) : Prop := ∀ c, s.head? = some c → isBlank c

variable {b g e r s t u w : List Char}

instance : Decidable (Blank s) := decidable_of_iff (s.all isBlank = true) List.all_eq_true

instance : Decidable (Unbroken s) :=
  decidable_of_iff (s.any isBlank = false) (by simp [Unbroken])

instance : Decidable (Gap s) := inferInstanceAs (Decidable (s ≠ [] ∧ Blank s))

instance : Decidable (Word s) := inferInstanceAs (Decidable (s ≠ [] ∧ Unbroken s))

theorem Blank.nil : Blank [] := by simp [Blank]

theorem Blank.stops (h : Blank s) : Stops s := fun _ hc => h _ (List.mem_of_mem_head? hc)

theorem Blank.append (h : Blank s) (h' : Blank t) : Blank (s ++ t) := by
  intro c hc
  rcases List.mem_append.1 hc with hc | hc
  · exact h c hc
  · exact h' c hc

theorem Blank.notMem (h : Blank s) {c : Char} (hc : isBlank c = false) : c ∉ s := by
  intro hmem
  have hblank := h c hmem
  rw [hc] at hblank
  cases hblank

/-- Only an empty text both ends a word and starts without a blank. -/
theorem Stops.eq_nil (h : Stops s) (h' : ∀ c, s.head? = some c → isBlank c = false) : s = [] := by
  cases s with
  | nil => rfl
  | cons c s =>
    have hblank := h c rfl
    rw [h' c rfl] at hblank
    cases hblank

theorem Gap.stops (h : Gap g) (s : List Char) : Stops (g ++ s) := by
  obtain ⟨c, g, rfl⟩ := List.exists_cons_of_ne_nil h.1
  intro d hd
  exact h.2 d (by simp_all)

theorem Unbroken.tight (h : Unbroken s) : Tight s :=
  ⟨fun c hc => h c (List.mem_of_mem_head? hc), fun c hc => h c (List.mem_of_getLast? hc)⟩

theorem Tight.append (hs : Tight s) (ht : Tight t) (hs' : s ≠ []) (ht' : t ≠ []) :
    Tight (s ++ u ++ t) := by
  constructor
  · intro c hc
    rw [List.append_assoc, List.head?_append_of_ne_nil s hs'] at hc
    exact hs.1 c hc
  · intro c hc
    rw [List.getLast?_append_of_ne_nil _ ht'] at hc
    exact ht.2 c hc

/-! ## Trimming -/

theorem trimStart_append (hb : Blank b) (ht : ∀ c, t.head? = some c → isBlank c = false) :
    trimStart (b ++ t) = t := by
  rw [trimStart, List.dropWhile_append_of_pos hb]
  cases t with
  | nil => rfl
  | cons c t =>
    have hfull := ht c rfl
    rw [List.dropWhile_cons_of_neg (by simp [hfull])]

theorem exists_trimStart (s : List Char) : ∃ b, Blank b ∧ s = b ++ trimStart s ∧
    ∀ c, (trimStart s).head? = some c → isBlank c = false := by
  refine ⟨s.takeWhile isBlank, ?_, List.takeWhile_append_dropWhile.symm, ?_⟩
  · exact fun c hc => List.all_eq_true.1 List.all_takeWhile c hc
  · intro c hc
    have hstop := List.head?_dropWhile_not isBlank s
    rw [trimStart] at hc
    rw [hc] at hstop
    exact hstop

theorem trim_eq (hb : Blank b) (ht : Tight t) (he : Blank e) : trim (b ++ t ++ e) = t := by
  have hrev : Blank e.reverse := fun c hc => he c (List.mem_reverse.1 hc)
  have hlast : ∀ c, t.reverse.head? = some c → isBlank c = false := by
    rw [List.head?_reverse]
    exact ht.2
  have hend : trimEnd (t ++ e) = t := by
    rw [trimEnd, List.reverse_append]
    exact (congrArg List.reverse (trimStart_append hrev hlast)).trans (List.reverse_reverse t)
  by_cases hnil : t = []
  · subst hnil
    have hstart := trimStart_append (hb.append he) (t := []) (by simp)
    rw [List.append_nil] at hstart
    rw [trim, List.append_nil, hstart]
    rfl
  · have hfirst : ∀ c, (t ++ e).head? = some c → isBlank c = false := by
      rw [List.head?_append_of_ne_nil _ hnil]
      exact ht.1
    rw [trim, List.append_assoc, trimStart_append hb hfirst, hend]

theorem exists_trim (s : List Char) :
    ∃ b e, Blank b ∧ Blank e ∧ Tight (trim s) ∧ s = b ++ trim s ++ e := by
  obtain ⟨b, hb, hs, hfirst⟩ := exists_trimStart s
  obtain ⟨e, he, hrev, hlast⟩ := exists_trimStart (trimStart s).reverse
  have htrim : trim s = (trimStart (trimStart s).reverse).reverse := rfl
  have hrest : trimStart s = trim s ++ e.reverse := by
    rw [htrim, ← List.reverse_append, ← hrev, List.reverse_reverse]
  refine ⟨b, e.reverse, hb, fun c hc => he c (List.mem_reverse.1 hc), ?_, ?_⟩
  · constructor
    · intro c hc
      apply hfirst
      rw [hrest, List.head?_append, hc]
      rfl
    · intro c hc
      apply hlast
      rwa [htrim, List.getLast?_reverse] at hc
  · rw [List.append_assoc, ← hrest]
    exact hs

theorem trim_eq_nil_iff : trim s = [] ↔ Blank s := by
  constructor
  · intro h
    obtain ⟨b, e, hb, he, -, hs⟩ := exists_trim s
    rw [h, List.append_nil] at hs
    rw [hs]
    exact hb.append he
  · intro h
    have htight : Tight [] := ⟨by simp, by simp⟩
    simpa using trim_eq h htight Blank.nil

/-- What is left of a text behind a word starts with a gap, unless nothing is left. -/
theorem Stops.exists_gap (h : Stops r) (hne : trim r ≠ []) :
    ∃ g e, Gap g ∧ Blank e ∧ r = g ++ trim r ++ e := by
  obtain ⟨g, e, hg, he, htight, hr⟩ := exists_trim r
  refine ⟨g, e, ⟨?_, hg⟩, he, hr⟩
  rintro rfl
  apply hne
  apply Stops.eq_nil _ htight.1
  intro c hc
  apply h
  rw [hr, List.nil_append, List.head?_append_of_ne_nil _ hne]
  exact hc

/-! ## The first word -/

theorem splitFirst_word (hw : Unbroken w) : splitFirst w = (w, []) := by
  have hall : ∀ c ∈ w, !isBlank c := fun c hc => by simp [hw c hc]
  have htake : (w ++ []).takeWhile (fun c => !isBlank c) = w ++ [] :=
    List.takeWhile_append_of_pos hall
  have hdrop : (w ++ []).dropWhile (fun c => !isBlank c) = [] :=
    List.dropWhile_append_of_pos hall
  rw [List.append_nil] at htake hdrop
  rw [splitFirst, htake, hdrop, List.drop_nil]

theorem splitFirst_cons (hw : Unbroken w) {c : Char} (hc : isBlank c) (r : List Char) :
    splitFirst (w ++ c :: r) = (w, r) := by
  have hall : ∀ d ∈ w, !isBlank d := fun d hd => by simp [hw d hd]
  rw [splitFirst, List.takeWhile_append_of_pos hall, List.dropWhile_append_of_pos hall,
    List.takeWhile_cons_of_neg (by simp [hc]), List.dropWhile_cons_of_neg (by simp [hc])]
  simp

theorem splitFirst_gap (hw : Unbroken w) (hg : Gap g) (t : List Char) :
    ∃ g', Blank g' ∧ splitFirst (w ++ g ++ t) = (w, g' ++ t) := by
  obtain ⟨c, g, rfl⟩ := List.exists_cons_of_ne_nil hg.1
  refine ⟨g, fun d hd => hg.2 d (List.mem_cons_of_mem _ hd), ?_⟩
  rw [List.append_assoc, List.cons_append]
  exact splitFirst_cons hw (hg.2 c List.mem_cons_self) _

/-- A text up to its first blank and from there on. -/
theorem exists_stop (s : List Char) : ∃ w r, Unbroken w ∧ Stops r ∧ s = w ++ r := by
  refine ⟨_, _, ?_, ?_, (List.takeWhile_append_dropWhile (p := fun c => !isBlank c)).symm⟩
  · intro c hc
    simpa using List.all_eq_true.1 List.all_takeWhile c hc
  · intro c hc
    have hstop := List.head?_dropWhile_not (fun c => !isBlank c) s
    rw [hc] at hstop
    simpa using hstop

/-- Every text is a word with blanks before it and a stop behind it, or blank. -/
theorem exists_word (s : List Char) :
    Blank s ∨ ∃ b w r, Blank b ∧ Word w ∧ Stops r ∧ s = b ++ w ++ r := by
  obtain ⟨b, hb, hs, hfirst⟩ := exists_trimStart s
  obtain ⟨w, r, hw, hr, hrest⟩ := exists_stop (trimStart s)
  by_cases hne : w = []
  · left
    subst hne
    -- otherwise the text behind the blanks would start with a blank
    rw [hrest, List.nil_append] at hs hfirst
    rw [hs, hr.eq_nil hfirst, List.append_nil]
    exact hb
  · right
    refine ⟨b, w, r, hb, ⟨hne, hw⟩, hr, ?_⟩
    rw [List.append_assoc, ← hrest]
    exact hs

/-- Splitting off the first word leaves what stands behind it. -/
theorem splitFirst_trim (hb : Blank b) (hw : Word w) (hr : Stops r) :
    ∃ x, splitFirst (trim (b ++ w ++ r)) = (w, x) ∧ trim x = trim r := by
  by_cases hnil : trim r = []
  · refine ⟨[], ?_, ?_⟩
    · rw [trim_eq hb hw.2.tight (trim_eq_nil_iff.1 hnil), splitFirst_word hw.2]
    · rw [hnil, trim_eq_nil_iff]
      exact Blank.nil
  · obtain ⟨g, e, hg, he, hrest⟩ := hr.exists_gap hnil
    obtain ⟨-, -, -, -, htight, -⟩ := exists_trim r
    obtain ⟨g', hg', hsplit⟩ := splitFirst_gap hw.2 hg (trim r)
    have hall : b ++ w ++ r = b ++ (w ++ g ++ trim r) ++ e := by
      simp only [List.append_assoc] at hrest ⊢
      rw [← hrest]
    refine ⟨g' ++ trim r, ?_, ?_⟩
    · rw [hall, trim_eq hb (hw.2.tight.append htight hw.1 hnil) he, hsplit]
    · simpa using trim_eq hg' htight Blank.nil

/-! ## Splitting -/

variable {p : Char → Bool}

theorem splitAll_free (h : ∀ c ∈ s, p c = false) : splitAll p s = [s] := by
  induction s with
  | nil => rfl
  | cons c s ih =>
    have hc := h c List.mem_cons_self
    have hs := ih fun d hd => h d (List.mem_cons_of_mem _ hd)
    rw [splitAll, hc, if_neg (by decide), hs]

theorem splitAll_cons (h : ∀ c ∈ s, p c = false) {c : Char} (hc : p c) (t : List Char) :
    splitAll p (s ++ c :: t) = s :: splitAll p t := by
  induction s with
  | nil => rw [List.nil_append, splitAll, if_pos hc]
  | cons d s ih =>
    have hd := h d List.mem_cons_self
    have hs := ih fun e he => h e (List.mem_cons_of_mem _ he)
    rw [List.cons_append, splitAll, hd, if_neg (by decide), hs]

/-- Texts that are joined by a separator which is in none of them are found again. -/
theorem splitAll_intercalate {ss : List (List Char)} {c : Char} (hc : p c) (hne : ss ≠ [])
    (hfree : ∀ s ∈ ss, ∀ d ∈ s, p d = false) : splitAll p ([c].intercalate ss) = ss := by
  induction ss with
  | nil => exact absurd rfl hne
  | cons s ss ih =>
    have hs := hfree s List.mem_cons_self
    cases ss with
    | nil => simpa using splitAll_free hs
    | cons t ss =>
      have hrest := ih (List.cons_ne_nil _ _) fun u hu => hfree u (List.mem_cons_of_mem _ hu)
      rw [List.intercalate_cons_cons, List.append_assoc, List.singleton_append,
        splitAll_cons hs hc, hrest]

theorem words_nil : words [] = [] := rfl

theorem words_gap (hb : Blank b) (s : List Char) : words (b ++ s) = words s := by
  induction b with
  | nil => rfl
  | cons c b ih =>
    have hc := hb c List.mem_cons_self
    have hrest := ih fun d hd => hb d (List.mem_cons_of_mem _ hd)
    rw [List.cons_append, words, splitAll, if_pos hc, List.filter_cons_of_neg (by simp)]
    exact hrest

theorem words_word (hw : Word w) (hr : Stops r) : words (w ++ r) = w :: words r := by
  have hkept : (!w.isEmpty) = true := by simpa using hw.1
  cases r with
  | nil =>
    rw [List.append_nil, words, splitAll_free hw.2, List.filter_cons, if_pos hkept]
    rfl
  | cons c r =>
    have hc := hr c rfl
    have hgap : words (c :: r) = words r :=
      words_gap (b := [c]) (by simpa [Blank] using hc) r
    rw [hgap, words, splitAll_cons hw.2 hc, List.filter_cons, if_pos hkept]
    rfl

/-- These words, with gaps between them. -/
inductive Spaced : List (List Char) → List Char → Prop where
  | last {w : List Char} : Word w → Spaced [w] w
  | cons {w g s : List Char} {ws : List (List Char)} : Word w → Gap g → Spaced ws s →
      Spaced (w :: ws) (w ++ g ++ s)

theorem Spaced.notMem {ws : List (List Char)} (h : Spaced ws s) {c : Char}
    (hc : isBlank c = false) (hws : ∀ w ∈ ws, c ∉ w) : c ∉ s := by
  induction h with
  | last => exact hws _ List.mem_cons_self
  | cons _ hg _ ih =>
    have hw := hws _ List.mem_cons_self
    have hrest := ih fun w hw => hws w (List.mem_cons_of_mem _ hw)
    simp only [List.mem_append, not_or]
    exact ⟨⟨hw, hg.2.notMem hc⟩, hrest⟩

theorem words_spaced {ws : List (List Char)} (hb : Blank b) (h : Spaced ws s) (he : Blank e) :
    words (b ++ s ++ e) = ws := by
  rw [List.append_assoc, words_gap hb]
  induction h with
  | last hw =>
    rw [words_word hw he.stops, ← List.append_nil e, words_gap he, words_nil]
  | cons hw hg _ ih =>
    rw [List.append_assoc, List.append_assoc, words_word hw (hg.stops _), words_gap hg.2, ih]

end PagedTree.Text
