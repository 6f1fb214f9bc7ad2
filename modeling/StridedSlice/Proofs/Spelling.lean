import StridedSlice.Text.Blank
import Mathlib.Data.List.DropRight
import Mathlib.Data.List.Forall2
/-!
# StridedSlice.Proofs.Spelling

**Blanks around a text and the case of its letters.** What a reader overlooks in a text is said
here by relations between texts, and not by the functions that take it away:

* `Trims`: what is left of a text without the blanks at its ends. There is always one such text,
  and it is the one that `trimList` finds (`trimList_eq_iff`);
* `Lowers`: a text in small letters. Only the capitals of ASCII have a small form that is not
  themselves (`lowers_iff`);
* `SameLetters`: texts that are equal up to case.
-/

namespace StridedSlice.Text

/-! ### Blanks at the ends -/

/-- Nothing but blanks. -/
def Blank (cs : List Char) : Prop := ∀ c ∈ cs, isBlank c = true

instance (cs : List Char) : Decidable (Blank cs) :=
  decidable_of_iff (cs.all isBlank = true) List.all_eq_true

/-- What is left of a text without the blanks at its ends: there are only blanks before and
behind it, and it neither begins nor ends with one. -/
structure Trims (cs word : List Char) : Prop where
  surrounded : ∃ before behind, cs = before ++ word ++ behind ∧ Blank before ∧ Blank behind
  first : ∀ c ∈ word.head?, isBlank c = false
  last : ∀ c ∈ word.getLast?, isBlank c = false

theorem trimList_eq_rdropWhile (cs : List Char) :
    trimList cs = (cs.dropWhile isBlank).rdropWhile isBlank := rfl

theorem isBlank_of_mem_head?_dropWhile {cs : List Char} {c : Char}
    (h : c ∈ (cs.dropWhile isBlank).head?) : isBlank c = false := by
  have hnot := List.head?_dropWhile_not isBlank cs
  rw [Option.mem_def.mp h] at hnot
  exact hnot

theorem isBlank_of_mem_getLast?_rdropWhile {cs : List Char} {c : Char}
    (h : c ∈ (cs.rdropWhile isBlank).getLast?) : isBlank c = false := by
  obtain ⟨hne, rfl⟩ := List.mem_getLast?_eq_getLast h
  exact Bool.eq_false_iff.mpr (List.rdropWhile_last_not isBlank cs hne)

theorem trims_trimList (cs : List Char) : Trims cs (trimList cs) where
  surrounded := by
    refine ⟨cs.takeWhile isBlank, (cs.dropWhile isBlank).rtakeWhile isBlank, ?_,
      fun _ => List.mem_takeWhile_imp, fun _ => List.mem_rtakeWhile_imp⟩
    rw [trimList_eq_rdropWhile, List.append_assoc, List.rdropWhile_append_rtakeWhile,
      List.takeWhile_append_dropWhile]
  first := by
    intro c hc
    -- What is taken away behind leaves the beginning as it is.
    obtain ⟨behind, hbehind⟩ := List.rdropWhile_prefix isBlank (cs.dropWhile isBlank)
    have hfirst : c ∈ (cs.dropWhile isBlank).head? := by
      rw [← hbehind, ← trimList_eq_rdropWhile]
      exact List.mem_head?_append_of_mem_head? hc
    exact isBlank_of_mem_head?_dropWhile hfirst
  last := fun _ => isBlank_of_mem_getLast?_rdropWhile

theorem Trims.trimList_eq {cs word : List Char} (h : Trims cs word) : trimList cs = word := by
  obtain ⟨⟨before, behind, rfl, hbefore, hbehind⟩, hfirst, hlast⟩ := h
  rw [trimList_eq_rdropWhile, List.append_assoc, List.dropWhile_append_of_pos hbefore]
  cases word with
  | nil =>
      rw [List.nil_append, List.dropWhile_eq_nil_iff.mpr hbehind]
      rfl
  | cons c rest =>
      have hword : (c :: rest).rdropWhile isBlank = c :: rest :=
        List.rdropWhile_eq_self_iff.mpr fun hne => by
          simpa using hlast _ (List.getLast_mem_getLast? hne)
      have hc : ¬ isBlank c = true := Bool.eq_false_iff.mp (hfirst c rfl)
      have hreverse : ∀ d ∈ behind.reverse, isBlank d = true :=
        fun d hd => hbehind d (List.mem_reverse.mp hd)
      rw [List.cons_append, List.dropWhile_cons_of_neg hc, ← List.cons_append, List.rdropWhile,
        List.reverse_append, List.dropWhile_append_of_pos hreverse]
      exact hword

/-- **There is one text without the blanks at its ends**, and it is the one that is found. -/
theorem trimList_eq_iff {cs word : List Char} : trimList cs = word ↔ Trims cs word :=
  ⟨fun h => h ▸ trims_trimList cs, Trims.trimList_eq⟩

/-- Around a word without blanks, blanks are taken away on the far sides only. -/
theorem trimList_around {before word behind : List Char} (hne : word ≠ [])
    (hword : ∀ c ∈ word, isBlank c = false) :
    trimList (before ++ word ++ behind) =
      before.dropWhile isBlank ++ word ++ behind.rdropWhile isBlank := by
  refine Trims.trimList_eq ⟨⟨before.takeWhile isBlank, behind.rtakeWhile isBlank, ?_,
    fun _ => List.mem_takeWhile_imp, fun _ => List.mem_rtakeWhile_imp⟩, fun c hc => ?_,
    fun c hc => ?_⟩
  · calc before ++ word ++ behind
        _ = before.takeWhile isBlank ++ before.dropWhile isBlank ++ word ++
            (behind.rdropWhile isBlank ++ behind.rtakeWhile isBlank) := by
          rw [List.takeWhile_append_dropWhile, List.rdropWhile_append_rtakeWhile]
        _ = _ := by simp only [List.append_assoc]
  · rw [List.append_assoc, List.head?_append, Option.mem_def, Option.or_eq_some_iff] at hc
    rcases hc with hfirst | ⟨-, hfirst⟩
    · exact isBlank_of_mem_head?_dropWhile hfirst
    · rw [List.head?_append_of_ne_nil _ hne] at hfirst
      exact hword c (List.mem_of_mem_head? hfirst)
  · rw [List.getLast?_append, Option.mem_def, Option.or_eq_some_iff] at hc
    rcases hc with hlast | ⟨-, hlast⟩
    · exact isBlank_of_mem_getLast?_rdropWhile hlast
    · rw [List.getLast?_append_of_ne_nil _ hne] at hlast
      exact hword c (List.mem_of_mem_getLast? hlast)

/-! ### Small letters -/

/-- A character and its small form: that of a capital of ASCII is 32 code points further on, and
every other character is its own. -/
def SmallForm (c d : Char) : Prop :=
  if 'A' ≤ c ∧ c ≤ 'Z' then d.toNat = c.toNat + 32 else d = c

/-- A text and the same text in small letters. -/
def Lowers (s t : List Char) : Prop := List.Forall₂ SmallForm s t

/-- Texts that are equal up to the case of ASCII letters: in small letters they are the same. -/
def SameLetters (s t : List Char) : Prop := ∃ u, Lowers s u ∧ Lowers t u

theorem toNat_toLower {c : Char} (h : 'A' ≤ c ∧ c ≤ 'Z') : c.toLower.toNat = c.toNat + 32 := by
  have hlast : c.toNat ≤ 90 := h.2
  have hlower : c.toLower.toNat = (c.toNat + 32) % 2 ^ 32 := congrArg Char.toNat (dif_pos h)
  omega

theorem toLower_eq_self {c : Char} (h : ¬('A' ≤ c ∧ c ≤ 'Z')) : c.toLower = c := dif_neg h

theorem smallForm_iff {c d : Char} : SmallForm c d ↔ c.toLower = d := by
  unfold SmallForm
  split_ifs with hcapital
  · rw [← toNat_toLower hcapital, Char.toNat_inj, eq_comm]
  · rw [toLower_eq_self hcapital, eq_comm]

theorem lowers_iff {s t : List Char} : Lowers s t ↔ s.map Char.toLower = t := by
  have hmap : List.Forall₂ (· = ·) (s.map Char.toLower) t ↔ Lowers s t := by
    simp only [List.forall₂_map_left_iff, ← smallForm_iff]
    rfl
  rw [← hmap, List.forall₂_eq_eq_eq]

theorem sameLetters_iff {s t : List Char} :
    SameLetters s t ↔ s.map Char.toLower = t.map Char.toLower := by
  simp only [SameLetters, lowers_iff]
  exact ⟨fun ⟨_, hs, ht⟩ => hs.trans ht.symm, fun h => ⟨_, rfl, h.symm⟩⟩

/-! ### Plain characters -/

/-- A character of ASCII that is not blank. -/
def Plain (c : Char) : Prop := c.toNat < 128 ∧ isBlank c = false

theorem plain_of_range {c : Char} (h : 33 ≤ c.toNat) (h' : c.toNat < 128) : Plain c := by
  refine ⟨h', ?_⟩
  simp only [isBlank, Bool.or_eq_false_iff, Bool.and_eq_false_iff, decide_eq_false_iff_not,
    beq_eq_false_iff_ne]
  omega

/-- Taking away the case of a letter makes no character plain that was not. -/
theorem plain_of_toLower {c : Char} (h : Plain c.toLower) : Plain c := by
  by_cases hcapital : 'A' ≤ c ∧ c ≤ 'Z'
  · have hfirst : 65 ≤ c.toNat := hcapital.1
    have hlast : c.toNat ≤ 90 := hcapital.2
    exact plain_of_range (by omega) (by omega)
  · rwa [toLower_eq_self hcapital] at h

end StridedSlice.Text
