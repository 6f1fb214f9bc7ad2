import StridedSlice.DType
import StridedSlice.Proofs.Spelling
/-!
# StridedSlice.Proofs.Naming

**The names of data types, and the texts that are read as one.** The exact names are those of
`DType.names`. A text is read as a data type if what is left of it between its blanks is a name
up to the case of letters, and otherwise it is refused with what was compared
(`DType.parse_eq_ok_iff`, `DType.parse_eq_error_iff`).

So nothing can be added to a name, or put inside it. Two facts about the names carry this: they
are made of plain characters (`DType.plain_of_mem_names`), and the only name inside another one
is that of a signed integer, after the `u` of the unsigned one (`DType.affixes_of_names`).
-/

namespace StridedSlice.DType

/-! ### Names -/

/-- All names of a data type: the one that it is written with, and for the widest integers a
further one. -/
def names (d : DType) : List String :=
  match d with
  | .int64 => [d.name, "intp"]
  | .uint64 => [d.name, "uintp"]
  | _ => [d.name]

/-- Whether a text is a name of a data type, up to the case of letters. -/
def SpelledAs (d : DType) (word : List Char) : Prop :=
  ∃ name ∈ d.names, Text.SameLetters word name.toList

/-- The reader of exact names knows all of them, and no other text. -/
theorem ofName?_eq_some_iff {s : String} {d : DType} : ofName? s = some d ↔ s ∈ d.names := by
  constructor
  · intro h
    unfold ofName? at h
    split at h <;> first | (cases h; decide) | cases h
  · intro h
    cases d <;> simp only [names, name, List.mem_cons, List.not_mem_nil, or_false] at h <;>
      rcases h with rfl | rfl <;> rfl

/-- Names have plain characters only, and no capitals. -/
theorem plain_of_mem_names {d : DType} {name : String} (h : name ∈ d.names) {c : Char}
    (hc : c ∈ name.toList) : Text.Plain c ∧ c.toLower = c := by
  have hall : ∀ d ∈ all, ∀ name ∈ d.names,
      name.toList.all (fun c => (33 ≤ c.toNat ∧ c.toNat < 128) ∧ c.toLower = c) = true := by
    decide +kernel
  obtain ⟨⟨hlow, hhigh⟩, hlower⟩ :=
    of_decide_eq_true (List.all_eq_true.mp (hall d (mem_all d) name h) c hc)
  exact ⟨Text.plain_of_range hlow hhigh, hlower⟩

/-- A name is written in small letters. -/
theorem map_toLower_of_mem_names {d : DType} {name : String} (h : name ∈ d.names) :
    name.toList.map Char.toLower = name.toList :=
  (List.map_congr_left fun _ hc => (plain_of_mem_names h hc).2).trans (List.map_id _)

/-- **Affixes of names.** Around a name there is nothing in another name but the `u` that makes
a signed integer an unsigned one. -/
theorem affixes_of_names {d d' : DType} {name name' : String} {x y : List Char}
    (hname : name ∈ d.names) (hname' : name' ∈ d'.names)
    (h : x ++ name.toList ++ y = name'.toList) :
    x = [] ∧ y = [] ∨ x = ['u'] ∧ y = [] ∧ d'.name = "u" ++ d.name := by
  -- All places at which a name can stand in another one.
  have hall : ∀ d ∈ all, ∀ name ∈ d.names, ∀ d' ∈ all, ∀ name' ∈ d'.names,
      ∀ i ∈ List.range (name'.toList.length + 1), name.toList <+: name'.toList.drop i →
        i = 0 ∧ name'.toList = name.toList ∨
          i = 1 ∧ name'.toList = 'u' :: name.toList ∧ d'.name = "u" ++ d.name := by
    decide +kernel
  have hplace : x.length ∈ List.range (name'.toList.length + 1) := by
    rw [List.mem_range, ← h, List.length_append, List.length_append]
    omega
  have hinside : name.toList <+: name'.toList.drop x.length := by
    rw [← h, List.append_assoc, List.drop_left]
    exact List.prefix_append ..
  rcases hall d (mem_all d) name hname d' (mem_all d') name' hname' _ hplace hinside with
    ⟨hx, hsame⟩ | ⟨hx, hsame, hunsigned⟩
  · obtain rfl := List.length_eq_zero_iff.mp hx
    exact .inl ⟨rfl, List.append_right_eq_self.mp (h.trans hsame)⟩
  · obtain ⟨c, rfl⟩ := List.length_eq_one_iff.mp hx
    rw [hsame, List.singleton_append, List.cons_append, List.cons.injEq] at h
    exact .inr ⟨by rw [h.1], List.append_right_eq_self.mp h.2, hunsigned⟩

theorem u_append_mem_names {d d' : DType} {name : String} (hname : name ∈ d.names)
    (h : d'.name = "u" ++ d.name) : "u" ++ name ∈ d'.names := by
  have hall : ∀ d ∈ all, ∀ name ∈ d.names, ∀ d' ∈ all, d'.name = "u" ++ d.name →
      "u" ++ name ∈ d'.names := by decide +kernel
  exact hall d (mem_all d) name hname d' (mem_all d') h

namespace SpelledAs

variable {d : DType} {word : List Char} (h : d.SpelledAs word)
include h

theorem exists_map_toLower : ∃ name ∈ d.names, word.map Char.toLower = name.toList := by
  obtain ⟨name, hname, hsame⟩ := h
  refine ⟨name, hname, ?_⟩
  rw [Text.sameLetters_iff.mp hsame, map_toLower_of_mem_names hname]

theorem plain {c : Char} (hc : c ∈ word) : Text.Plain c := by
  obtain ⟨name, hname, hlower⟩ := h.exists_map_toLower
  have hmem : c.toLower ∈ name.toList := hlower ▸ List.mem_map_of_mem hc
  exact Text.plain_of_toLower (plain_of_mem_names hname hmem).1

theorem ne_nil : word ≠ [] := by
  rintro rfl
  obtain ⟨name, hname, hlower⟩ := h.exists_map_toLower
  have hnonempty : ∀ d ∈ all, ∀ name ∈ d.names, name.toList ≠ [] := by decide +kernel
  exact hnonempty d (mem_all d) name hname hlower.symm

end SpelledAs

theorem spelledAs_iff {d : DType} {word : List Char} :
    d.SpelledAs word ↔ String.ofList (word.map Char.toLower) ∈ d.names := by
  constructor
  · intro h
    obtain ⟨name, hname, hlower⟩ := h.exists_map_toLower
    rwa [hlower, String.ofList_toList]
  · intro h
    refine ⟨_, h, Text.sameLetters_iff.mpr ?_⟩
    rw [map_toLower_of_mem_names h, String.toList_ofList]

/-! ### Reading -/

/-- **What is read**: a name, up to the case of letters, between blanks. -/
theorem parse_eq_ok_iff {s : String} {d : DType} :
    parse s = .ok d ↔ d.SpelledAs (Text.trimList s.toList) := by
  rw [spelledAs_iff, ← ofName?_eq_some_iff, parse, normalForm]
  cases ofName? (String.ofList ((Text.trimList s.toList).map Char.toLower)) <;> simp

/-- **What is refused**: everything else, with the text that was compared. -/
theorem parse_eq_error_iff {s : String} {e : ParseError} :
    parse s = .error e ↔
      (∀ d : DType, ¬ d.SpelledAs (Text.trimList s.toList)) ∧
        Text.Lowers (Text.trimList s.toList) e.text.toList := by
  have hnone : (∀ d : DType, ¬ d.SpelledAs (Text.trimList s.toList)) ↔
      ofName? (normalForm s) = none := by
    simp only [spelledAs_iff, ← ofName?_eq_some_iff, Option.eq_none_iff_forall_ne_some]
    rfl
  have htext : Text.Lowers (Text.trimList s.toList) e.text.toList ↔
      ParseError.mk (normalForm s) = e := by
    obtain ⟨text⟩ := e
    rw [Text.lowers_iff, ParseError.mk.injEq, normalForm, ← String.toList_inj, String.toList_ofList]
  rw [hnone, htext, parse]
  cases ofName? (normalForm s) <;> simp

/-- A text is refused with what is left of it between the blanks, in small letters. -/
def Refused (s : String) : Prop :=
  ∃ word e, Text.Trims s.toList word ∧ Text.Lowers word e.text.toList ∧ parse s = .error e

/-- What is not read is refused. -/
theorem refused_of_parse_ne_ok {s : String} (h : ∀ d, parse s ≠ .ok d) : Refused s := by
  cases hparse : parse s with
  | ok d => exact absurd hparse (h d)
  | error e =>
      exact ⟨_, e, Text.trims_trimList s.toList, (parse_eq_error_iff.mp hparse).2, hparse⟩

/-- What is left between the blanks is a name exactly if some text between blanks is one. -/
theorem spelledAs_trimList_iff {d : DType} {cs : List Char} :
    d.SpelledAs (Text.trimList cs) ↔
      ∃ before word behind, cs = before ++ word ++ behind ∧ Text.Blank before ∧
        Text.Blank behind ∧ d.SpelledAs word := by
  constructor
  · intro h
    obtain ⟨before, behind, hcs, hbefore, hbehind⟩ := (Text.trims_trimList cs).surrounded
    exact ⟨before, _, behind, hcs, hbefore, hbehind, h⟩
  · rintro ⟨before, word, behind, hcs, hbefore, hbehind, h⟩
    have htrims : Text.Trims cs word :=
      ⟨⟨before, behind, hcs, hbefore, hbehind⟩,
        fun c hc => (h.plain (List.mem_of_mem_head? hc)).2,
        fun c hc => (h.plain (List.mem_of_mem_getLast? hc)).2⟩
    rwa [htrims.trimList_eq]

theorem refused_of_not_plain {s : String} {word : List Char} (hword : Text.Trims s.toList word)
    {c : Char} (hc : c ∈ word) (hplain : ¬ Text.Plain c) : Refused s := by
  refine refused_of_parse_ne_ok fun d h => hplain ?_
  rw [parse_eq_ok_iff, hword.trimList_eq] at h
  exact h.plain hc

/-- What stands before and behind a name of `d` makes a name of `d'` of it: only a `u` does so,
with blanks around all of it. -/
structure MakesUnsigned (d d' : DType) (before behind : List Char) : Prop where
  name_eq : d'.name = "u" ++ d.name
  before_eq : ∃ blanks mark, before = blanks ++ mark ∧ Text.Blank blanks ∧
    Text.SameLetters mark ['u']
  behind_blank : Text.Blank behind

/-- **Affixes.** Text around a name is not overlooked: the only other name that comes about is
that of an unsigned integer. -/
theorem parse_around_eq_ok_iff {d d' : DType} {s : String} {before word behind : List Char}
    (hs : s.toList = before ++ word ++ behind) (hword : d.SpelledAs word)
    (h : ¬ (Text.Blank before ∧ Text.Blank behind)) :
    parse s = .ok d' ↔ d.MakesUnsigned d' before behind := by
  obtain ⟨name, hname, hlower⟩ := hword.exists_map_toLower
  constructor
  · intro hparse
    have hspelled := parse_eq_ok_iff.mp hparse
    rw [hs, Text.trimList_around hword.ne_nil fun c hc => (hword.plain hc).2] at hspelled
    obtain ⟨name', hname', hlower'⟩ := hspelled.exists_map_toLower
    rw [List.map_append, List.map_append, hlower] at hlower'
    rcases affixes_of_names hname hname' hlower' with ⟨hx, hy⟩ | ⟨hx, hy, hunsigned⟩
    · exact absurd ⟨List.dropWhile_eq_nil_iff.mp (List.map_eq_nil_iff.mp hx),
        List.rdropWhile_eq_nil_iff.mp (List.map_eq_nil_iff.mp hy)⟩ h
    · refine ⟨hunsigned, ⟨before.takeWhile Text.isBlank, before.dropWhile Text.isBlank,
        List.takeWhile_append_dropWhile.symm, fun _ => List.mem_takeWhile_imp, ?_⟩,
        List.rdropWhile_eq_nil_iff.mp (List.map_eq_nil_iff.mp hy)⟩
      rw [Text.sameLetters_iff, hx]
      rfl
  · rintro ⟨hunsigned, ⟨blanks, mark, rfl, hblanks, hmark⟩, hbehind⟩
    have hname' : "u" ++ name ∈ d'.names := u_append_mem_names hname hunsigned
    rw [parse_eq_ok_iff, spelledAs_trimList_iff]
    refine ⟨blanks, mark ++ word, behind, by simp only [hs, List.append_assoc], hblanks, hbehind,
      _, hname', ?_⟩
    rw [Text.sameLetters_iff, List.map_append, hlower, Text.sameLetters_iff.mp hmark,
      map_toLower_of_mem_names hname', String.toList_append]
    rfl

/-- **The texts that are read as a data type** are its names, up to the case of ASCII letters and
with blanks around them. The reader of exact names takes the names alone, and both readers know
the name that a data type is written with. Every other text is refused with what is left of it
between the blanks, in small letters. Among these are all texts that have a blank or a character
outside ASCII left inside, and all with something around a name, but for the `u` by which the
names of unsigned integers differ from those of signed ones. -/
theorem parse_exact :
    (∀ s d, parse s = .ok d ↔
      ∃ before word behind, s.toList = before ++ word ++ behind ∧ Text.Blank before ∧
        Text.Blank behind ∧ d.SpelledAs word) ∧
    (∀ s d, ofName? s = some d ↔ s ∈ d.names) ∧
    (∀ d : DType, ofName? d.name = some d ∧ parse d.name = .ok d) ∧
    (∀ s d, ofName? s = some d → parse s = .ok d) ∧
    (∀ s, (∀ d, parse s ≠ .ok d) → Refused s) ∧
    (∀ s word, Text.Trims s.toList word →
      (∃ c ∈ word, Text.isBlank c = true ∨ 128 ≤ c.toNat) → Refused s) ∧
    ∀ (d : DType) (s : String) (before word behind : List Char),
      s.toList = before ++ word ++ behind → d.SpelledAs word →
        ¬ (Text.Blank before ∧ Text.Blank behind) →
        Refused s ∨ ∃ d', parse s = .ok d' ∧ d.MakesUnsigned d' before behind := by
  have hexact : ∀ s d, ofName? s = some d → parse s = .ok d := by
    intro s d h
    have hname := ofName?_eq_some_iff.mp h
    rw [parse_eq_ok_iff, spelledAs_trimList_iff]
    exact ⟨[], s.toList, [], by simp, nofun, nofun, s, hname, Text.sameLetters_iff.mpr rfl⟩
  refine ⟨fun s d => parse_eq_ok_iff.trans spelledAs_trimList_iff,
    fun s d => ofName?_eq_some_iff, fun d => ⟨ofName?_name d, hexact _ d (ofName?_name d)⟩, hexact,
    fun s => refused_of_parse_ne_ok, ?_, ?_⟩
  · rintro s word hword ⟨c, hc, hodd⟩
    refine refused_of_not_plain hword hc fun ⟨hascii, hblank⟩ => ?_
    rcases hodd with hisBlank | hwide
    · exact absurd hisBlank (Bool.eq_false_iff.mp hblank)
    · omega
  · intro d s before word behind hs hword h
    by_cases hread : ∃ d', parse s = .ok d'
    · obtain ⟨d', hd'⟩ := hread
      exact .inr ⟨d', hd', (parse_around_eq_ok_iff hs hword h).mp hd'⟩
    · exact .inl (refused_of_parse_ne_ok fun d' hd' => hread ⟨d', hd'⟩)

/-- A dotless letter between two kinds of blanks, a further name, no name at all, and a name with
a `u` before it and more behind. -/
theorem parse_exact_refusals :
    ofName? "uintp" = some .uint64 ∧ parse "uintp" = .ok .uint64 ∧
      (∀ d, parse "complex128" ≠ .ok d) ∧ Refused "complex128" ∧
      Text.Trims "\tınt8\u2003".toList "ınt8".toList ∧
      (∃ c ∈ "ınt8".toList, Text.isBlank c = true ∨ 128 ≤ c.toNat) ∧
      Refused "\tınt8\u2003" ∧
      " uINT8_t".toList = " u".toList ++ "INT8".toList ++ "_t".toList ∧
      DType.int8.SpelledAs "INT8".toList ∧ ¬ (Text.Blank " u".toList ∧ Text.Blank "_t".toList) ∧
      Refused " uINT8_t" := by
  obtain ⟨-, -, -, hexact, hother, hinside, haround⟩ := parse_exact
  have hname : ofName? "uintp" = some .uint64 := rfl
  have hno : ∀ d, parse "complex128" ≠ .ok d := by
    intro d
    cases d <;> decide +kernel
  have htrims : Text.Trims "\tınt8\u2003".toList "ınt8".toList :=
    Text.trimList_eq_iff.mp (by decide +kernel)
  have hwide : ∃ c ∈ "ınt8".toList, Text.isBlank c = true ∨ 128 ≤ c.toNat :=
    ⟨'ı', by decide +kernel, .inr (by decide)⟩
  have hs : " uINT8_t".toList = " u".toList ++ "INT8".toList ++ "_t".toList := by decide +kernel
  have hspelled : DType.int8.SpelledAs "INT8".toList := spelledAs_iff.mpr (by decide +kernel)
  have hnot : ¬ (Text.Blank " u".toList ∧ Text.Blank "_t".toList) := by decide +kernel
  refine ⟨hname, hexact _ _ hname, hno, hother _ hno, htrims, hwide, hinside _ _ htrims hwide, hs,
    hspelled, hnot, ?_⟩
  rcases haround _ _ _ _ _ hs hspelled hnot with hrefused | ⟨d', -, hunsigned⟩
  · exact hrefused
  · exact absurd hunsigned.behind_blank (by decide +kernel)

end StridedSlice.DType
