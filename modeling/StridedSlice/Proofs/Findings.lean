import StridedSlice.Proofs.Tokens
import StridedSlice.Report
import Mathlib.Data.List.Basic
import Mathlib.Data.String.Basic
/-!
# StridedSlice.Proofs.Findings

**The findings of a report**: which there are, in which order, and what follows for two reports
with the same ones.

* `Text.toBytes_lt_iff`: texts are ordered as their bytes are, so that whoever compares bytes
  finds the same order;
* `Diagnostic.Precedes` is the order of findings by operation, code and message, and
  `Diagnostic.le_iff` says that it is the one that the report sorts by;
* `Diagnostic.Arranges` is what sorting has to achieve: the same findings, in order, and equal
  ones as they came. `Diagnostic.arranges_mergeSort` is that it does.
-/

namespace StridedSlice

/-! ### Texts by their bytes -/

namespace Text

/-- A smaller character has a smaller encoding, and whatever follows makes no difference. -/
theorem utf8EncodeChar_append_lt {c d : Char} (h : c < d) (x y : List UInt8) :
    String.utf8EncodeChar c ++ x < String.utf8EncodeChar d ++ y := by
  have hlt : c.val.toNat < d.val.toNat := h
  have hmax : d.val.toNat < 0x110000 := by
    rcases d.valid with hlow | ⟨-, hhigh⟩
    · exact hlow.trans (by decide)
    · exact hhigh
  have htwo : ∀ v : Nat, v / 4096 = v / 64 / 64 := by omega
  have hthree : ∀ v : Nat, v / 262144 = v / 64 / 64 / 64 := by omega
  -- The first byte grows with the number of bytes. Among as many bytes the code point is
  -- written in digits to the base 64, the highest of them first.
  simp only [String.utf8EncodeChar, htwo, hthree]
  generalize c.val.toNat = v at hlt
  generalize d.val.toNat = w at hlt hmax
  split_ifs <;>
    simp only [List.cons_append, List.nil_append, List.cons_lt_cons_iff, UInt8.lt_iff_toNat_lt,
      ← UInt8.toNat_inj, UInt8.toNat_ofNat'] <;>
    omega

theorem flatMap_utf8EncodeChar_lt {cs ds : List Char} (h : cs < ds) :
    cs.flatMap String.utf8EncodeChar < ds.flatMap String.utf8EncodeChar := by
  have hlex : List.Lex (· < ·) cs ds := h
  induction hlex with
  | @nil c cs =>
      obtain ⟨b, bytes, hbytes⟩ :=
        List.ne_nil_iff_exists_cons.mp (String.utf8EncodeChar_ne_nil (c := c))
      rw [List.flatMap_cons, hbytes]
      exact List.nil_lt_cons b _
  | rel hlt => exact utf8EncodeChar_append_lt hlt _ _
  | cons hrest ih => exact List.append_left_lt (ih hrest)

/-- **Texts are ordered as their bytes are.** -/
theorem toBytes_lt_iff {s t : String} : toBytes s < toBytes t ↔ s < t := by
  have hmono : ∀ {s t : String}, s < t → toBytes s < toBytes t := by
    intro s t h
    rw [toBytes_eq, toBytes_eq]
    exact flatMap_utf8EncodeChar_lt (String.lt_iff_toList_lt.mp h)
  refine ⟨fun h => ?_, hmono⟩
  rcases lt_trichotomy s t with hlt | rfl | hgt
  · exact hlt
  · exact absurd h (List.lt_irrefl _)
  · exact absurd (hmono hgt) (List.lt_asymm h)

end Text

/-! ### The order of findings -/

namespace Diagnostic

/-- What findings are ordered by. -/
def key (d : Diagnostic) : Option Nat × String × String := (d.op, d.code, d.message)

/-- Whether a finding comes before another one: by the operation, where none is before all
numbers, then by the code and then by the message, both by their bytes. -/
def Precedes (a b : Diagnostic) : Prop :=
  a.op < b.op ∨ a.op = b.op ∧
    (Text.toBytes a.code < Text.toBytes b.code ∨ a.code = b.code ∧
      Text.toBytes a.message < Text.toBytes b.message)

theorem compareOp_eq_lt_iff {a b : Option Nat} : compareOp a b = .lt ↔ a < b := by
  cases a <;> cases b <;> simp [compareOp, Nat.compare_eq_lt]

theorem compareOp_eq_eq_iff {a b : Option Nat} : compareOp a b = .eq ↔ a = b := by
  cases a <;> cases b <;> simp [compareOp]

theorem compareKey_eq_lt_iff {a b : Diagnostic} : compareKey a b = .lt ↔ a.Precedes b := by
  simp only [compareKey, Precedes, Ordering.then_eq_lt, compareOp_eq_lt_iff,
    compareOp_eq_eq_iff, compare_lt_iff_lt, compare_eq_iff_eq, Text.toBytes_lt_iff]

theorem compareKey_eq_eq_iff {a b : Diagnostic} : compareKey a b = .eq ↔ a.key = b.key := by
  simp only [compareKey, key, Ordering.then_eq_eq, compareOp_eq_eq_iff, compare_eq_iff_eq,
    Prod.mk.injEq]

/-- One finding may stand before another one if it comes before it or has the same key. -/
theorem le_iff {a b : Diagnostic} : le a b = true ↔ a.Precedes b ∨ a.key = b.key := by
  rw [le, Ordering.isLE_iff_eq_lt_or_eq_eq, compareKey_eq_lt_iff, compareKey_eq_eq_iff]

theorem compareOp_eq_compare (a b : Option Nat) : compareOp a b = compare a b := by
  cases a <;> cases b <;> rfl

theorem compareKey_eq_compareLex :
    compareKey =
      compareLex (compareOn (·.op)) (compareLex (compareOn (·.code)) (compareOn (·.message))) := by
  funext a b
  simp only [compareKey, compareLex, compareOn, compareOp_eq_compare]

instance : Std.TransCmp compareKey := by
  rw [compareKey_eq_compareLex]
  infer_instance

theorem le_trans (a b c : Diagnostic) (hab : le a b = true) (hbc : le b c = true) :
    le a c = true :=
  Std.TransCmp.isLE_trans hab hbc

theorem le_total (a b : Diagnostic) : (le a b || le b a) = true := by
  have hswap : compareKey b a = (compareKey a b).swap := Std.OrientedCmp.eq_swap
  rw [le, le, hswap]
  cases compareKey a b <;> rfl

/-- Findings that may stand on either side of each other have the same key. -/
theorem key_eq_of_le_of_le {a b : Diagnostic} (hab : le a b = true) (hba : le b a = true) :
    a.key = b.key :=
  compareKey_eq_eq_iff.mp (Std.OrientedCmp.isLE_antisymm hab hba)

/-! ### Sorting -/

/-- What it is to put findings in order. -/
structure Arranges (sorted ds : List Diagnostic) : Prop where
  /-- None is lost, and none is there more often than before. -/
  perm : sorted.Perm ds
  ordered : sorted.Pairwise fun a b => a.Precedes b ∨ a.key = b.key
  /-- Those with one key follow each other as they did before. -/
  stable : ∀ k, sorted.filter (·.key = k) = ds.filter (·.key = k)

theorem pairwise_mergeSort (ds : List Diagnostic) :
    (ds.mergeSort le).Pairwise fun a b => le a b = true :=
  List.pairwise_mergeSort le_trans le_total ds

/-- Findings with one key are in order as they stand, so sorting does not move them. -/
theorem filter_mergeSort (ds : List Diagnostic) (k : Option Nat × String × String) :
    (ds.mergeSort le).filter (·.key = k) = ds.filter (·.key = k) := by
  have hordered : (ds.filter (·.key = k)).Pairwise fun a b => le a b = true := by
    refine List.pairwise_filter.mpr (List.pairwise_of_forall fun a b ha hb => ?_)
    exact le_iff.mpr (.inr ((of_decide_eq_true ha).trans (of_decide_eq_true hb).symm))
  have hsub : (ds.filter (·.key = k)).Sublist (ds.mergeSort le) :=
    List.sublist_mergeSort le_trans le_total hordered List.filter_sublist
  have hkept := hsub.filter (·.key = k)
  simp only [List.filter_filter, Bool.and_self] at hkept
  -- There are no more of them after sorting, so they are all that is left of the key.
  have hlength := ((List.mergeSort_perm ds le).filter (·.key = k)).length_eq
  exact (hkept.eq_of_length hlength.symm).symm

theorem arranges_mergeSort (ds : List Diagnostic) : Arranges (ds.mergeSort le) ds where
  perm := List.mergeSort_perm ds le
  ordered := (pairwise_mergeSort ds).imp le_iff.mp
  stable := filter_mergeSort ds

/-- Where no two findings have one key, the order in which they come makes no difference. -/
theorem mergeSort_eq_of_perm {ds ds' : List Diagnostic} (h : ds.Perm ds')
    (hkeys : (ds.map key).Nodup) : ds'.mergeSort le = ds.mergeSort le := by
  have hperm := List.mergeSort_perm ds le
  have hperm' := List.mergeSort_perm ds' le
  refine List.Perm.eq_of_pairwise (fun a b ha hb hab hba => ?_) (pairwise_mergeSort ds')
    (pairwise_mergeSort ds) (hperm'.trans (h.symm.trans hperm.symm))
  exact List.inj_on_of_nodup_map hkeys (h.mem_iff.mpr (hperm'.mem_iff.mp ha))
    (hperm.mem_iff.mp hb) (key_eq_of_le_of_le hab hba)

end Diagnostic

namespace Report

theorem withDiagnostics_congr (r : Report) {ds ds' : List Diagnostic}
    (h : ds.mergeSort Diagnostic.le = ds'.mergeSort Diagnostic.le) :
    r.withDiagnostics ds = r.withDiagnostics ds' := by
  simp only [withDiagnostics, h]

/-- **The findings of a report**, whatever the report was and whatever findings it is given.
They are put in order, the outcome is theirs, and of what was there before only the schema and
the attributes stay. So to set them once more changes nothing, and findings of which no two
have one key may come in any order. -/
theorem withDiagnostics_exact (r : Report) (ds : List Diagnostic) :
    Diagnostic.Arranges (r.withDiagnostics ds).diagnostics ds ∧
      ((r.withDiagnostics ds).ok = true ↔ ∀ d ∈ ds, d.severity ≠ .error) ∧
      (r.withDiagnostics ds).schemaVersion = r.schemaVersion ∧
      (r.withDiagnostics ds).info = r.info ∧
      (∀ outcome earlier,
        withDiagnostics { r with ok := outcome, diagnostics := earlier } ds =
          r.withDiagnostics ds) ∧
      (r.withDiagnostics ds).withDiagnostics (r.withDiagnostics ds).diagnostics =
        r.withDiagnostics ds ∧
      ∀ ds', ds.Perm ds' → (ds.map Diagnostic.key).Nodup →
        r.withDiagnostics ds' = r.withDiagnostics ds := by
  refine ⟨Diagnostic.arranges_mergeSort ds, ?_, rfl, rfl, fun _ _ => rfl, ?_,
    fun ds' h hkeys => r.withDiagnostics_congr (Diagnostic.mergeSort_eq_of_perm h hkeys)⟩
  · rw [ok_withDiagnostics]
    simp only [mem_withDiagnostics]
  · exact r.withDiagnostics_congr
      (List.mergeSort_of_pairwise (Diagnostic.pairwise_mergeSort ds))

/-- The last character of three bytes comes before one of four bytes, from wherever the two
findings start. -/
theorem withDiagnostics_exact_two :
    [Diagnostic.error "A" .load "\uffff", .error "A" .load "😀"].Perm
        [.error "A" .load "😀", .error "A" .load "\uffff"] ∧
      ([Diagnostic.error "A" .load "\uffff", .error "A" .load "😀"].map Diagnostic.key).Nodup ∧
      empty.withDiagnostics [.error "A" .load "😀", .error "A" .load "\uffff"] =
        ⟨reportSchema, false, [.error "A" .load "\uffff", .error "A" .load "😀"], []⟩ := by
  have hperm : [Diagnostic.error "A" .load "\uffff", .error "A" .load "😀"].Perm
      [.error "A" .load "😀", .error "A" .load "\uffff"] := .swap _ _ _
  have hkeys : ([Diagnostic.error "A" .load "\uffff", .error "A" .load "😀"].map
      Diagnostic.key).Nodup := by decide
  have hsorted : [Diagnostic.error "A" .load "\uffff", .error "A" .load "😀"].Pairwise
      fun a b => Diagnostic.le a b = true := by decide
  obtain ⟨-, -, -, -, -, -, hany⟩ :=
    empty.withDiagnostics_exact [.error "A" .load "\uffff", .error "A" .load "😀"]
  refine ⟨hperm, hkeys, (hany _ hperm hkeys).trans ?_⟩
  rw [withDiagnostics, List.mergeSort_of_pairwise hsorted]
  rfl

end Report

end StridedSlice
