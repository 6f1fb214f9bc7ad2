import StridedSlice.Proofs.Tokens
import StridedSlice.Text.Integer
/-!
# StridedSlice.Proofs.Integer

**Signed words as texts.** A word that is written in decimal is read back as that word
(`Text.signed?_repr`), whether the text is an argument or a part of a written slice, and there
is nothing in it but digits and a minus sign (`Text.mem_repr`).
-/

namespace StridedSlice.Text

open Json

theorem foldlM_appendDigit {cs : List Char} (h : AllDigits cs) (n : Nat) :
    cs.foldlM appendDigit n = some (Nat.ofDigitChars 10 cs n) := by
  induction cs generalizing n with
  | nil => rfl
  | cons c rest ih =>
      rw [List.foldlM_cons, appendDigit, if_pos h.head, Nat.ofDigitChars_cons]
      exact ih h.tail _

/-- The digits of a number are read as that number. -/
theorem natural?_toDigits (n : Nat) : natural? (Nat.toDigits 10 n) = some n := by
  cases hdigits : Nat.toDigits 10 n with
  | nil => exact absurd hdigits Nat.toDigits_ne_nil
  | cons c cs =>
      rw [natural?, ← hdigits, foldlM_appendDigit (allDigits_toDigits n),
        Nat.ofDigitChars_toDigits (by decide) (by decide)]

/-- The text of a signed word is read as that word. -/
theorem signed?_repr (w : Int64) : signed? w.toInt.repr = some w := by
  have hlow : -9223372036854775808 ≤ w.toInt := w.le_toInt
  have hhigh : w.toInt ≤ Int64.maxValue.toInt := Int.le_of_lt_add_one w.toInt_lt
  have hnumber := natural?_toDigits w.toInt.natAbs
  unfold signed?
  rw [repr_eq_sign_append, String.toList_append, Nat.toList_repr]
  by_cases hneg : w.toInt < 0
  · have hsign : (signText true).toList = ['-'] := by decide
    have hvalue : -|w.toInt| = w.toInt := by rw [abs_of_neg hneg, neg_neg]
    rw [decide_eq_true hneg, hsign, List.singleton_append]
    simp [hnumber, hvalue, hlow, hhigh, Option.filter]
  · have hsign : (signText false).toList = [] := by decide
    have hvalue : |w.toInt| = w.toInt := abs_of_nonneg (Int.not_lt.mp hneg)
    have hall := allDigits_toDigits w.toInt.natAbs
    rw [decide_eq_false hneg, hsign, List.nil_append]
    -- A digit is no sign.
    split
    next heq => exact absurd (heq ▸ hall).head (by decide)
    next heq => exact absurd (heq ▸ hall).head (by decide)
    next => simp [hnumber, hvalue, hlow, hhigh, Option.filter]

/-- The text of an integer has digits, and a minus sign at most besides them. -/
theorem mem_repr {i : Int} {c : Char} (h : c ∈ i.repr.toList) : c = '-' ∨ c.isDigit = true := by
  rw [repr_eq_sign_append, String.toList_append, Nat.toList_repr, List.mem_append] at h
  rcases h with hsign | hdigit
  · unfold signText at hsign
    split_ifs at hsign
    · exact .inl (List.mem_singleton.mp hsign)
    · cases hsign
  · exact .inr (allDigits_toDigits _ c hdigit)

end StridedSlice.Text
