import StridedSlice.Json.Printer
import StridedSlice.Proofs.Lexing
import StridedSlice.Proofs.Shortest
import StridedSlice.Text.Utf8
import Mathlib.Tactic.IntervalCases
/-!
# StridedSlice.Proofs.Tokens

**Numerals and strings that are written are the tokens they were written for.** The lexer is
followed through the digits of a numeral and through the characters of a string.

* `closes_writeString`: a written string is one token, with that string;
* `lexes_repr`: a written integer is one number;
* `lexes_text?`: so is a written number of a binary format (`DecimalStyle.numeral?`).
-/

namespace StridedSlice

namespace Json

/-! ### Digits -/

theorem digit?_of_isDigit {c : Char} (h : c.isDigit = true) :
    digit? (UInt8.ofNat c.toNat) = some (c.toNat - 48) := by
  obtain ⟨hlow, hhigh⟩ := Char.isDigit_iff_toNat.mp h
  change 48 ≤ c.toNat at hlow
  change c.toNat ≤ 57 at hhigh
  interval_cases c.toNat <;> rfl

theorem utf8EncodeChar_of_isDigit {c : Char} (h : c.isDigit = true) :
    String.utf8EncodeChar c = [UInt8.ofNat c.toNat] := by
  refine Text.utf8EncodeChar_of_lt ?_
  have hhigh : c.toNat ≤ 57 := (Char.isDigit_iff_toNat.mp h).2
  omega

/-- Every character is a decimal digit. -/
def AllDigits (cs : List Char) : Prop := ∀ c ∈ cs, c.isDigit = true

theorem AllDigits.head {c : Char} {cs : List Char} (h : AllDigits (c :: cs)) :
    c.isDigit = true := h c List.mem_cons_self

theorem AllDigits.tail {c : Char} {cs : List Char} (h : AllDigits (c :: cs)) : AllDigits cs :=
  fun d hd => h d (List.mem_cons_of_mem c hd)

theorem AllDigits.append {cs ds : List Char} (hcs : AllDigits cs) (hds : AllDigits ds) :
    AllDigits (cs ++ ds) := fun c hc => (List.mem_append.mp hc).elim (hcs c) (hds c)

theorem allDigits_replicate_zero (n : Nat) : AllDigits (List.replicate n '0') := by
  intro c hc
  rw [List.eq_of_mem_replicate hc]
  rfl

theorem allDigits_toDigits (n : Nat) : AllDigits (Nat.toDigits 10 n) :=
  fun _ => Nat.isDigit_of_mem_toDigits (by decide) (by decide)

/-- A positive number does not begin with a zero. -/
theorem exists_toDigits_eq_cons {n : Nat} (hn : 0 < n) :
    ∃ c cs, Nat.toDigits 10 n = c :: cs ∧ c ≠ '0' := by
  induction n using Nat.strong_induction_on with
  | _ n ih =>
      rcases Nat.lt_or_ge n 10 with hlt | hge
      · refine ⟨n.digitChar, [], Nat.toDigits_of_lt_base hlt, ?_⟩
        interval_cases n <;> decide
      · obtain ⟨c, cs, hcs, hc⟩ := ih (n / 10) (by omega) (by omega)
        refine ⟨c, cs ++ [(n % 10).digitChar], ?_, hc⟩
        rw [Nat.toDigits_of_base_le (by decide) hge, hcs, List.cons_append]

namespace Numeral

/-- A numeral with more digits before the point. -/
def whole (n : Numeral) (cs : List Char) : Numeral :=
  { n with digits := Nat.ofDigitChars 10 cs n.digits }

/-- A numeral with more digits after the point. -/
def fraction (n : Numeral) (cs : List Char) : Numeral :=
  { n with digits := Nat.ofDigitChars 10 cs n.digits, places := n.places + cs.length }

/-- A numeral with more digits of its exponent. -/
def power (n : Numeral) (cs : List Char) : Numeral :=
  { n with exponent := Nat.ofDigitChars 10 cs n.exponent }

end Numeral

/-- A minus sign, or nothing. -/
def signText (negative : Bool) : String := if negative then "-" else ""

namespace Lexer

/-- Digits are read one by one as long as the phase is kept. -/
theorem feed_digits {phase : NumeralPhase} {push : Numeral → Nat → Numeral}
    (hphase : ∀ n b d, digit? b = some d → phase.step n b = .more phase (push n d))
    {cs : List Char} (hcs : AllDigits cs) (n : Numeral) (before : List Token) :
    (⟨.numeral phase n, before⟩ : Lexer).feed (cs.flatMap String.utf8EncodeChar) =
      ⟨.numeral phase (cs.foldl (fun n c => push n (c.toNat - 48)) n), before⟩ := by
  induction cs generalizing n with
  | nil => rfl
  | cons c rest ih =>
      rw [List.flatMap_cons, utf8EncodeChar_of_isDigit hcs.head, List.foldl_cons]
      refine Eq.trans ?_ (ih hcs.tail _)
      show Lexer.feed (stepNumeral _ phase n _) _ = _
      rw [stepNumeral, hphase n _ _ (digit?_of_isDigit hcs.head)]
      rfl

theorem feed_whole {cs : List Char} (hcs : AllDigits cs) (n : Numeral) (before : List Token) :
    (⟨.numeral .whole n, before⟩ : Lexer).feed (cs.flatMap String.utf8EncodeChar) =
      ⟨.numeral .whole (n.whole cs), before⟩ := by
  have hpush : ∀ cs n, List.foldl (fun (n : Numeral) c => n.pushWhole (c.toNat - 48)) n cs =
      n.whole cs := by
    intro cs
    induction cs with
    | nil => exact fun _ => rfl
    | cons c rest ih => exact fun n => ih _
  have hphase : ∀ n b d, digit? b = some d →
      NumeralPhase.whole.step n b = .more .whole (n.pushWhole d) := by
    intro n b d h
    simp [NumeralPhase.step, h]
  rw [feed_digits hphase hcs, hpush]

theorem feed_fraction {cs : List Char} (hcs : AllDigits cs) (n : Numeral) (before : List Token) :
    (⟨.numeral .fraction n, before⟩ : Lexer).feed (cs.flatMap String.utf8EncodeChar) =
      ⟨.numeral .fraction (n.fraction cs), before⟩ := by
  have hpush : ∀ cs n, List.foldl (fun (n : Numeral) c => n.pushPlace (c.toNat - 48)) n cs =
      n.fraction cs := by
    intro cs
    induction cs with
    | nil => exact fun _ => rfl
    | cons c rest ih =>
        intro n
        rw [List.foldl_cons, ih]
        simp [Numeral.fraction, Numeral.pushPlace, Nat.ofDigitChars_cons, Nat.add_comm,
          Nat.add_left_comm]
  have hphase : ∀ n b d, digit? b = some d →
      NumeralPhase.fraction.step n b = .more .fraction (n.pushPlace d) := by
    intro n b d h
    simp [NumeralPhase.step, h]
  rw [feed_digits hphase hcs, hpush]

theorem feed_power {cs : List Char} (hcs : AllDigits cs) (n : Numeral) (before : List Token) :
    (⟨.numeral .exponent n, before⟩ : Lexer).feed (cs.flatMap String.utf8EncodeChar) =
      ⟨.numeral .exponent (n.power cs), before⟩ := by
  have hpush : ∀ cs n, List.foldl (fun (n : Numeral) c => n.pushExponent (c.toNat - 48)) n cs =
      n.power cs := by
    intro cs
    induction cs with
    | nil => exact fun _ => rfl
    | cons c rest ih => exact fun n => ih _
  have hphase : ∀ n b d, digit? b = some d →
      NumeralPhase.exponent.step n b = .more .exponent (n.pushExponent d) := by
    intro n b d h
    simp [NumeralPhase.step, h]
  rw [feed_digits hphase hcs, hpush]

/-- The first digit after the point. -/
theorem feed_point {cs : List Char} (hcs : AllDigits cs) (hne : cs ≠ []) (n : Numeral)
    (before : List Token) :
    (⟨.numeral .point n, before⟩ : Lexer).feed (cs.flatMap String.utf8EncodeChar) =
      ⟨.numeral .fraction (n.fraction cs), before⟩ := by
  cases cs with
  | nil => exact absurd rfl hne
  | cons c rest =>
      rw [← feed_fraction hcs, List.flatMap_cons, utf8EncodeChar_of_isDigit hcs.head]
      show Lexer.feed (stepNumeral _ .point n _) _ = Lexer.feed (stepNumeral _ .fraction n _) _
      simp only [stepNumeral, NumeralPhase.step, digit?_of_isDigit hcs.head]
      rfl

/-- The first digit of an exponent. -/
theorem feed_markSign {cs : List Char} (hcs : AllDigits cs) (hne : cs ≠ []) (n : Numeral)
    (before : List Token) :
    (⟨.numeral .markSign n, before⟩ : Lexer).feed (cs.flatMap String.utf8EncodeChar) =
      ⟨.numeral .exponent (n.power cs), before⟩ := by
  cases cs with
  | nil => exact absurd rfl hne
  | cons c rest =>
      rw [← feed_power hcs, List.flatMap_cons, utf8EncodeChar_of_isDigit hcs.head]
      show Lexer.feed (stepNumeral _ .markSign n _) _ = Lexer.feed (stepNumeral _ .exponent n _) _
      simp only [stepNumeral, NumeralPhase.step, digit?_of_isDigit hcs.head]
      rfl

/-- A sign and digits, of which the first is no zero. -/
theorem feed_sign_whole (negative : Bool) {c : Char} {cs : List Char} (hcs : AllDigits (c :: cs))
    (hc : c ≠ '0') :
    start.feed (Text.toBytes (signText negative ++ String.ofList (c :: cs))) =
      ⟨.numeral .whole ((Numeral.zero negative).whole (c :: cs)), []⟩ := by
  have hfirst : (start.feed (Text.toBytes (signText negative))).step
      (UInt8.ofNat c.toNat) = ⟨.numeral .whole ((Numeral.zero negative).whole [c]), []⟩ := by
    obtain ⟨hlow, hhigh⟩ := Char.isDigit_iff_toNat.mp hcs.head
    change 48 ≤ c.toNat at hlow
    change c.toNat ≤ 57 at hhigh
    have hne : c.toNat ≠ 48 := fun h => hc (Char.toNat_inj.mp h)
    have hwhole : (Numeral.zero negative).whole [c] =
        ⟨negative, c.toNat - 48, 0, true, false, 0⟩ := by
      simp [Numeral.whole, Numeral.zero, Nat.ofDigitChars_cons]
    rw [hwhole]
    cases negative <;> simp only [Text.toBytes_eq] <;> interval_cases c.toNat <;>
      first | rfl | exact absurd rfl hne
  rw [Text.toBytes_append, feed_append, Text.toBytes_ofList, List.flatMap_cons,
    utf8EncodeChar_of_isDigit hcs.head, List.singleton_append]
  show ((start.feed _).step _).feed (cs.flatMap _) = _
  rw [hfirst, feed_whole hcs.tail]
  rfl

/-- A sign and a zero. -/
theorem feed_sign_zero (negative : Bool) :
    start.feed (Text.toBytes (signText negative ++ "0")) =
      ⟨.numeral .zero (.zero negative), []⟩ := by
  cases negative <;> simp only [Text.toBytes_eq] <;> rfl

end Lexer

/-! ### Integers -/

/-- The numeral of an integer. -/
def Numeral.ofInt (i : Int) : Numeral := ⟨i < 0, i.natAbs, 0, true, false, 0⟩

theorem repr_eq_sign_append (i : Int) : i.repr = signText (i < 0) ++ i.natAbs.repr := by
  cases i with
  | ofNat n =>
      have hn : decide (Int.ofNat n < 0) = false :=
        decide_eq_false (Int.not_lt.mpr (Int.natCast_nonneg n))
      rw [hn, signText, if_neg (by decide), String.empty_append]
      rfl
  | negSucc n =>
      rw [decide_eq_true (Int.negSucc_lt_zero n), signText, if_pos rfl]
      rfl

theorem lexes_repr (i : Int) : Lexes (Text.toBytes i.repr) [.number (.ofInt i)] := by
  unfold Lexes
  rw [repr_eq_sign_append]
  rcases Nat.eq_zero_or_pos i.natAbs with hzero | hpos
  · obtain rfl := Int.natAbs_eq_zero.mp hzero
    exact (Lexer.feed_sign_zero false).symm ▸ Settled.numeral (.ofInt 0) [] rfl
  · obtain ⟨c, cs, hdigits, hc⟩ := exists_toDigits_eq_cons hpos
    have hwhole : (Numeral.zero (decide (i < 0))).whole (c :: cs) = .ofInt i := by
      rw [Numeral.whole, ← hdigits]
      simp [Numeral.zero, Numeral.ofInt, Nat.ofDigitChars_toDigits]
    rw [Nat.repr_eq_ofList_toDigits, hdigits,
      Lexer.feed_sign_whole _ (hdigits ▸ allDigits_toDigits i.natAbs) hc, hwhole]
    exact Settled.numeral (.ofInt i) [] rfl

end Json

/-! ### Numbers of binary formats -/

/-- A number, or `null` in its place. -/
def Json.Token.ofNumeral? : Option Json.Numeral → Json.Token
  | none => .null
  | some n => .number n

namespace DecimalStyle

open Json

/-- The numeral of a decimal. Written plainly it has a digit behind the point in any case. -/
def numeral (style : DecimalStyle) (negative : Bool) (d : Decimal) : Numeral :=
  let length := (Nat.toDigits 10 d.digits).length
  let lead := d.exponent + (length : Int) - 1
  if style.plainFrom ≤ lead ∧ lead ≤ style.plainTo then
    if 0 ≤ d.exponent then
      ⟨negative, d.digits * 10 ^ (d.exponent.toNat + 1), 1, false, false, 0⟩
    else ⟨negative, d.digits, (-d.exponent).toNat, false, false, 0⟩
  else ⟨negative, d.digits, length - 1, false, lead < 0, lead.natAbs⟩

theorem ofDigitChars_replicate_zero (n init : Nat) :
    Nat.ofDigitChars 10 (List.replicate n '0') init = init * 10 ^ n := by
  induction n generalizing init with
  | zero => simp
  | succ n ih =>
      rw [List.replicate_succ, Nat.ofDigitChars_cons, ih, Nat.pow_succ]
      simp [Nat.mul_comm, Nat.mul_assoc]

/-- Reading a point after a sign and whole digits. -/
theorem feed_sign_point (negative : Bool) {cs : List Char} (hcs : AllDigits cs)
    (hhead : cs = ['0'] ∨ ∃ c rest, cs = c :: rest ∧ c ≠ '0') :
    Lexer.start.feed (Text.toBytes (signText negative ++ String.ofList cs ++ ".")) =
      ⟨.numeral .point ⟨negative, Nat.ofDigitChars 10 cs 0, 0, false, false, 0⟩, []⟩ := by
  rw [Text.toBytes_append, Lexer.feed_append]
  rcases hhead with rfl | ⟨c, rest, rfl, hc⟩
  · refine Eq.trans (congrArg (Lexer.feed · _) (Lexer.feed_sign_zero negative)) ?_
    rw [Text.toBytes_eq]
    rfl
  · rw [Lexer.feed_sign_whole negative hcs hc, Text.toBytes_eq]
    rfl

/-- A sign, whole digits, a point and further digits. -/
theorem feed_sign_fraction (negative : Bool) {cs ds : List Char} (hcs : AllDigits cs)
    (hhead : cs = ['0'] ∨ ∃ c rest, cs = c :: rest ∧ c ≠ '0') (hds : AllDigits ds) (hne : ds ≠ []) :
    Lexer.start.feed (Text.toBytes (signText negative ++ String.ofList cs ++ "." ++
        String.ofList ds)) =
      ⟨.numeral .fraction
        ⟨negative, Nat.ofDigitChars 10 (cs ++ ds) 0, ds.length, false, false, 0⟩, []⟩ := by
  rw [Text.toBytes_append, Lexer.feed_append, feed_sign_point negative hcs hhead,
    Text.toBytes_ofList, Lexer.feed_point hds hne]
  simp [Numeral.fraction, Nat.ofDigitChars_append]

/-- Plain notation has digits on both sides of a point. All digits together are those of the
decimal, perhaps with zeros in front of them or behind. -/
theorem exists_plain_eq {ds : List Char} (hds : AllDigits ds)
    (hhead : ∃ c rest, ds = c :: rest ∧ c ≠ '0') (e : Int) :
    ∃ ws ps, plain ds (e + ds.length - 1) = String.ofList ws ++ "." ++ String.ofList ps ∧
      (ws = ['0'] ∨ ∃ c rest, ws = c :: rest ∧ c ≠ '0') ∧ AllDigits ws ∧ AllDigits ps ∧
      ps ≠ [] ∧ ps.length = (if 0 ≤ e then 1 else (-e).toNat) ∧
      Nat.ofDigitChars 10 (ws ++ ps) 0 =
        Nat.ofDigitChars 10 ds 0 * (if 0 ≤ e then 10 ^ (e.toNat + 1) else 1) := by
  have hlength : 0 < ds.length := by
    obtain ⟨c, rest, rfl, -⟩ := hhead
    exact Nat.succ_pos _
  unfold plain
  by_cases hlead : e + ds.length - 1 < 0
  · -- Zeros between the point and the digits.
    have he : ¬ 0 ≤ e := by omega
    rw [if_pos hlead]
    simp only [if_neg he]
    set k := (-(e + (ds.length : Int) - 1) - 1).toNat with hk
    refine ⟨['0'], List.replicate k '0' ++ ds, ?_, .inl rfl, allDigits_replicate_zero 1,
      (allDigits_replicate_zero _).append hds, ?_, ?_, ?_⟩
    · rw [zeros, String.ofList_append, ← String.append_assoc]
      rfl
    · exact fun h => hlength.ne' (List.length_eq_zero_iff.mpr (List.append_eq_nil_iff.mp h).2)
    · rw [List.length_append, List.length_replicate]
      omega
    · rw [Nat.mul_one, Nat.ofDigitChars_append, Nat.ofDigitChars_append,
        ofDigitChars_replicate_zero]
      simp [Nat.ofDigitChars_cons]
  · rw [if_neg hlead]
    dsimp only
    have hwhole : (e + (ds.length : Int) - 1).toNat + 1 = e + ds.length := by omega
    by_cases he : 0 ≤ e
    · -- Zeros between the digits and the point, and one behind it.
      have hle : ds.length ≤ (e + (ds.length : Int) - 1).toNat + 1 := by omega
      have hzeros : (e + (ds.length : Int) - 1).toNat + 1 - ds.length = e.toNat := by omega
      rw [if_pos hle, hzeros]
      simp only [if_pos he]
      obtain ⟨c, rest, hcons, hc⟩ := hhead
      refine ⟨ds ++ List.replicate e.toNat '0', ['0'], ?_,
        .inr ⟨c, rest ++ List.replicate e.toNat '0', by rw [hcons, List.cons_append], hc⟩,
        hds.append (allDigits_replicate_zero _), allDigits_replicate_zero 1, by simp, rfl, ?_⟩
      · have hpoint : ".0" = "." ++ String.ofList ['0'] := rfl
        rw [zeros, String.ofList_append, hpoint, String.append_assoc, String.append_assoc,
          String.append_assoc]
      · rw [Nat.ofDigitChars_append, Nat.ofDigitChars_append, ofDigitChars_replicate_zero,
          Nat.pow_succ, ← Nat.mul_assoc, Nat.mul_comm _ 10]
        simp [Nat.ofDigitChars_cons]
    · -- The point stands among the digits.
      have hle : ¬ ds.length ≤ (e + (ds.length : Int) - 1).toNat + 1 := by omega
      rw [if_neg hle]
      simp only [if_neg he]
      obtain ⟨c, rest, hcons, hc⟩ := hhead
      refine ⟨ds.take ((e + (ds.length : Int) - 1).toNat + 1),
        ds.drop ((e + (ds.length : Int) - 1).toNat + 1), rfl,
        .inr ⟨c, rest.take (e + (ds.length : Int) - 1).toNat, ?_, hc⟩,
        fun d hd => hds d (List.mem_of_mem_take hd), fun d hd => hds d (List.mem_of_mem_drop hd),
        ?_, ?_, ?_⟩
      · rw [hcons, List.take_succ_cons]
      · exact fun h => hle (List.drop_eq_nil_iff.mp h)
      · rw [List.length_drop]
        omega
      · rw [List.take_append_drop, Nat.mul_one]

theorem feed_plain (negative : Bool) {n : Nat} (hn : 0 < n) (e : Int) :
    Lexer.start.feed (Text.toBytes (signText negative ++
        plain (Nat.toDigits 10 n) (e + (Nat.toDigits 10 n).length - 1))) =
      ⟨.numeral .fraction
        (if 0 ≤ e then ⟨negative, n * 10 ^ (e.toNat + 1), 1, false, false, 0⟩
          else ⟨negative, n, (-e).toNat, false, false, 0⟩), []⟩ := by
  obtain ⟨ws, ps, hplain, hhead, hws, hps, hne, hlength, hvalue⟩ :=
    exists_plain_eq (allDigits_toDigits n) (exists_toDigits_eq_cons hn) e
  rw [Nat.ofDigitChars_toDigits (by decide) (by decide)] at hvalue
  rw [hplain, ← String.append_assoc, ← String.append_assoc,
    feed_sign_fraction negative hws hhead hps hne, hvalue, hlength]
  split_ifs <;> simp

/-- The digits of scientific notation, up to the mark of the exponent. -/
theorem feed_mantissa (negative : Bool) {n : Nat} (hn : 0 < n) :
    Lexer.start.feed (Text.toBytes (signText negative ++
        String.ofList ((Nat.toDigits 10 n).take 1) ++
          (if ((Nat.toDigits 10 n).drop 1).isEmpty then ""
            else "." ++ String.ofList ((Nat.toDigits 10 n).drop 1)) ++ "e")) =
      ⟨.numeral .mark ⟨negative, n, (Nat.toDigits 10 n).length - 1, false, false, 0⟩, []⟩ := by
  obtain ⟨c, cs, hdigits, hc⟩ := exists_toDigits_eq_cons hn
  have hall := allDigits_toDigits n
  have hvalue : Nat.ofDigitChars 10 (Nat.toDigits 10 n) 0 = n :=
    Nat.ofDigitChars_toDigits (by decide) (by decide)
  rw [hdigits] at hall hvalue ⊢
  have hmark : Text.toBytes "e" = [0x65] := by
    rw [Text.toBytes_eq]
    rfl
  rw [Text.toBytes_append, hmark, Lexer.feed_append]
  cases cs with
  | nil =>
      have h := Lexer.feed_sign_whole negative hall hc
      rw [Numeral.whole, Numeral.zero, hvalue] at h
      rw [List.drop_succ_cons, List.drop_nil, List.isEmpty_nil, if_pos rfl, String.append_empty]
      exact (congrArg (Lexer.feed · [0x65]) h).trans rfl
  | cons d ds =>
      have hfirst : AllDigits [c] := by
        intro c' hc'
        rw [List.mem_singleton.mp hc']
        exact hall.head
      have h := feed_sign_fraction negative hfirst (.inr ⟨c, [], rfl, hc⟩) hall.tail
        (List.cons_ne_nil d ds)
      rw [List.singleton_append, hvalue] at h
      rw [List.drop_succ_cons, List.drop_zero, List.isEmpty_cons, if_neg Bool.false_ne_true,
        ← String.append_assoc]
      exact (congrArg (Lexer.feed · [0x65]) h).trans rfl

theorem feed_exponent {n : Numeral} (hn : n.exponentNegative = false ∧ n.exponent = 0)
    (lead : Int) :
    (⟨.numeral .mark n, []⟩ : Lexer).feed
        (Text.toBytes ((if lead < 0 then "-" else "+") ++ lead.natAbs.repr)) =
      ⟨.numeral .exponent
        { n with exponentNegative := lead < 0, exponent := lead.natAbs }, []⟩ := by
  obtain ⟨negative, digits, places, integral, exponentNegative, exponent⟩ := n
  obtain ⟨rfl, rfl⟩ := hn
  have hsign : (⟨.numeral .mark ⟨negative, digits, places, integral, false, 0⟩, []⟩ : Lexer).feed
      (Text.toBytes (if lead < 0 then "-" else "+")) =
        ⟨.numeral .markSign ⟨negative, digits, places, integral, lead < 0, 0⟩, []⟩ := by
    by_cases h : lead < 0
    · rw [if_pos h, decide_eq_true h, Text.toBytes_eq]
      rfl
    · rw [if_neg h, decide_eq_false h, Text.toBytes_eq]
      rfl
  rw [Text.toBytes_append, Lexer.feed_append, hsign, Nat.repr_eq_ofList_toDigits,
    Text.toBytes_ofList, Lexer.feed_markSign (allDigits_toDigits _) Nat.toDigits_ne_nil,
    Numeral.power, Nat.ofDigitChars_toDigits (by decide) (by decide)]

theorem feed_scientific (negative : Bool) {n : Nat} (hn : 0 < n) (lead : Int) :
    Lexer.start.feed (Text.toBytes (signText negative ++
        scientific (Nat.toDigits 10 n) lead)) =
      ⟨.numeral .exponent
        ⟨negative, n, (Nat.toDigits 10 n).length - 1, false, lead < 0, lead.natAbs⟩, []⟩ := by
  have hmantissa := feed_mantissa negative hn
  simp only [scientific, Text.toBytes_append, Lexer.feed_append] at hmantissa ⊢
  rw [hmantissa, ← Lexer.feed_append, ← Text.toBytes_append]
  exact feed_exponent ⟨rfl, rfl⟩ lead

/-- A written decimal is the numeral it should be. -/
theorem lexes_write (style : DecimalStyle) (negative : Bool) {d : Decimal} (hd : 0 < d.digits) :
    Lexes (Text.toBytes (signText negative ++ style.write d))
      [.number (style.numeral negative d)] := by
  unfold Lexes write numeral
  dsimp only
  by_cases hplain : style.plainFrom ≤ d.exponent + ((Nat.toDigits 10 d.digits).length : Int) - 1 ∧
      d.exponent + ((Nat.toDigits 10 d.digits).length : Int) - 1 ≤ style.plainTo
  · rw [if_pos hplain, if_pos hplain, feed_plain negative hd]
    exact .numeral _ [] rfl
  · rw [if_neg hplain, if_neg hplain, feed_scientific negative hd]
    exact .numeral _ [] rfl

variable {f : BinaryFormat}

/-- The numeral of a number; none if it is not finite. -/
def numeral? (style : DecimalStyle) (x : Binary f) : Option Numeral :=
  match x.content with
  | .nan | .infinite _ => none
  | .finite negative significand exponent =>
      if significand = 0 then some ⟨negative, 0, 1, false, false, 0⟩
      else some (style.numeral negative (Binary.shortest f significand exponent))

theorem closes_null : Closes (Text.toBytes "null") [.null] := by
  unfold Closes
  rw [Text.toBytes_eq]
  rfl

/-- A written number is one token, and what is not finite is written as `null`. -/
theorem lexes_text? (hf : f.Searchable) (style : DecimalStyle) (x : Binary f) :
    Lexes (Text.toBytes ((style.text? x).getD "null")) [.ofNumeral? (style.numeral? x)] := by
  unfold text? numeral?
  cases hcontent : x.content with
  | nan => exact closes_null.lexes
  | infinite negative => exact closes_null.lexes
  | finite negative significand exponent =>
      dsimp only
      by_cases hzero : significand = 0
      · rw [if_pos hzero, if_pos hzero]
        have hfeed := feed_sign_fraction negative (allDigits_replicate_zero 1) (.inl rfl)
          (allDigits_replicate_zero 1) (List.cons_ne_nil _ _)
        have htext : signText negative ++ String.ofList (List.replicate 1 '0') ++ "." ++
            String.ofList (List.replicate 1 '0') = signText negative ++ "0.0" := by
          rw [String.append_assoc, String.append_assoc]
          rfl
        rw [htext] at hfeed
        unfold Lexes
        exact hfeed ▸ Settled.numeral _ [] rfl
      · rw [if_neg hzero, if_neg hzero]
        exact lexes_write style negative (Binary.digits_shortest_pos hf hcontent hzero)

end DecimalStyle

/-! ### Strings -/

namespace Json

/-- A byte that stands for itself inside a string. -/
def StandsForItself (b : UInt8) : Prop := 0x20 ≤ b.toNat ∧ b.toNat ≠ 0x22 ∧ b.toNat ≠ 0x5c

theorem standsForItself_of_mem_utf8EncodeChar {c : Char} (hc : 0x20 ≤ c.toNat) (hquote : c ≠ '"')
    (hbackslash : c ≠ '\\') {b : UInt8} (hb : b ∈ String.utf8EncodeChar c) : StandsForItself b := by
  have hquote' : c.toNat ≠ 0x22 := fun h => hquote (Char.toNat_inj.mp h)
  have hbackslash' : c.toNat ≠ 0x5c := fun h => hbackslash (Char.toNat_inj.mp h)
  have hmany {n : Nat} (hn : 128 ≤ n) (hlt : n < 256) : StandsForItself (UInt8.ofNat n) := by
    have htoNat : (UInt8.ofNat n).toNat = n := UInt8.toNat_ofNat_of_lt' hlt
    unfold StandsForItself
    rw [htoNat]
    omega
  have hval : c.val.toNat = c.toNat := rfl
  simp only [String.utf8EncodeChar, hval] at hb
  split_ifs at hb with h1 h2 h3
  · have htoNat : (UInt8.ofNat c.toNat).toNat = c.toNat :=
      UInt8.toNat_ofNat_of_lt' (h1.trans_lt (by decide))
    rw [List.mem_singleton] at hb
    rw [hb, StandsForItself, htoNat]
    exact ⟨hc, hquote', hbackslash'⟩
  all_goals
    simp only [List.mem_cons, List.not_mem_nil, or_false] at hb
  · rcases hb with rfl | rfl <;> exact hmany (by omega) (by omega)
  · rcases hb with rfl | rfl | rfl <;> exact hmany (by omega) (by omega)
  · rcases hb with rfl | rfl | rfl | rfl <;> exact hmany (by omega) (by omega)

/-- The contents of a string that is read without a fault. -/
def TextContents.so (reversed : List UInt8) : TextContents := ⟨reversed, none, false⟩

namespace Lexer

/-- Bytes that stand for themselves. -/
theorem feed_text {bytes : List UInt8} (h : ∀ b ∈ bytes, StandsForItself b)
    (reversed : List UInt8) (before : List Token) :
    (⟨.text (.so reversed), before⟩ : Lexer).feed bytes =
      ⟨.text (.so (bytes.reverse ++ reversed)), before⟩ := by
  induction bytes generalizing reversed with
  | nil => rfl
  | cons b rest ih =>
      obtain ⟨⟨hlow, hquote, hbackslash⟩, hrest⟩ := List.forall_mem_cons.mp h
      have hquote' : ¬ (b == 0x22) = true := fun heq => hquote (by rw [eq_of_beq heq]; rfl)
      have hbackslash' : ¬ (b == 0x5c) = true :=
        fun heq => hbackslash (by rw [eq_of_beq heq]; rfl)
      have hcontrol : ¬ b < 0x20 := by
        rw [UInt8.lt_iff_toNat_lt]
        exact Nat.not_lt.mpr hlow
      show (stepText _ _ b).feed rest = _
      rw [stepText, if_neg hquote', if_neg hbackslash', if_neg hcontrol, List.reverse_cons,
        List.append_assoc]
      exact ih hrest _

/-- A control character, by its code point. -/
theorem feed_controlEscape {n : Nat} (hn : n < 0x20) (reversed : List UInt8)
    (before : List Token) :
    (⟨.text (.so reversed), before⟩ : Lexer).feed (Text.toBytes (controlEscape (Char.ofNat n))) =
      ⟨.text (.so ((String.utf8EncodeChar (Char.ofNat n)).reverse ++ reversed)), before⟩ := by
  rw [Text.toBytes_eq]
  interval_cases n <;> rfl

/-- A written character is read as the bytes that encode it. -/
theorem feed_escapedChar (c : Char) (reversed : List UInt8) (before : List Token) :
    (⟨.text (.so reversed), before⟩ : Lexer).feed (Text.toBytes (escapedChar c)) =
      ⟨.text (.so ((String.utf8EncodeChar c).reverse ++ reversed)), before⟩ := by
  unfold escapedChar
  split
  iterate 7
    rw [Text.toBytes_eq]
    rfl
  next hquote hbackslash _ _ _ _ _ =>
    split_ifs with hcontrol
    · have h := feed_controlEscape hcontrol reversed before
      rwa [Char.ofNat_toNat] at h
    · have hbytes : Text.toBytes c.toString = String.utf8EncodeChar c := by
        simp [Text.toBytes_eq, Char.toString]
      rw [hbytes]
      exact feed_text (fun b hb => standsForItself_of_mem_utf8EncodeChar (Nat.le_of_not_lt hcontrol)
        hquote hbackslash hb) reversed before

/-- Written characters are read as the bytes that encode them. -/
theorem feed_escapedChars (cs : List Char) (reversed : List UInt8) (before : List Token) :
    (⟨.text (.so reversed), before⟩ : Lexer).feed
        (cs.flatMap fun c => Text.toBytes (escapedChar c)) =
      ⟨.text (.so ((cs.flatMap String.utf8EncodeChar).reverse ++ reversed)), before⟩ := by
  induction cs generalizing reversed with
  | nil => rfl
  | cons c rest ih =>
      rw [List.flatMap_cons, feed_append, feed_escapedChar, ih, List.flatMap_cons,
        List.reverse_append, List.append_assoc]

end Lexer

theorem writeString_eq (acc s : String) : writeString acc s = acc ++ writeString "" s := by
  have hfold (cs : List Char) (a b : String) :
      cs.foldl (fun acc c => acc ++ escapedChar c) (a ++ b) =
        a ++ cs.foldl (fun acc c => acc ++ escapedChar c) b := by
    induction cs generalizing b with
    | nil => rfl
    | cons c rest ih => rw [List.foldl_cons, List.foldl_cons, String.append_assoc, ih]
  unfold writeString
  rw [String.foldl_eq_foldl_toList, String.foldl_eq_foldl_toList, hfold, String.append_assoc,
    String.empty_append]

theorem toBytes_writeString (s : String) :
    Text.toBytes (writeString "" s) =
      [0x22] ++ (s.toList.flatMap fun c => Text.toBytes (escapedChar c)) ++ [0x22] := by
  have hfold (cs : List Char) (a : String) :
      Text.toBytes (cs.foldl (fun acc c => acc ++ escapedChar c) a) =
        Text.toBytes a ++ cs.flatMap fun c => Text.toBytes (escapedChar c) := by
    induction cs generalizing a with
    | nil => simp
    | cons c rest ih => simp [ih]
  have hquote : Text.toBytes "\"" = [0x22] := by
    rw [Text.toBytes_eq]
    rfl
  rw [writeString, String.foldl_eq_foldl_toList, Text.toBytes_append, hfold, String.empty_append,
    hquote]

/-- **A written string** is one token, with that string. -/
theorem closes_writeString (s : String) :
    Closes (Text.toBytes (writeString "" s)) [.text (.ok s)] := by
  have hclose : (TextContents.so ((s.toList.flatMap String.utf8EncodeChar).reverse ++ [])).close =
      .ok s := by
    rw [← Text.toBytes_eq]
    simp [TextContents.close, TextContents.so, Text.ofBytes?_toBytes]
  unfold Closes
  rw [toBytes_writeString, Lexer.feed_append, Lexer.feed_append]
  refine (congrArg (Lexer.feed · [0x22]) (Lexer.feed_escapedChars s.toList [] [])).trans ?_
  show (⟨.idle, [.text (TextContents.close _)]⟩ : Lexer) = _
  rw [hclose]
  rfl

end Json

end StridedSlice
