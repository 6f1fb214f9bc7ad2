import StridedSlice.Proofs.Lexing
import Mathlib.Data.List.Induction
import Mathlib.Tactic.IntervalCases
/-!
# StridedSlice.Proofs.Literal

**Texts of one token**, a number or a truth value between blanks. A number is written as a
`Literal`: a sign, a whole part without leading zeros, a fraction, a power of ten. The lexer takes
it byte by byte, and the phase that it is in says which part of a literal it has read
(`Literal.Part`).

* `tokens_eq_number_iff`: the texts of one number are the literals between blanks;
* `tokens_eq_bool_iff`: the texts of one truth value are the two words between blanks.

From the token back to the text, one invariant tells what was read before each state that such a
text may lead to (`Lexer.ReadOf`), and a byte more keeps it. From the literal to the token, the
digits are followed through the phases of the lexer (`Literal.LeadsTo`), by induction from the last
digit, because a phase is known by what was read before.
-/

namespace StridedSlice.Json

/-! ### Blanks and digits -/

/-- A byte that may stand between tokens. -/
def IsBlank (b : UInt8) : Prop := b = 0x20 ∨ b = 0x09 ∨ b = 0x0a ∨ b = 0x0d

/-- Nothing but blanks. -/
def Blanks (bytes : List UInt8) : Prop := ∀ b ∈ bytes, IsBlank b

/-- A text that has this in it, and else nothing but blanks. -/
def Surrounds (bytes body : List UInt8) : Prop :=
  ∃ pre post, Blanks pre ∧ Blanks post ∧ bytes = pre ++ body ++ post

theorem Blanks.concat {bytes : List UInt8} (h : Blanks bytes) {b : UInt8} (hb : IsBlank b) :
    Blanks (bytes ++ [b]) := by
  intro c hc
  rcases List.mem_append.mp hc with hc | hc
  · exact h c hc
  · rw [List.mem_singleton.mp hc]
    exact hb

theorem Surrounds.concat {bytes body : List UInt8} (h : Surrounds bytes body) {b : UInt8}
    (hb : IsBlank b) : Surrounds (bytes ++ [b]) body := by
  obtain ⟨pre, post, hpre, hpost, rfl⟩ := h
  exact ⟨pre, post ++ [b], hpre, hpost.concat hb, List.append_assoc ..⟩

/-- The byte of a decimal digit. -/
def digitByte (d : Fin 10) : UInt8 := UInt8.ofNat (0x30 + d)

/-- The bytes of digits. -/
@[simp] def digitBytes (ds : List (Fin 10)) : List UInt8 := ds.map digitByte

/-- The number that digits make behind those of another number. -/
def readDigits (n : Nat) (ds : List (Fin 10)) : Nat := ds.foldl (fun n d => 10 * n + d.val) n

theorem digit?_digitByte (d : Fin 10) : digit? (digitByte d) = some d.val := by
  revert d
  decide

theorem exists_digitByte {b : UInt8} {k : Nat} (h : digit? b = some k) :
    ∃ d : Fin 10, b = digitByte d ∧ k = d := by
  unfold digit? at h
  split at h
  · next hb =>
      obtain ⟨hlow, hhigh⟩ := hb
      rw [UInt8.le_iff_toNat_le] at hlow hhigh
      change 48 ≤ b.toNat at hlow
      change b.toNat ≤ 57 at hhigh
      cases h
      refine ⟨⟨b.toNat - 48, by omega⟩, ?_, rfl⟩
      rw [digitByte, Nat.add_sub_cancel' hlow, UInt8.ofNat_toNat]
  · cases h

/-! ### Literals -/

/-- One digit or more. -/
structure Digits where
  first : Fin 10
  rest : List (Fin 10)

/-- The digits as a list. -/
@[simp] def Digits.toList (ds : Digits) : List (Fin 10) := ds.first :: ds.rest

/-- The digits with one more behind them. -/
@[simp] def Digits.concat (ds : Digits) (d : Fin 10) : Digits := ⟨ds.first, ds.rest ++ [d]⟩

/-- The digits before the point. Only the number zero begins with a zero. -/
inductive Whole
  | zero
  | positive (first : Fin 10) (hfirst : first ≠ 0) (rest : List (Fin 10))

/-- The digits as a list. -/
@[simp] def Whole.digits : Whole → List (Fin 10)
  | .zero => [0]
  | .positive first _ rest => first :: rest

/-- The power of ten behind a number. -/
structure Power where
  /-- Whether its mark is a capital letter. -/
  capital : Bool
  /-- Its sign, if it has one, and whether that is a minus sign. -/
  sign : Option Bool
  digits : Digits

/-- A number as it may be written. -/
structure Literal where
  negative : Bool
  whole : Whole
  fraction : Option Digits
  power : Option Power

/-- The bytes of a sign that is only written if it is a minus sign. -/
@[simp] def minusBytes (negative : Bool) : List UInt8 := if negative then [0x2d] else []

namespace Power

/-- The byte of the mark. -/
def markByte (capital : Bool) : UInt8 := if capital then 0x45 else 0x65

/-- The bytes of the sign. -/
@[simp] def signBytes : Option Bool → List UInt8
  | none => []
  | some negative => [if negative then 0x2d else 0x2b]

/-- The bytes of a power of ten. -/
@[simp] def bytes (p : Power) : List UInt8 :=
  markByte p.capital :: (signBytes p.sign ++ digitBytes p.digits.toList)

/-- Whether the exponent has a minus sign. -/
@[simp] def isNegative (p : Power) : Bool := p.sign == some true

/-- The exponent without its sign. -/
@[simp] def magnitude (p : Power) : Nat := readDigits 0 p.digits.toList

end Power

namespace Literal

/-- The digits behind the point. -/
@[simp] def places (l : Literal) : List (Fin 10) := l.fraction.elim [] Digits.toList

/-- The bytes of a literal. -/
def bytes (l : Literal) : List UInt8 :=
  minusBytes l.negative ++ digitBytes l.whole.digits ++
    l.fraction.elim [] (fun f => 0x2e :: digitBytes f.toList) ++ l.power.elim [] Power.bytes

/-- Whether a literal has neither a fraction nor a power of ten. -/
def isIntegral (l : Literal) : Bool := l.fraction.isNone && l.power.isNone

/-- All digits of a literal, as one number. -/
def digits (l : Literal) : Nat := readDigits (readDigits 0 l.whole.digits) l.places

/-- The numeral that a literal is read as. -/
def numeral (l : Literal) : Numeral where
  negative := l.negative
  digits := l.digits
  places := l.places.length
  integral := l.isIntegral
  exponentNegative := l.power.elim false Power.isNegative
  exponent := l.power.elim 0 Power.magnitude

/-! ### Parts of literals -/

@[simp] theorem readDigits_cons (n : Nat) (d : Fin 10) (ds : List (Fin 10)) :
    readDigits n (d :: ds) = readDigits (10 * n + d) ds := rfl

@[simp] theorem readDigits_nil (n : Nat) : readDigits n [] = n := rfl

@[simp] theorem readDigits_concat (n : Nat) (ds : List (Fin 10)) (d : Fin 10) :
    readDigits n (ds ++ [d]) = 10 * readDigits n ds + d := by
  rw [readDigits, List.foldl_concat, readDigits]

/-! What a digit more does to the numeral. -/

theorem zero_pushWhole (negative : Bool) (d : Fin 10) (hd : d ≠ 0) :
    (Numeral.zero negative).pushWhole d = numeral ⟨negative, .positive d hd [], none, none⟩ := by
  simp [numeral, Numeral.pushWhole, Numeral.zero, digits, isIntegral]

theorem numeral_pushWhole (negative : Bool) (first : Fin 10) (hfirst : first ≠ 0)
    (rest : List (Fin 10)) (d : Fin 10) :
    (numeral ⟨negative, .positive first hfirst rest, none, none⟩).pushWhole d =
      numeral ⟨negative, .positive first hfirst (rest ++ [d]), none, none⟩ := by
  simp [numeral, Numeral.pushWhole, digits, isIntegral]

theorem point_pushPlace (negative : Bool) (w : Whole) (d : Fin 10) :
    Numeral.pushPlace { numeral ⟨negative, w, none, none⟩ with integral := false } d =
      numeral ⟨negative, w, some ⟨d, []⟩, none⟩ := by
  simp [numeral, Numeral.pushPlace, digits, isIntegral]

theorem numeral_pushPlace (negative : Bool) (w : Whole) (f : Digits) (d : Fin 10) :
    (numeral ⟨negative, w, some f, none⟩).pushPlace d =
      numeral ⟨negative, w, some (f.concat d), none⟩ := by
  simp [numeral, Numeral.pushPlace, digits, isIntegral]

theorem mark_pushExponent (negative : Bool) (w : Whole) (f : Option Digits) (capital : Bool)
    (d : Fin 10) :
    Numeral.pushExponent { numeral ⟨negative, w, f, none⟩ with integral := false } d =
      numeral ⟨negative, w, f, some ⟨capital, none, ⟨d, []⟩⟩⟩ := by
  simp [numeral, Numeral.pushExponent, digits, isIntegral]

theorem markSign_pushExponent (negative : Bool) (w : Whole) (f : Option Digits)
    (capital below : Bool) (d : Fin 10) :
    Numeral.pushExponent { numeral ⟨negative, w, f, none⟩ with
        integral := false, exponentNegative := below } d =
      numeral ⟨negative, w, f, some ⟨capital, some below, ⟨d, []⟩⟩⟩ := by
  simp [numeral, Numeral.pushExponent, digits, isIntegral]

theorem numeral_pushExponent (negative : Bool) (w : Whole) (f : Option Digits) (p : Power)
    (d : Fin 10) :
    (numeral ⟨negative, w, f, some p⟩).pushExponent d =
      numeral ⟨negative, w, f, some { p with digits := p.digits.concat d }⟩ := by
  simp [numeral, Numeral.pushExponent, digits, isIntegral]

/-- What was read of a literal when the lexer is in a phase. -/
inductive Part : List UInt8 → NumeralPhase → Numeral → Prop
  | sign : Part [0x2d] .sign (.zero true)
  | zero (negative : Bool) :
      Part (bytes ⟨negative, .zero, none, none⟩) .zero (numeral ⟨negative, .zero, none, none⟩)
  | whole (negative : Bool) (first : Fin 10) (hfirst : first ≠ 0) (rest : List (Fin 10)) :
      Part (bytes ⟨negative, .positive first hfirst rest, none, none⟩) .whole
        (numeral ⟨negative, .positive first hfirst rest, none, none⟩)
  | point (negative : Bool) (w : Whole) :
      Part (bytes ⟨negative, w, none, none⟩ ++ [0x2e]) .point
        { numeral ⟨negative, w, none, none⟩ with integral := false }
  | fraction (negative : Bool) (w : Whole) (f : Digits) :
      Part (bytes ⟨negative, w, some f, none⟩) .fraction (numeral ⟨negative, w, some f, none⟩)
  | mark (negative : Bool) (w : Whole) (f : Option Digits) (capital : Bool) :
      Part (bytes ⟨negative, w, f, none⟩ ++ [Power.markByte capital]) .mark
        { numeral ⟨negative, w, f, none⟩ with integral := false }
  | markSign (negative : Bool) (w : Whole) (f : Option Digits) (capital below : Bool) :
      Part (bytes ⟨negative, w, f, none⟩ ++ Power.markByte capital :: Power.signBytes (some below))
        .markSign { numeral ⟨negative, w, f, none⟩ with
          integral := false, exponentNegative := below }
  | exponent (negative : Bool) (w : Whole) (f : Option Digits) (p : Power) :
      Part (bytes ⟨negative, w, f, some p⟩) .exponent (numeral ⟨negative, w, f, some p⟩)

/-- A phase in which a numeral may end has read a whole literal. -/
theorem Part.exists_literal {body : List UInt8} {phase : NumeralPhase} {n : Numeral}
    (h : Part body phase n) (hphase : phase.isComplete = true) :
    ∃ l : Literal, body = l.bytes ∧ n = l.numeral := by
  cases h with
  | zero | whole | fraction | exponent => exact ⟨_, rfl, rfl⟩
  | sign | point | mark | markSign => cases hphase

theorem exists_markByte {b : UInt8} (h : isExponentMark b = true) :
    ∃ capital, b = Power.markByte capital := by
  rcases Bool.or_eq_true _ _ ▸ h with h | h
  · exact ⟨false, beq_iff_eq.mp h⟩
  · exact ⟨true, beq_iff_eq.mp h⟩

/-- What may follow the digits before the point. -/
theorem afterWhole_eq_more {n n' : Numeral} {b : UInt8} {phase : NumeralPhase}
    (h : NumeralPhase.afterWhole n b = .more phase n') :
    n' = { n with integral := false } ∧
      (b = 0x2e ∧ phase = .point ∨ ∃ capital, b = Power.markByte capital ∧ phase = .mark) := by
  unfold NumeralPhase.afterWhole at h
  split_ifs at h with hpoint hmark
  · cases h
    exact ⟨rfl, .inl ⟨beq_iff_eq.mp hpoint, rfl⟩⟩
  · cases h
    obtain ⟨capital, hb⟩ := exists_markByte hmark
    exact ⟨rfl, .inr ⟨capital, hb, rfl⟩⟩

/-- After the digits before the point there is a part with a point or with a mark. -/
theorem Part.afterWhole (negative : Bool) (w : Whole) {b : UInt8} {phase : NumeralPhase}
    {n : Numeral}
    (h : NumeralPhase.afterWhole (numeral ⟨negative, w, none, none⟩) b = .more phase n) :
    Part (bytes ⟨negative, w, none, none⟩ ++ [b]) phase n := by
  obtain ⟨rfl, ⟨rfl, rfl⟩ | ⟨capital, rfl, rfl⟩⟩ := afterWhole_eq_more h
  · exact .point negative w
  · exact .mark negative w none capital

theorem Part.of_eq {body body' : List UInt8} {phase : NumeralPhase} {n : Numeral}
    (h : Part body phase n) (hbody : body' = body) : Part body' phase n := by
  rw [hbody]
  exact h

theorem step_sign (d : Fin 10) (hd : d ≠ 0) :
    NumeralPhase.sign.step (.zero true) (digitByte d) =
      .more .whole (numeral ⟨true, .positive d hd [], none, none⟩) := by
  obtain ⟨k, hk⟩ := Nat.exists_eq_succ_of_ne_zero (Fin.val_ne_of_ne hd)
  rw [← zero_pushWhole]
  simp [NumeralPhase.step, digit?_digitByte, hk]

/-- A digit more of a literal. -/
theorem Part.step_digit {body : List UInt8} {phase phase' : NumeralPhase} {n n' : Numeral}
    (h : Part body phase n) {d : Fin 10} (hstep : phase.step n (digitByte d) = .more phase' n') :
    Part (body ++ [digitByte d]) phase' n' := by
  have hdigit := digit?_digitByte d
  cases h with
  | sign =>
      by_cases hd : d = 0
      · subst hd
        cases hstep
        exact .zero true
      · rw [step_sign d hd] at hstep
        cases hstep
        exact (Part.whole true d hd []).of_eq (by simp [bytes])
  | zero negative => simp [NumeralPhase.step, hdigit] at hstep
  | whole negative first hfirst rest =>
      simp only [NumeralPhase.step, hdigit, numeral_pushWhole] at hstep
      cases hstep
      exact (Part.whole negative first hfirst (rest ++ [d])).of_eq (by simp [bytes])
  | point negative w =>
      simp only [NumeralPhase.step, hdigit, point_pushPlace] at hstep
      cases hstep
      exact (Part.fraction negative w ⟨d, []⟩).of_eq (by simp [bytes])
  | fraction negative w f =>
      simp only [NumeralPhase.step, hdigit, numeral_pushPlace] at hstep
      cases hstep
      exact (Part.fraction negative w (f.concat d)).of_eq (by simp [bytes])
  | mark negative w f capital =>
      simp only [NumeralPhase.step, hdigit] at hstep
      cases hstep
      rw [mark_pushExponent negative w f capital]
      exact (Part.exponent negative w f ⟨capital, none, ⟨d, []⟩⟩).of_eq (by simp [bytes])
  | markSign negative w f capital below =>
      simp only [NumeralPhase.step, hdigit] at hstep
      cases hstep
      rw [markSign_pushExponent negative w f capital]
      exact (Part.exponent negative w f ⟨capital, some below, ⟨d, []⟩⟩).of_eq (by simp [bytes])
  | exponent negative w f p =>
      simp only [NumeralPhase.step, hdigit, numeral_pushExponent] at hstep
      cases hstep
      exact (Part.exponent negative w f { p with digits := p.digits.concat d }).of_eq
        (by simp [bytes])

/-- A point, a mark or a sign more of a literal. -/
theorem Part.step_mark {body : List UInt8} {phase phase' : NumeralPhase} {n n' : Numeral}
    (h : Part body phase n) {b : UInt8} (hdigit : digit? b = none)
    (hstep : phase.step n b = .more phase' n') : Part (body ++ [b]) phase' n' := by
  cases h with
  | sign => simp [NumeralPhase.step, hdigit] at hstep
  | zero negative =>
      simp only [NumeralPhase.step, hdigit] at hstep
      exact .afterWhole negative .zero hstep
  | whole negative first hfirst rest =>
      simp only [NumeralPhase.step, hdigit] at hstep
      exact .afterWhole negative (.positive first hfirst rest) hstep
  | point negative w => simp [NumeralPhase.step, hdigit] at hstep
  | fraction negative w f =>
      simp only [NumeralPhase.step, hdigit] at hstep
      split_ifs at hstep with hmark
      cases hstep
      obtain ⟨capital, rfl⟩ := exists_markByte hmark
      exact .mark negative w (some f) capital
  | mark negative w f capital =>
      simp only [NumeralPhase.step, hdigit] at hstep
      split_ifs at hstep with hplus hminus
      · cases hstep
        obtain rfl := beq_iff_eq.mp hplus
        exact (Part.markSign negative w f capital false).of_eq (by simp)
      · cases hstep
        obtain rfl := beq_iff_eq.mp hminus
        exact (Part.markSign negative w f capital true).of_eq (by simp)
  | markSign negative w f capital below => simp [NumeralPhase.step, hdigit] at hstep
  | exponent negative w f p => simp [NumeralPhase.step, hdigit] at hstep

/-- **A byte more** of a literal is a larger part of it. -/
theorem Part.step {body : List UInt8} {phase phase' : NumeralPhase} {n n' : Numeral}
    (h : Part body phase n) {b : UInt8} (hstep : phase.step n b = .more phase' n') :
    Part (body ++ [b]) phase' n' := by
  cases hdigit : digit? b with
  | none => exact h.step_mark hdigit hstep
  | some k =>
      obtain ⟨d, rfl, -⟩ := exists_digitByte hdigit
      exact h.step_digit hstep

end Literal

/-! ### From the token to the text -/

/-- The bytes of a truth value. -/
def wordBytes (b : Bool) : List UInt8 :=
  if b then [0x74, 0x72, 0x75, 0x65] else [0x66, 0x61, 0x6c, 0x73, 0x65]

/-- A bracket, a comma or a colon. -/
def Token.isPunctuation : Token → Bool
  | .openArray | .closeArray | .openObject | .closeObject | .comma | .colon => true
  | _ => false

namespace Lexer

/-- What a byte between tokens does. -/
inductive IdleStep (before : List Token) (b : UInt8) : Lexer → Prop
  | blank : IsBlank b → IdleStep before b ⟨.idle, before⟩
  | punctuation {t : Token} : t.isPunctuation = true → IdleStep before b ⟨.idle, t :: before⟩
  | text : IdleStep before b ⟨.text .empty, before⟩
  | numeral {phase : NumeralPhase} {n : Numeral} : Literal.Part [b] phase n →
      IdleStep before b ⟨.numeral phase n, before⟩
  | word {missing : List UInt8} {w : Bool} : b :: missing = wordBytes w →
      IdleStep before b ⟨.word missing (.bool w), before⟩
  | null (missing : List UInt8) : IdleStep before b ⟨.word missing .null, before⟩
  | stop (t : Token) : IdleStep before b ⟨.stopped, t :: before⟩

theorem IdleStep.ite {before : List Token} {b : UInt8} {c : Prop} [Decidable c] {l l' : Lexer}
    (h : c → IdleStep before b l) (h' : ¬ c → IdleStep before b l') :
    IdleStep before b (if c then l else l') := by
  split
  · next hc => exact h hc
  · next hc => exact h' hc

theorem idleStep_stepIdle (before : List Token) (b : UInt8) :
    IdleStep before b (stepIdle ⟨.idle, before⟩ b) := by
  unfold stepIdle
  refine .ite (fun hblank => .blank ?_) fun _ => ?_
  · simpa only [IsBlank, Bool.or_eq_true, beq_iff_eq, or_assoc] using hblank
  iterate 6 refine .ite (fun _ => .punctuation rfl) fun _ => ?_
  refine .ite (fun _ => .text) fun _ => ?_
  refine .ite (fun hb => .numeral ?_) fun _ => ?_
  · rw [beq_iff_eq.mp hb]
    exact .sign
  refine .ite (fun hb => .numeral ?_) fun hzero => ?_
  · rw [beq_iff_eq.mp hb]
    exact .zero false
  refine .ite (fun _ => .null _) fun _ => ?_
  refine .ite (fun hb => .word (w := true) ?_) fun _ => ?_
  · rw [beq_iff_eq.mp hb]
    rfl
  refine .ite (fun hb => .word (w := false) ?_) fun _ => ?_
  · rw [beq_iff_eq.mp hb]
    rfl
  cases hdigit : digit? b with
  | none => exact .stop _
  | some k =>
      obtain ⟨d, rfl, rfl⟩ := exists_digitByte hdigit
      have hd : d ≠ 0 := by
        rintro rfl
        exact hzero rfl
      show IdleStep _ _ ⟨.numeral .whole ((Numeral.zero false).pushWhole d), before⟩
      rw [Literal.zero_pushWhole false d hd]
      exact .numeral ((Literal.Part.whole false d hd []).of_eq (by simp [Literal.bytes]))

/-- What was read, if the text may still turn out to be one number or one truth value. -/
def ReadOf (bytes : List UInt8) : Lexer → Prop
  | ⟨.idle, []⟩ => Blanks bytes
  | ⟨.word _ .null, []⟩ => True
  | ⟨.word missing (.bool w), []⟩ =>
      missing ≠ [] ∧ ∃ pre done, Blanks pre ∧ bytes = pre ++ done ∧ done ++ missing = wordBytes w
  | ⟨.word _ _, []⟩ => False
  | ⟨.numeral phase n, []⟩ =>
      ∃ pre body, Blanks pre ∧ bytes = pre ++ body ∧ Literal.Part body phase n
  | ⟨.idle, [.number n]⟩ => ∃ l : Literal, n = l.numeral ∧ Surrounds bytes l.bytes
  | ⟨.idle, [.bool w]⟩ => Surrounds bytes (wordBytes w)
  | _ => True

theorem ReadOf.stepIdle {bytes : List UInt8} {before : List Token}
    (h : ReadOf bytes ⟨.idle, before⟩) (b : UInt8) :
    ReadOf (bytes ++ [b]) (Lexer.stepIdle ⟨.idle, before⟩ b) := by
  have hstep := idleStep_stepIdle before b
  generalize Lexer.stepIdle ⟨.idle, before⟩ b = l at hstep
  cases hstep with
  | blank hb =>
      match before with
      | [] => exact Blanks.concat h hb
      | [.number n] =>
          obtain ⟨l, hn, hl⟩ := h
          exact ⟨l, hn, hl.concat hb⟩
      | [.bool w] => exact Surrounds.concat h hb
      | [.openArray] | [.closeArray] | [.openObject] | [.closeObject] | [.comma] | [.colon]
      | [.null] | [.text _] | [.brokenText _] | [.broken _] => trivial
      | t :: _ :: _ => cases t <;> trivial
  | @punctuation t ht =>
      cases before with
      | nil => cases t <;> trivial
      | cons t' rest => cases t <;> trivial
  | text => cases before <;> trivial
  | numeral hpart =>
      cases before with
      | nil => exact ⟨bytes, [b], h, rfl, hpart⟩
      | cons t rest => trivial
  | @word missing w hw =>
      cases before with
      | nil =>
          refine ⟨?_, bytes, [b], h, rfl, hw⟩
          rintro rfl
          cases w <;> cases hw
      | cons t rest => trivial
  | null missing => cases before <;> trivial
  | stop t => cases before <;> trivial

theorem ReadOf.stepWord {bytes missing : List UInt8} {token : Token} {before : List Token}
    (h : ReadOf bytes ⟨.word missing token, before⟩) (b : UInt8) :
    ReadOf (bytes ++ [b]) (Lexer.stepWord ⟨.word missing token, before⟩ missing token b) := by
  have hstop : ReadOf (bytes ++ [b])
      (Lexer.stop ⟨.word missing token, before⟩ (.broken .malformed)) := by
    cases before <;> trivial
  unfold Lexer.stepWord
  match before, token with
  | t :: rest, token =>
      split <;> (try split) <;> cases token <;> trivial
  | [], .null => split <;> (try split) <;> trivial
  | [], .bool w =>
      obtain ⟨hmissing, pre, done, hpre, rfl, hdone⟩ := h
      split
      · exact absurd rfl hmissing
      · next expected =>
          split_ifs with hb
          · obtain rfl := beq_iff_eq.mp hb
            exact ⟨pre, [], hpre, nofun, by simp [← hdone]⟩
          · exact hstop
      · next expected rest hrest =>
          split_ifs with hb
          · obtain rfl := beq_iff_eq.mp hb
            exact ⟨hrest, pre, done ++ [b], hpre, by simp, by simp [← hdone]⟩
          · exact hstop

theorem isComplete_of_step {phase : NumeralPhase} {n : Numeral} {b : UInt8}
    (h : phase.step n b = .ended) : phase.isComplete = true := by
  cases phase with
  | zero | whole | fraction | exponent => rfl
  | sign | point | markSign =>
      rcases hdigit : digit? b with - | - | d <;> simp [NumeralPhase.step, hdigit] at h
  | mark =>
      cases hdigit : digit? b with
      | none =>
          simp only [NumeralPhase.step, hdigit] at h
          split_ifs at h
      | some d => simp [NumeralPhase.step, hdigit] at h

theorem ReadOf.stepNumeral {bytes : List UInt8} {phase : NumeralPhase} {n : Numeral}
    {before : List Token} (h : ReadOf bytes ⟨.numeral phase n, before⟩) (b : UInt8) :
    ReadOf (bytes ++ [b]) (Lexer.stepNumeral ⟨.numeral phase n, before⟩ phase n b) := by
  unfold Lexer.stepNumeral
  split
  · next phase' n' hstep =>
      cases before with
      | nil =>
          obtain ⟨pre, body, hpre, rfl, hpart⟩ := h
          exact ⟨pre, body ++ [b], hpre, List.append_assoc .., hpart.step hstep⟩
      | cons t rest => trivial
  · -- The byte is read again, after a number that is a whole literal.
    next hstep =>
      refine ReadOf.stepIdle ?_ b
      cases before with
      | nil =>
          obtain ⟨pre, body, hpre, rfl, hpart⟩ := h
          obtain ⟨l, rfl, rfl⟩ := hpart.exists_literal (isComplete_of_step hstep)
          exact ⟨l, rfl, pre, [], hpre, nofun, by simp⟩
      | cons t rest => trivial
  · cases before <;> trivial

theorem ReadOf.step {bytes : List UInt8} {l : Lexer} (h : ReadOf bytes l) (b : UInt8) :
    ReadOf (bytes ++ [b]) (l.step b) := by
  obtain ⟨state, before⟩ := l
  cases state with
  | idle => exact h.stepIdle b
  | word missing token => exact h.stepWord b
  | numeral phase n => exact h.stepNumeral b
  | text t =>
      show ReadOf _ (stepText _ t b)
      unfold stepText
      split_ifs <;> cases before <;> trivial
  | escape t =>
      show ReadOf _ (stepEscape _ t b)
      unfold stepEscape
      split_ifs
      · cases before <;> trivial
      · cases shortEscape? b <;> cases before <;> trivial
  | codeUnit t digits =>
      show ReadOf _ (stepCodeUnit _ t digits b)
      unfold stepCodeUnit
      split_ifs
      · cases before <;> trivial
      · cases hexValue? (b :: digits) <;> cases before <;> trivial
  | stopped => cases before <;> trivial

theorem readOf_feed (bytes : List UInt8) : ReadOf bytes (start.feed bytes) := by
  induction bytes using List.reverseRecOn with
  | nil => exact fun _ hb => nomatch hb
  | append_singleton bytes b ih =>
      rw [feed_append]
      exact ih.step b

end Lexer

/-- The lexer that has found one token is behind it, or still in it. -/
theorem Settled.singleton {l : Lexer} {t : Token} (h : Settled l [t]) :
    l = ⟨.idle, [t]⟩ ∨
      ∃ phase n, phase.isComplete = true ∧ l = ⟨.numeral phase n, []⟩ ∧ t = .number n := by
  generalize hts : [t] = ts at h
  cases h with
  | idle ts =>
      subst hts
      exact .inl rfl
  | @numeral phase n ts hphase =>
      obtain ⟨rfl, hlast⟩ := List.append_eq_singleton_iff.mp hts.symm |>.resolve_right nofun
      cases hlast
      exact .inr ⟨phase, n, hphase, rfl, rfl⟩

theorem exists_literal_of_tokens {bytes : List UInt8} {n : Numeral}
    (h : tokens bytes = [.number n]) :
    ∃ l : Literal, n = l.numeral ∧ Surrounds bytes l.bytes := by
  have hlexes : Lexes bytes (tokens bytes) := lexes_tokens (by simp [h, Token.isBroken])
  have hread := Lexer.readOf_feed bytes
  rw [h] at hlexes
  -- Either a blank has ended the number, or the text ends with it.
  rcases hlexes.singleton with hidle | ⟨phase, m, hphase, hnumeral, hm⟩
  · rwa [hidle] at hread
  · cases hm
    rw [hnumeral] at hread
    obtain ⟨pre, body, hpre, rfl, hpart⟩ := hread
    obtain ⟨l, rfl, rfl⟩ := hpart.exists_literal hphase
    exact ⟨l, rfl, pre, [], hpre, nofun, (List.append_nil _).symm⟩

theorem surrounds_of_tokens {bytes : List UInt8} {w : Bool} (h : tokens bytes = [.bool w]) :
    Surrounds bytes (wordBytes w) := by
  have hlexes : Lexes bytes (tokens bytes) := lexes_tokens (by simp [h, Token.isBroken])
  have hread := Lexer.readOf_feed bytes
  rw [h] at hlexes
  rcases hlexes.singleton with hidle | ⟨phase, n, hphase, hnumeral, hm⟩
  · rwa [hidle] at hread
  · cases hm

/-! ### From the text to the token -/

theorem NumeralPhase.step_of_isBlank {phase : NumeralPhase} (hphase : phase.isComplete = true)
    (n : Numeral) {b : UInt8} (hb : IsBlank b) : phase.step n b = .ended := by
  cases phase <;> try cases hphase
  all_goals rcases hb with rfl | rfl | rfl | rfl <;> rfl

theorem Lexer.step_of_isBlank (before : List Token) {b : UInt8} (hb : IsBlank b) :
    (⟨.idle, before⟩ : Lexer).step b = ⟨.idle, before⟩ := by
  rcases hb with rfl | rfl | rfl | rfl <;> rfl

/-- A blank ends the last token, and adds none. -/
theorem Settled.step_of_isBlank {l : Lexer} {ts : List Token} (h : Settled l ts) {b : UInt8}
    (hb : IsBlank b) : Settled (l.step b) ts := by
  cases h with
  | idle ts =>
      rw [Lexer.step_of_isBlank _ hb]
      exact .idle ts
  | numeral n ts hphase =>
      show Settled (Lexer.stepNumeral _ _ n b) _
      rw [Lexer.stepNumeral, NumeralPhase.step_of_isBlank hphase n hb]
      have hidle := Settled.idle (ts ++ [.number n])
      rw [List.reverse_concat, ← Lexer.step_of_isBlank _ hb] at hidle
      exact hidle

theorem Settled.feed_blanks {l : Lexer} {ts : List Token} (h : Settled l ts)
    {blanks : List UInt8} (hblanks : Blanks blanks) : Settled (l.feed blanks) ts := by
  induction blanks generalizing l with
  | nil => exact h
  | cons b rest ih =>
      exact ih (h.step_of_isBlank (hblanks b List.mem_cons_self))
        fun c hc => hblanks c (List.mem_cons_of_mem b hc)

theorem Lexer.feed_blanks {blanks : List UInt8} (hblanks : Blanks blanks) :
    start.feed blanks = start := by
  induction blanks with
  | nil => rfl
  | cons b rest ih =>
      refine Eq.trans ?_ (ih fun c hc => hblanks c (List.mem_cons_of_mem b hc))
      exact congrArg (feed · rest) (step_of_isBlank [] (hblanks b List.mem_cons_self))

/-- Blanks around a text change nothing about its tokens. -/
theorem Lexes.tokens_of_surrounds {body bytes : List UInt8} {ts : List Token} (h : Lexes body ts)
    (hbytes : Surrounds bytes body) : tokens bytes = ts := by
  obtain ⟨pre, post, hpre, hpost, rfl⟩ := hbytes
  refine Lexes.tokens_eq ?_
  unfold Lexes at *
  rw [Lexer.feed_append, Lexer.feed_append, Lexer.feed_blanks hpre]
  exact h.feed_blanks hpost

namespace Literal

/-- The lexer comes by these bytes to a phase of a numeral. -/
def LeadsTo (body : List UInt8) (phase : NumeralPhase) (n : Numeral) : Prop :=
  Lexer.start.feed body = ⟨.numeral phase n, []⟩

theorem LeadsTo.concat {body body' : List UInt8} {phase phase' : NumeralPhase} {n n' : Numeral}
    (h : LeadsTo body phase n) {b : UInt8} (hstep : phase.step n b = .more phase' n')
    (hbody : body' = body ++ [b]) : LeadsTo body' phase' n' := by
  unfold LeadsTo at *
  rw [hbody, Lexer.feed_append, h]
  show Lexer.stepNumeral _ phase n b = _
  rw [Lexer.stepNumeral, hstep]
  rfl

theorem leadsTo_positive (negative : Bool) (first : Fin 10) (hfirst : first ≠ 0)
    (rest : List (Fin 10)) :
    LeadsTo (bytes ⟨negative, .positive first hfirst rest, none, none⟩) .whole
      (numeral ⟨negative, .positive first hfirst rest, none, none⟩) := by
  induction rest using List.reverseRecOn with
  | nil =>
      cases negative with
      | false =>
          obtain ⟨k, hk⟩ := first
          interval_cases k <;> first | rfl | exact absurd rfl hfirst
      | true =>
          have hsign : LeadsTo [0x2d] .sign (.zero true) := rfl
          exact hsign.concat (step_sign first hfirst) (by simp [bytes])
  | append_singleton rest d ih =>
      refine ih.concat (b := digitByte d) ?_ (by simp [bytes])
      simp [NumeralPhase.step, digit?_digitByte, numeral_pushWhole]

/-- The phase after the digits before the point. -/
@[simp] def Whole.phase : Whole → NumeralPhase
  | .zero => .zero
  | .positive _ _ _ => .whole

theorem leadsTo_whole (negative : Bool) (w : Whole) :
    LeadsTo (bytes ⟨negative, w, none, none⟩) (Whole.phase w)
      (numeral ⟨negative, w, none, none⟩) := by
  cases w with
  | zero => cases negative <;> rfl
  | positive first hfirst rest => exact leadsTo_positive negative first hfirst rest

theorem leadsTo_point (negative : Bool) (w : Whole) :
    LeadsTo (bytes ⟨negative, w, none, none⟩ ++ [0x2e]) .point
      { numeral ⟨negative, w, none, none⟩ with integral := false } := by
  refine (leadsTo_whole negative w).concat ?_ rfl
  cases w <;> rfl

theorem leadsTo_fraction (negative : Bool) (w : Whole) (f : Digits) :
    LeadsTo (bytes ⟨negative, w, some f, none⟩) .fraction
      (numeral ⟨negative, w, some f, none⟩) := by
  obtain ⟨first, rest⟩ := f
  induction rest using List.reverseRecOn with
  | nil =>
      refine (leadsTo_point negative w).concat (b := digitByte first) ?_ (by simp [bytes])
      simp [NumeralPhase.step, digit?_digitByte, point_pushPlace]
  | append_singleton rest d ih =>
      refine ih.concat (b := digitByte d) ?_ (by simp [bytes])
      simp [NumeralPhase.step, digit?_digitByte, numeral_pushPlace]

theorem leadsTo_mark (negative : Bool) (w : Whole) (f : Option Digits) (capital : Bool) :
    LeadsTo (bytes ⟨negative, w, f, none⟩ ++ [Power.markByte capital]) .mark
      { numeral ⟨negative, w, f, none⟩ with integral := false } := by
  cases f with
  | none =>
      refine (leadsTo_whole negative w).concat ?_ rfl
      cases w <;> cases capital <;> rfl
  | some f =>
      refine (leadsTo_fraction negative w f).concat ?_ rfl
      cases capital <;> rfl

theorem leadsTo_markSign (negative : Bool) (w : Whole) (f : Option Digits)
    (capital below : Bool) :
    LeadsTo (bytes ⟨negative, w, f, none⟩ ++ Power.markByte capital :: Power.signBytes (some below))
      .markSign { numeral ⟨negative, w, f, none⟩ with
        integral := false, exponentNegative := below } := by
  refine (leadsTo_mark negative w f capital).concat (b := if below then 0x2d else 0x2b) ?_
    (by simp)
  cases below <;> rfl

theorem leadsTo_exponent (negative : Bool) (w : Whole) (f : Option Digits) (p : Power) :
    LeadsTo (bytes ⟨negative, w, f, some p⟩) .exponent (numeral ⟨negative, w, f, some p⟩) := by
  obtain ⟨capital, sign, first, rest⟩ := p
  induction rest using List.reverseRecOn with
  | nil =>
      cases sign with
      | none =>
          refine (leadsTo_mark negative w f capital).concat (b := digitByte first) ?_
            (by simp [bytes])
          simp [NumeralPhase.step, digit?_digitByte, mark_pushExponent negative w f capital]
      | some below =>
          refine (leadsTo_markSign negative w f capital below).concat (b := digitByte first) ?_
            (by simp [bytes])
          simp [NumeralPhase.step, digit?_digitByte, markSign_pushExponent negative w f capital]
  | append_singleton rest d ih =>
      refine ih.concat (b := digitByte d) ?_ (by simp [bytes])
      simp [NumeralPhase.step, digit?_digitByte, numeral_pushExponent]

/-- The lexer reads a literal as its numeral. -/
theorem lexes_bytes (l : Literal) : Lexes l.bytes [.number l.numeral] := by
  have settles {phase : NumeralPhase} (hphase : phase.isComplete = true)
      (h : LeadsTo l.bytes phase l.numeral) : Lexes l.bytes [.number l.numeral] := by
    unfold Lexes
    rw [show Lexer.start.feed l.bytes = _ from h]
    exact .numeral l.numeral [] hphase
  match l with
  | ⟨negative, w, none, none⟩ =>
      exact settles (by cases w <;> rfl) (leadsTo_whole negative w)
  | ⟨negative, w, some f, none⟩ => exact settles rfl (leadsTo_fraction negative w f)
  | ⟨negative, w, f, some p⟩ => exact settles rfl (leadsTo_exponent negative w f p)

end Literal

theorem lexes_wordBytes (w : Bool) : Lexes (wordBytes w) [.bool w] := by
  refine Closes.lexes ?_
  cases w <;> rfl

/-! ### Texts of one token -/

/-- The texts of one number are the literals between blanks. -/
theorem tokens_eq_number_iff {bytes : List UInt8} {n : Numeral} :
    tokens bytes = [.number n] ↔ ∃ l : Literal, n = l.numeral ∧ Surrounds bytes l.bytes := by
  refine ⟨exists_literal_of_tokens, ?_⟩
  rintro ⟨l, rfl, hbytes⟩
  exact l.lexes_bytes.tokens_of_surrounds hbytes

/-- The texts of one truth value are the two words between blanks. -/
theorem tokens_eq_bool_iff {bytes : List UInt8} {w : Bool} :
    tokens bytes = [.bool w] ↔ Surrounds bytes (wordBytes w) :=
  ⟨surrounds_of_tokens, (lexes_wordBytes w).tokens_of_surrounds⟩

end StridedSlice.Json
