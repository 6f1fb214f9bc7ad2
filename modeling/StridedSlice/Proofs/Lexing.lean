import StridedSlice.Json.Document
import Mathlib.Data.List.Basic
/-!
# StridedSlice.Proofs.Lexing

**The tokens of a text that is put together from others.** The lexer never looks back at the
tokens that it has found (`Lexer.feed_onto`), so what it makes of a text is decided by its
state alone. Two kinds of texts leave it in a state that is known:

* `Closes a ts`: after the bytes `a` it stands between tokens, and has found `ts`;
* `Lexes a ts`: the tokens are `ts`, but the last one may be a number that would go on if more
  digits followed. A byte in front of which every number ends (`EndsNumeral`) makes up for it.

A text in which nothing breaks off is of the second kind (`lexes_tokens`).
-/

namespace StridedSlice.Json

/-- A token that breaks off. -/
def Token.isBroken : Token → Bool
  | .broken _ | .brokenText _ => true
  | _ => false

namespace Lexer

/-- The lexer with more tokens behind it. -/
def onto (l : Lexer) (before : List Token) : Lexer := ⟨l.state, l.reversed ++ before⟩

theorem emit_onto (l : Lexer) (before : List Token) (t : Token) :
    (l.onto before).emit t = (l.emit t).onto before := rfl

theorem stop_onto (l : Lexer) (before : List Token) (t : Token) :
    (l.onto before).stop t = (l.stop t).onto before := rfl

theorem goto_onto (l : Lexer) (before : List Token) (s : LexerState) :
    (l.onto before).goto s = (l.goto s).onto before := rfl

theorem stepIdle_onto (l : Lexer) (before : List Token) (b : UInt8) :
    (l.onto before).stepIdle b = (l.stepIdle b).onto before := by
  simp only [stepIdle, emit_onto, stop_onto, goto_onto, apply_ite (onto · before)]
  cases digit? b <;> rfl

theorem stepWord_onto (l : Lexer) (before : List Token) (missing : List UInt8) (t : Token)
    (b : UInt8) :
    (l.onto before).stepWord missing t b = (l.stepWord missing t b).onto before := by
  unfold stepWord
  split <;> simp only [emit_onto, stop_onto, goto_onto, apply_ite (onto · before)]

theorem stepNumeral_onto (l : Lexer) (before : List Token) (phase : NumeralPhase) (n : Numeral)
    (b : UInt8) :
    (l.onto before).stepNumeral phase n b = (l.stepNumeral phase n b).onto before := by
  unfold stepNumeral
  split
  · rfl
  · rw [emit_onto, stepIdle_onto]
  · rfl

theorem stepText_onto (l : Lexer) (before : List Token) (t : TextContents) (b : UInt8) :
    (l.onto before).stepText t b = (l.stepText t b).onto before := by
  simp only [stepText, emit_onto, stop_onto, goto_onto, apply_ite (onto · before)]

theorem stepEscape_onto (l : Lexer) (before : List Token) (t : TextContents) (b : UInt8) :
    (l.onto before).stepEscape t b = (l.stepEscape t b).onto before := by
  simp only [stepEscape, stop_onto, goto_onto, apply_ite (onto · before)]
  cases shortEscape? b <;> rfl

theorem stepCodeUnit_onto (l : Lexer) (before : List Token) (t : TextContents)
    (digits : List UInt8) (b : UInt8) :
    (l.onto before).stepCodeUnit t digits b = (l.stepCodeUnit t digits b).onto before := by
  simp only [stepCodeUnit, stop_onto, goto_onto, apply_ite (onto · before)]
  cases hexValue? (b :: digits) <;> rfl

/-- A step does not look at the tokens so far. -/
theorem step_onto (l : Lexer) (before : List Token) (b : UInt8) :
    (l.onto before).step b = (l.step b).onto before := by
  obtain ⟨state, reversed⟩ := l
  cases state with
  | idle => exact stepIdle_onto ..
  | word missing token => exact stepWord_onto ..
  | numeral phase n => exact stepNumeral_onto ..
  | text t => exact stepText_onto ..
  | escape t => exact stepEscape_onto ..
  | codeUnit t digits => exact stepCodeUnit_onto ..
  | stopped => rfl

/-- Reading does not look at the tokens so far. -/
theorem feed_onto (l : Lexer) (before : List Token) (bytes : List UInt8) :
    (l.onto before).feed bytes = (l.feed bytes).onto before := by
  induction bytes generalizing l with
  | nil => rfl
  | cons b rest ih =>
      show ((l.onto before).step b).feed rest = _
      rw [step_onto, ih]
      rfl

/-- A lexer between tokens reads on as from the start. -/
theorem feed_idle (before : List Token) (bytes : List UInt8) :
    (⟨.idle, before⟩ : Lexer).feed bytes = (start.feed bytes).onto before :=
  feed_onto start before bytes

end Lexer

/-! ### Texts that end between tokens -/

/-- After these bytes the lexer stands between tokens and has found these tokens. -/
def Closes (bytes : List UInt8) (ts : List Token) : Prop :=
  Lexer.start.feed bytes = ⟨.idle, ts.reverse⟩

theorem Closes.append {a b : List UInt8} {ts us : List Token} (ha : Closes a ts)
    (hb : Closes b us) : Closes (a ++ b) (ts ++ us) := by
  unfold Closes at *
  rw [Lexer.feed_append, ha, Lexer.feed_idle, hb, Lexer.onto, List.reverse_append]

/-! ### Texts that may end in a number -/

/-- The lexer has found these tokens, or it is in the last of them, a number. -/
inductive Settled : Lexer → List Token → Prop
  | idle (ts : List Token) : Settled ⟨.idle, ts.reverse⟩ ts
  | numeral {phase : NumeralPhase} (n : Numeral) (ts : List Token) : phase.isComplete = true →
      Settled ⟨.numeral phase n, ts.reverse⟩ (ts ++ [.number n])

/-- The tokens of these bytes; only the last one may go on behind them. -/
def Lexes (bytes : List UInt8) (ts : List Token) : Prop := Settled (Lexer.start.feed bytes) ts

theorem Closes.lexes {bytes : List UInt8} {ts : List Token} (h : Closes bytes ts) :
    Lexes bytes ts := by
  unfold Closes at h
  unfold Lexes
  rw [h]
  exact .idle ts

theorem Settled.finish {l : Lexer} {ts : List Token} (h : Settled l ts) : l.finish = ts := by
  cases h with
  | idle ts => simp [Lexer.finish, Lexer.lastToken?]
  | numeral n ts hphase => simp [Lexer.finish, Lexer.lastToken?, hphase]

theorem Lexes.tokens_eq {bytes : List UInt8} {ts : List Token} (h : Lexes bytes ts) :
    tokens bytes = ts := h.finish

/-- A byte in front of which every number ends: a comma or a closing bracket. -/
def EndsNumeral (b : UInt8) : Prop := b = 0x2c ∨ b = 0x5d ∨ b = 0x7d

theorem NumeralPhase.step_of_endsNumeral {phase : NumeralPhase} (hphase : phase.isComplete = true)
    (n : Numeral) {b : UInt8} (hb : EndsNumeral b) : phase.step n b = .ended := by
  cases phase <;> try cases hphase
  all_goals rcases hb with rfl | rfl | rfl <;> rfl

/-- In front of such a byte the last token is over. -/
theorem Settled.step {l : Lexer} {ts : List Token} (h : Settled l ts) {b : UInt8}
    (hb : EndsNumeral b) : l.step b = (⟨.idle, ts.reverse⟩ : Lexer).step b := by
  cases h with
  | idle ts => rfl
  | numeral n ts hphase =>
      show Lexer.stepNumeral _ _ n b = _
      rw [Lexer.stepNumeral, NumeralPhase.step_of_endsNumeral hphase n hb]
      simp [Lexer.emit, Lexer.step]

theorem Lexes.feed_append {a rest : List UInt8} {ts : List Token} (ha : Lexes a ts) {b : UInt8}
    (hb : EndsNumeral b) :
    Lexer.start.feed (a ++ b :: rest) = (Lexer.start.feed (b :: rest)).onto ts.reverse := by
  rw [Lexer.feed_append, ← Lexer.feed_idle]
  show ((Lexer.start.feed a).step b).feed rest = _
  rw [ha.step hb]
  rfl

theorem Lexes.append_closes {a rest : List UInt8} {ts us : List Token} (ha : Lexes a ts)
    {b : UInt8} (hb : EndsNumeral b) (hrest : Closes (b :: rest) us) :
    Closes (a ++ b :: rest) (ts ++ us) := by
  unfold Closes at *
  rw [ha.feed_append hb, hrest, Lexer.onto, List.reverse_append]

/-! ### Texts in which nothing breaks off -/

namespace Lexer

/-- A lexer that has stopped has met a token that breaks off. -/
def Honest (l : Lexer) : Prop := l.state = .stopped → ∃ t ∈ l.reversed, t.isBroken = true

theorem honest_emit (l : Lexer) (t : Token) : (l.emit t).Honest := nofun

theorem honest_stop (l : Lexer) {t : Token} (ht : t.isBroken = true) : (l.stop t).Honest :=
  fun _ => ⟨t, List.mem_cons_self, ht⟩

theorem honest_goto (l : Lexer) {s : LexerState} (hs : s ≠ .stopped) : (l.goto s).Honest :=
  fun hstop => absurd hstop hs

theorem honest_ite {c : Prop} [Decidable c] {l l' : Lexer} (h : l.Honest) (h' : l'.Honest) :
    (if c then l else l').Honest := by
  split <;> assumption

theorem honest_stepIdle (l : Lexer) (b : UInt8) : (l.stepIdle b).Honest := by
  unfold stepIdle
  refine honest_ite (honest_goto l nofun) ?_
  iterate 6 refine honest_ite (honest_emit l _) ?_
  iterate 6 refine honest_ite (honest_goto l nofun) ?_
  cases digit? b with
  | none => exact honest_stop l rfl
  | some d => exact honest_goto l nofun

theorem honest_step {l : Lexer} (h : l.Honest) (b : UInt8) : (l.step b).Honest := by
  obtain ⟨state, reversed⟩ := l
  cases state with
  | idle => exact honest_stepIdle _ b
  | word missing token =>
      show (stepWord _ missing token b).Honest
      unfold stepWord
      split
      · exact honest_emit _ _
      · exact honest_ite (honest_emit _ _) (honest_stop _ rfl)
      · exact honest_ite (honest_goto _ nofun) (honest_stop _ rfl)
  | numeral phase n =>
      show (stepNumeral _ phase n b).Honest
      unfold stepNumeral
      split
      · exact honest_goto _ nofun
      · exact honest_stepIdle _ b
      · exact honest_stop _ rfl
  | text t =>
      exact honest_ite (honest_emit _ _) (honest_ite (honest_goto _ nofun)
        (honest_ite (honest_stop _ rfl) (honest_goto _ nofun)))
  | escape t =>
      refine honest_ite (honest_goto _ nofun) ?_
      cases shortEscape? b with
      | none => exact honest_stop _ rfl
      | some c => exact honest_goto _ nofun
  | codeUnit t digits =>
      refine honest_ite (honest_goto _ nofun) ?_
      cases hexValue? (b :: digits) with
      | none => exact honest_stop _ rfl
      | some n => exact honest_goto _ nofun
  | stopped => exact h

theorem honest_feed {l : Lexer} (h : l.Honest) (bytes : List UInt8) : (l.feed bytes).Honest := by
  induction bytes generalizing l with
  | nil => exact h
  | cons b rest ih => exact ih (honest_step h b)

end Lexer

/-- If no token breaks off, then only the last one may go on behind the text. -/
theorem lexes_tokens {bytes : List UInt8} (h : ∀ t ∈ tokens bytes, t.isBroken = false) :
    Lexes bytes (tokens bytes) := by
  have hhonest : (Lexer.start.feed bytes).Honest :=
    Lexer.honest_feed (l := .start) nofun bytes
  unfold Lexes
  unfold tokens at h ⊢
  generalize Lexer.start.feed bytes = l at hhonest h ⊢
  obtain ⟨state, reversed⟩ := l
  have hbroken {t : Token} (hlast : Lexer.lastToken? state = some t) (ht : t.isBroken = true) :
      Settled ⟨state, reversed⟩ (Lexer.finish ⟨state, reversed⟩) := by
    have hmem : t ∈ Lexer.finish ⟨state, reversed⟩ := by simp [Lexer.finish, hlast]
    rw [h t hmem] at ht
    cases ht
  cases state with
  | idle =>
      have hsettled := Settled.idle reversed.reverse
      rwa [List.reverse_reverse] at hsettled
  | numeral phase n =>
      cases hphase : phase.isComplete with
      | true =>
          have hsettled := Settled.numeral n reversed.reverse hphase
          rw [List.reverse_reverse] at hsettled
          simpa [Lexer.finish, Lexer.lastToken?, hphase] using hsettled
      | false => exact hbroken (by rw [Lexer.lastToken?, hphase]; rfl) rfl
  | word missing token => exact hbroken rfl rfl
  | text t => exact hbroken rfl rfl
  | escape t => exact hbroken rfl rfl
  | codeUnit t digits => exact hbroken rfl rfl
  | stopped =>
      obtain ⟨t, ht, hbroken⟩ := hhonest rfl
      have hmem : t ∈ Lexer.finish ⟨.stopped, reversed⟩ := by
        simpa [Lexer.finish, Lexer.lastToken?] using ht
      rw [h t hmem] at hbroken
      cases hbroken

end StridedSlice.Json
