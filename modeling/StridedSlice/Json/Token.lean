import StridedSlice.Element
import StridedSlice.Decimal
import StridedSlice.Text.Utf8
/-!
# StridedSlice.Json.Token

The **tokens** of a JSON text, and the lexer that finds them. The lexer is a machine
that is fed one byte at a time, so it reads the bytes `a ++ b` by reading `a` and going
on with `b`.

A text may be wrong in two ways: it is *malformed*, or it is *truncated* and could still
be completed. How much is wrong depends on the reader. A *strict* reader wants the value
of each token; a *lenient* one passes over a value that nobody asked for, and takes no
offence at string contents that stand for no text. The lexer serves both: a complete
string comes with its text or the reason why it has none, and a token that breaks off
comes with what each reader says about it. After a token that breaks off there are no
others.

Numbers are kept as they are written. What they are worth, and whether they are in range
at all, is for `Numeral.scalar?` to say.
-/

namespace StridedSlice.Json

/-- Why a text cannot be read on. -/
inductive Fault
  | malformed
  | truncated
  deriving Repr, DecidableEq

/-- A place where a text breaks off, as the two kinds of reader see it. -/
structure Break where
  strict : Fault
  lenient : Fault
  deriving Repr, DecidableEq

namespace Break

/-- A place that no reader can get over. -/
def malformed : Break := ⟨.malformed, .malformed⟩

/-- The end of the text, where something is missing. -/
def truncated : Break := ⟨.truncated, .truncated⟩

end Break

/-! ## Numbers -/

/-- A number as it is written. -/
structure Numeral where
  /-- Whether it has a minus sign. -/
  negative : Bool
  /-- The digits before and after the point, read as one number. -/
  digits : Nat
  /-- How many of the digits stand after the point. -/
  places : Nat
  /-- Whether it has neither a point nor an exponent. -/
  integral : Bool
  /-- Whether the exponent has a minus sign. -/
  exponentNegative : Bool
  /-- The exponent without its sign. -/
  exponent : Nat
  deriving Repr, DecidableEq

namespace Numeral

/-- The numeral `0`, or `-0`. -/
def zero (negative : Bool) : Numeral := ⟨negative, 0, 0, true, false, 0⟩

/-- Appends a digit before the point. -/
def pushWhole (n : Numeral) (digit : Nat) : Numeral := { n with digits := 10 * n.digits + digit }

/-- Appends a digit after the point. -/
def pushPlace (n : Numeral) (digit : Nat) : Numeral :=
  { n with digits := 10 * n.digits + digit, places := n.places + 1 }

/-- Appends a digit to the exponent. -/
def pushExponent (n : Numeral) (digit : Nat) : Numeral :=
  { n with exponent := 10 * n.exponent + digit }

/-- The power of ten that the digits are scaled by. -/
def scale (n : Numeral) : Int :=
  (if n.exponentNegative then -(n.exponent : Int) else n.exponent) - n.places

/-- Appends the last `n` digits of `digits` to a significand, beginning with the first of
them, as long as the significand fits into 64 bits. With it comes the number of digits that
are left out. -/
def appendDigits (digits : Nat) : (n : Nat) → (significand : Nat) → Nat × Nat
  | 0, significand => (significand, 0)
  | n + 1, significand =>
      let next := 10 * significand + digits / Nat.pow 10 n % 10
      if next < UInt64.size then appendDigits digits n next else (significand, n + 1)

/-- The significand of 64 bits and the power of ten that it is scaled by. The significand
takes the digits before the point as long as they fit, and then those after it as long as
they fit. -/
def parts (n : Numeral) : Nat × Int :=
  let whole := n.digits / Nat.pow 10 n.places
  let before := appendDigits whole (Nat.toDigits 10 whole).length 0
  let after := appendDigits n.digits n.places before.1
  (after.1, n.scale + before.2 + after.2)

/-- The number of 64 bits that a numeral is read as; none if it is out of range. -/
def toBinary64? (n : Numeral) : Option (Binary binary64) :=
  (Binary.ofParts? n.parts.1 n.parts.2).map fun x =>
    .ofMagnitude binary64 n.negative x.magnitude

/-- What a numeral is worth. An integer is signed if it fits, else unsigned if it fits;
every other numeral, and the negative zero, is a floating point number. There is no
value beyond the range of those. -/
def scalar? (n : Numeral) : Option Scalar :=
  if n.integral ∧ ¬n.negative ∧ n.digits < Nat.pow 2 63 then
    some (.int (Int64.ofNat n.digits))
  else if n.integral ∧ n.negative ∧ 0 < n.digits ∧ n.digits ≤ Nat.pow 2 63 then
    some (.int (Int64.ofInt (-(n.digits : Int))))
  else if n.integral ∧ ¬n.negative ∧ n.digits < UInt64.size then
    some (.uint (UInt64.ofNat n.digits))
  else
    n.toBinary64?.map .float

end Numeral

/-- How far a numeral has been read. -/
inductive NumeralPhase
  /-- After the minus sign. -/
  | sign
  /-- After a leading zero, which no digit may follow. -/
  | zero
  /-- After digits before the point. -/
  | whole
  /-- After the point. -/
  | point
  /-- After digits behind the point. -/
  | fraction
  /-- After the mark of the exponent. -/
  | mark
  /-- After the sign of the exponent. -/
  | markSign
  /-- After digits of the exponent. -/
  | exponent
  deriving Repr, DecidableEq

/-- What a byte does to a numeral. -/
inductive NumeralStep
  /-- It belongs to the numeral. -/
  | more (phase : NumeralPhase) (n : Numeral)
  /-- The numeral ended before it. -/
  | ended
  /-- The numeral has to go on, and not like this. -/
  | wrong
  deriving Repr, DecidableEq

/-- The value of a decimal digit. -/
def digit? (b : UInt8) : Option Nat :=
  if 0x30 ≤ b ∧ b ≤ 0x39 then some (b.toNat - 0x30) else none

/-- Whether the byte marks an exponent. -/
def isExponentMark (b : UInt8) : Bool := b == 0x65 || b == 0x45

namespace NumeralPhase

/-- Whether the numeral may end here. -/
def isComplete : NumeralPhase → Bool
  | .zero | .whole | .fraction | .exponent => true
  | .sign | .point | .mark | .markSign => false

/-- After the whole digits: a point, an exponent, or the end. -/
def afterWhole (n : Numeral) (b : UInt8) : NumeralStep :=
  if b == 0x2e then .more .point { n with integral := false }
  else if isExponentMark b then .more .mark { n with integral := false }
  else .ended

/-- The effect of a byte. -/
def step (phase : NumeralPhase) (n : Numeral) (b : UInt8) : NumeralStep :=
  match phase, digit? b with
  | .sign, some 0 => .more .zero n
  | .sign, some d => .more .whole (n.pushWhole d)
  | .sign, none => .wrong
  | .zero, some _ => .wrong
  | .zero, none => afterWhole n b
  | .whole, some d => .more .whole (n.pushWhole d)
  | .whole, none => afterWhole n b
  | .point, some d => .more .fraction (n.pushPlace d)
  | .point, none => .wrong
  | .fraction, some d => .more .fraction (n.pushPlace d)
  | .fraction, none => if isExponentMark b then .more .mark n else .ended
  | .mark, some d => .more .exponent (n.pushExponent d)
  | .mark, none =>
      if b == 0x2b then .more .markSign n
      else if b == 0x2d then .more .markSign { n with exponentNegative := true }
      else .wrong
  | .markSign, some d => .more .exponent (n.pushExponent d)
  | .markSign, none => .wrong
  | .exponent, some d => .more .exponent (n.pushExponent d)
  | .exponent, none => .ended

end NumeralPhase

/-! ## Strings -/

/-- The contents of a string while it is read. -/
structure TextContents where
  /-- The bytes so far, the last one first. -/
  reversed : List UInt8
  /-- The first half of a surrogate pair, when the second half has to follow. -/
  pending : Option Nat
  /-- Whether the contents can no longer become a text. -/
  failed : Bool
  deriving Repr, DecidableEq

namespace TextContents

/-- Before the first byte. -/
def empty : TextContents := ⟨[], none, false⟩

/-- Appends a byte, which must not come between the halves of a pair. -/
def pushByte (t : TextContents) (b : UInt8) : TextContents :=
  match t.pending with
  | none => { t with reversed := b :: t.reversed }
  | some _ => { t with pending := none, failed := true }

/-- Appends the bytes of a code point. -/
def pushCodePoint (t : TextContents) (n : Nat) : TextContents :=
  { t with
    reversed := (String.utf8EncodeChar (Char.ofNat n)).reverse ++ t.reversed
    pending := none }

/-- Appends a 16-bit unit that was written with four hexadecimal digits. Units from
`D800` on are halves of pairs: the first half waits for the second, which cannot stand
alone. -/
def pushUnit (t : TextContents) (n : Nat) : TextContents :=
  let isFirst := 0xd800 ≤ n ∧ n ≤ 0xdbff
  let isSecond := 0xdc00 ≤ n ∧ n ≤ 0xdfff
  match t.pending with
  | some first =>
      if isSecond then t.pushCodePoint (0x10000 + (first - 0xd800) * 0x400 + (n - 0xdc00))
      else { t with pending := none, failed := true }
  | none =>
      if isFirst then { t with pending := some n }
      else if isSecond then { t with failed := true }
      else t.pushCodePoint n

/-- The text at the closing quote. -/
def close (t : TextContents) : Except Fault String :=
  if t.failed ∨ t.pending.isSome then .error .malformed
  else
    match Text.ofBytes? t.reversed.reverse with
    | none => .error .malformed
    | some s => .ok s

/-- What the readers say when the text ends inside the string. -/
def truncated (t : TextContents) : Break :=
  ⟨if t.failed then .malformed else .truncated, .truncated⟩

end TextContents

/-- The byte that a short escape stands for. -/
def shortEscape? (b : UInt8) : Option UInt8 :=
  if b == 0x22 || b == 0x5c || b == 0x2f then some b
  else if b == 0x62 then some 0x08
  else if b == 0x66 then some 0x0c
  else if b == 0x6e then some 0x0a
  else if b == 0x72 then some 0x0d
  else if b == 0x74 then some 0x09
  else none

/-- The value of a hexadecimal digit. -/
def hexDigit? (b : UInt8) : Option Nat :=
  if 0x30 ≤ b ∧ b ≤ 0x39 then some (b.toNat - 0x30)
  else if 0x61 ≤ b ∧ b ≤ 0x66 then some (b.toNat - 0x61 + 10)
  else if 0x41 ≤ b ∧ b ≤ 0x46 then some (b.toNat - 0x41 + 10)
  else none

/-- The value of hexadecimal digits, the last one first. -/
def hexValue? : List UInt8 → Option Nat
  | [] => some 0
  | b :: rest =>
      match hexDigit? b, hexValue? rest with
      | some d, some n => some (16 * n + d)
      | _, _ => none

/-! ## Tokens -/

/-- A token. -/
inductive Token
  | openArray
  | closeArray
  | openObject
  | closeObject
  | comma
  | colon
  | null
  | bool (b : Bool)
  | number (n : Numeral)
  /-- A complete string, with its text unless it stands for none. -/
  | text (s : Except Fault String)
  /-- A string that breaks off. -/
  | brokenText (b : Break)
  /-- Anything else that breaks off, or that is no token at all. -/
  | broken (b : Break)

/-- What the lexer is in the middle of. -/
inductive LexerState
  /-- Between tokens. -/
  | idle
  /-- Inside a word; these bytes are still missing. -/
  | word (missing : List UInt8) (token : Token)
  /-- Inside a number. -/
  | numeral (phase : NumeralPhase) (n : Numeral)
  /-- Inside a string. -/
  | text (t : TextContents)
  /-- After a backslash in a string. -/
  | escape (t : TextContents)
  /-- Inside a unit of a string, after these digits, the last one first. -/
  | codeUnit (t : TextContents) (digits : List UInt8)
  /-- After a token that breaks off. -/
  | stopped

/-- The lexer: its state, and the tokens so far, the last one first. -/
structure Lexer where
  state : LexerState
  reversed : List Token

namespace Lexer

/-- Before the first byte. -/
def start : Lexer := ⟨.idle, []⟩

/-- Adds a token and goes on between tokens. -/
def emit (l : Lexer) (t : Token) : Lexer := ⟨.idle, t :: l.reversed⟩

/-- Adds a token that breaks off. -/
def stop (l : Lexer) (t : Token) : Lexer := ⟨.stopped, t :: l.reversed⟩

/-- Goes on in another state. -/
def goto (l : Lexer) (s : LexerState) : Lexer := { l with state := s }

/-- Reads a byte between tokens. -/
def stepIdle (l : Lexer) (b : UInt8) : Lexer :=
  if b == 0x20 || b == 0x09 || b == 0x0a || b == 0x0d then l.goto .idle
  else if b == 0x5b then l.emit .openArray
  else if b == 0x5d then l.emit .closeArray
  else if b == 0x7b then l.emit .openObject
  else if b == 0x7d then l.emit .closeObject
  else if b == 0x2c then l.emit .comma
  else if b == 0x3a then l.emit .colon
  else if b == 0x22 then l.goto (.text .empty)
  else if b == 0x2d then l.goto (.numeral .sign (.zero true))
  else if b == 0x30 then l.goto (.numeral .zero (.zero false))
  else if b == 0x6e then l.goto (.word [0x75, 0x6c, 0x6c] .null)
  else if b == 0x74 then l.goto (.word [0x72, 0x75, 0x65] (.bool true))
  else if b == 0x66 then l.goto (.word [0x61, 0x6c, 0x73, 0x65] (.bool false))
  else
    match digit? b with
    | some d => l.goto (.numeral .whole ((Numeral.zero false).pushWhole d))
    | none => l.stop (.broken .malformed)

/-- Reads a byte inside a word. -/
def stepWord (l : Lexer) (missing : List UInt8) (token : Token) (b : UInt8) : Lexer :=
  match missing with
  | [] => l.emit token
  | [expected] => if b == expected then l.emit token else l.stop (.broken .malformed)
  | expected :: rest =>
      if b == expected then l.goto (.word rest token) else l.stop (.broken .malformed)

/-- Reads a byte inside a number. A byte that ends the number is read again. -/
def stepNumeral (l : Lexer) (phase : NumeralPhase) (n : Numeral) (b : UInt8) : Lexer :=
  match phase.step n b with
  | .more phase n => l.goto (.numeral phase n)
  | .ended => (l.emit (.number n)).stepIdle b
  | .wrong => l.stop (.broken .malformed)

/-- Reads a byte inside a string. -/
def stepText (l : Lexer) (t : TextContents) (b : UInt8) : Lexer :=
  if b == 0x22 then l.emit (.text t.close)
  else if b == 0x5c then l.goto (.escape t)
  else if b < 0x20 then l.stop (.brokenText .malformed)
  else l.goto (.text (t.pushByte b))

/-- Reads the byte after a backslash. -/
def stepEscape (l : Lexer) (t : TextContents) (b : UInt8) : Lexer :=
  if b == 0x75 then l.goto (.codeUnit t [])
  else
    match shortEscape? b with
    | some c => l.goto (.text (t.pushByte c))
    | none => l.stop (.brokenText .malformed)

/-- Reads a byte where a hexadecimal digit should stand. The digits are looked at when
there are four of them. -/
def stepCodeUnit (l : Lexer) (t : TextContents) (digits : List UInt8) (b : UInt8) : Lexer :=
  if digits.length < 3 then l.goto (.codeUnit t (b :: digits))
  else
    match hexValue? (b :: digits) with
    | some n => l.goto (.text (t.pushUnit n))
    | none => l.stop (.brokenText .malformed)

/-- Reads a byte. -/
def step (l : Lexer) (b : UInt8) : Lexer :=
  match l.state with
  | .idle => l.stepIdle b
  | .word missing token => l.stepWord missing token b
  | .numeral phase n => l.stepNumeral phase n b
  | .text t => l.stepText t b
  | .escape t => l.stepEscape t b
  | .codeUnit t digits => l.stepCodeUnit t digits b
  | .stopped => l

/-- The last token at the end of the text, if one is still being read. -/
def lastToken? (s : LexerState) : Option Token :=
  match s with
  | .idle => none
  | .word _ _ => some (.broken .truncated)
  | .numeral phase n =>
      if phase.isComplete then some (.number n)
      else some (.broken ⟨.truncated, .malformed⟩)
  | .text t => some (.brokenText t.truncated)
  | .escape t => some (.brokenText t.truncated)
  | .codeUnit t _ => some (.brokenText t.truncated)
  | .stopped => none

/-- All tokens at the end of the text. -/
def finish (l : Lexer) : List Token :=
  match lastToken? l.state with
  | none => l.reversed.reverse
  | some t => (t :: l.reversed).reverse

/-- Reads bytes, from any state. -/
def feed (l : Lexer) (bytes : List UInt8) : Lexer := bytes.foldl step l

theorem feed_append (l : Lexer) (a b : List UInt8) : l.feed (a ++ b) = (l.feed a).feed b := by
  simp [feed, List.foldl_append]

end Lexer

/-- The tokens of a text. -/
def tokens (bytes : List UInt8) : List Token := (Lexer.start.feed bytes).finish

end StridedSlice.Json
