import StridedSlice.Json.Tree
import StridedSlice.Proofs.Embedding
import StridedSlice.Proofs.Grammar
import StridedSlice.Proofs.Literal
import StridedSlice.Proofs.Scaling
/-!
# StridedSlice.Proofs.Union

**Scalars in JSON texts**, as the two decoders find them: one tries the kinds of a scalar in turn,
the other asks the number that was read for its kind (`scalar_decoders_agree`).

The argument goes from the text to the scalar in three steps.

* A text is read as a truth value or a number if it has only this token (`document_eq_atom_iff`).
  After an opening bracket nothing but a container can come out (`Builder.inside_step`).
* A numeral is read as a word or as a number of 64 bits, and what it denotes is the scalar of that
  (`Numeral.denotes_iff`).
* The first alternative that takes a tree is the kind of its number
  (`Tree.firstAlternative?_eq`), and a tree is the same scalar as its value, because no number in
  it is infinite (`Tree.scalar?_value`).

The decoder of scalars that the other decoders use evaluates numbers while it reads. It fails on
the same texts for the same reasons (`decodeUnion_eq`), which is an induction on the node.
-/

namespace StridedSlice.Json

/-! ### Documents of one token -/

/-- An array or an object, complete or not. -/
def Node.IsContainer : Node → Prop
  | .array _ | .object _ => True
  | _ => False

namespace Builder

theorem isContainer_wrap (b : Break) {v : Node} (hv : v.IsContainer) (frames : List Frame) :
    (wrap b v frames).IsContainer := by
  induction frames generalizing v with
  | nil => exact hv
  | cons frame frames ih =>
      cases frame with
      | array before => exact ih (v := .array _) trivial
      | object before name => exact ih (v := .object _) trivial

/-- The builder is inside a container, or has built one. -/
def Inside : Builder → Prop
  | .value frames => frames ≠ []
  | .done root _ => root.IsContainer
  | _ => True

theorem isContainer_breakOff {builder : Builder} (h : builder.Inside) (b : Break) :
    (builder.breakOff b).IsContainer := by
  cases builder with
  | value frames =>
      cases frames with
      | nil => exact absurd rfl h
      | cons frame frames =>
          cases frame with
          | array before => exact isContainer_wrap b (v := .array _) trivial frames
          | object before name => exact isContainer_wrap b (v := .object _) trivial frames
  | firstItem frames => exact isContainer_wrap b (v := .array _) trivial frames
  | afterItem items frames => exact isContainer_wrap b (v := .array _) trivial frames
  | firstKey frames => exact isContainer_wrap b (v := .object _) trivial frames
  | key members frames => exact isContainer_wrap b (v := .object _) trivial frames
  | colon members name frames => exact isContainer_wrap b (v := .object _) trivial frames
  | afterMember members frames => exact isContainer_wrap b (v := .object _) trivial frames
  | done root trailing => exact h

theorem inside_refuse (builder : Builder) (h : builder.Inside) (b : Break) :
    (refuse builder b).Inside := isContainer_breakOff h b

theorem inside_place_cons (v : Node) (frame : Frame) (frames : List Frame) :
    (place v (frame :: frames)).Inside := by
  cases frame <;> trivial

theorem inside_place {v : Node} (hv : v.IsContainer) (frames : List Frame) :
    (place v frames).Inside := by
  cases frames with
  | nil => exact hv
  | cons frame frames => exact inside_place_cons v frame frames

theorem inside_stepValue (frame : Frame) (frames : List Frame) (t : Token) :
    (stepValue (frame :: frames) t).Inside := by
  cases t with
  | null | bool | number | text => exact inside_place_cons _ frame frames
  | openArray | openObject => trivial
  | _ => exact inside_refuse (.value (frame :: frames)) (List.cons_ne_nil frame frames) _

theorem inside_stepKey (members : List (Key × Node)) (frames : List Frame) (t : Token) :
    (stepKey members frames t).Inside := by
  cases t with
  | text s => trivial
  | _ => exact inside_refuse (.key members frames) trivial _

theorem inside_step {builder : Builder} (h : builder.Inside) (t : Token) :
    (builder.step t).Inside := by
  cases builder with
  | value frames =>
      cases frames with
      | nil => exact absurd rfl h
      | cons frame frames => exact inside_stepValue frame frames t
  | firstItem frames =>
      have hvalue := inside_stepValue (.array []) frames t
      cases t with
      | closeArray => exact inside_place (v := .array _) trivial frames
      | _ => exact hvalue
  | afterItem items frames =>
      cases t with
      | comma => exact List.cons_ne_nil _ frames
      | closeArray => exact inside_place (v := .array _) trivial frames
      | _ => exact inside_refuse _ h _
  | firstKey frames =>
      have hkey := inside_stepKey [] frames t
      cases t with
      | closeObject => exact inside_place (v := .object _) trivial frames
      | _ => exact hkey
  | key members frames => exact inside_stepKey members frames t
  | colon members name frames =>
      cases t with
      | colon => exact List.cons_ne_nil _ frames
      | _ => exact inside_refuse _ h _
  | afterMember members frames =>
      cases t with
      | comma => trivial
      | closeObject => exact inside_place (v := .object _) trivial frames
      | _ => exact inside_refuse _ h _
  | done root trailing => exact h

theorem inside_feed {builder : Builder} (h : builder.Inside) (ts : List Token) :
    (builder.feed ts).Inside := by
  induction ts generalizing builder with
  | nil => exact h
  | cons t rest ih => exact ih (inside_step h t)

/-- A text that begins with an opening bracket is read as a container. -/
theorem isContainer_finish {builder : Builder} (h : builder.Inside) (ts : List Token) :
    (builder.feed ts).finish.root.IsContainer := by
  have hfeed := inside_feed h ts
  generalize builder.feed ts = builder at hfeed
  cases builder with
  | done root trailing => exact hfeed
  | _ => exact isContainer_breakOff hfeed .truncated

end Builder

/-- A token that is a truth value or a number, and its node. -/
inductive Token.IsAtom : Token → Node → Prop
  | bool (b : Bool) : IsAtom (.bool b) (.bool b)
  | number (n : Numeral) : IsAtom (.number n) (.number n)

/-- A text is read as a truth value or a number if it has only this token. -/
theorem document_eq_atom_iff {t : Token} {v : Node} (h : t.IsAtom v) {bytes : List UInt8} :
    Document.ofBytes bytes = ⟨v, false⟩ ↔ tokens bytes = [t] := by
  constructor
  · intro hdoc
    unfold Document.ofBytes at hdoc
    cases hts : tokens bytes with
    | nil =>
        rw [hts] at hdoc
        cases h <;> cases hdoc
    | cons t' rest =>
        rw [hts] at hdoc
        change ((Builder.stepValue [] t').feed rest).finish = ⟨v, false⟩ at hdoc
        have hinside (hstep : (Builder.stepValue [] t').Inside) : False := by
          have hcontainer := Builder.isContainer_finish hstep rest
          rw [hdoc] at hcontainer
          cases h <;> exact hcontainer
        have hdone {root : Node} (hstep : Builder.stepValue [] t' = .done root false) :
            root = v ∧ rest = [] := by
          rw [hstep, Builder.feed_done] at hdoc
          simpa [Builder.finish] using hdoc
        -- Only a bracket lets the builder go on; any other token is the document or breaks it.
        cases t' with
        | openArray | openObject => exact (hinside trivial).elim
        | bool b | number n =>
            obtain ⟨hv, rfl⟩ := hdone rfl
            cases h <;> cases hv
            rfl
        | _ =>
            obtain ⟨hv, -⟩ := hdone rfl
            cases h <;> cases hv
  · intro hts
    rw [Document.ofBytes, hts]
    cases h <;> rfl

/-! ### Numbers -/

section

variable {float? : Numeral → Option (Binary binary64)}

/-- A numeral is written as an integer that fits a word of 64 bits. The negative zero is none. -/
def Numeral.IsWord (n : Numeral) : Prop :=
  n.integral ∧ ¬(n.negative ∧ n.digits = 0) ∧ -2 ^ 63 ≤ n.signed ∧ n.signed < 2 ^ 64

/-- The scalar that a numeral stands for: the signed word if it fits one, else the unsigned word,
and what it is rounded to if it fits none. -/
inductive Numeral.Denotes (float? : Numeral → Option (Binary binary64)) (n : Numeral) :
    Scalar → Prop
  | int (w : Int64) : n.IsWord → n.signed = w.toInt → Denotes float? n (.int w)
  | uint (w : UInt64) : n.IsWord → 2 ^ 63 ≤ n.signed → n.signed = w.toNat →
      Denotes float? n (.uint w)
  | float (x : Binary binary64) : ¬ n.IsWord → float? n = some x → Denotes float? n (.float x)

/-- The sign in front of an unsigned word. -/
theorem toInt_neg_toInt64 {d : Nat} (hd : d < 2 ^ 64) :
    (-(UInt64.ofNat d).toInt64).toInt =
      if d ≤ 2 ^ 63 then -(d : Int) else 2 ^ 64 - (d : Int) := by
  have hword : (UInt64.ofNat d).toInt64.toInt = if d < 2 ^ 63 then (d : Int) else d - 2 ^ 64 := by
    rw [← Int64.toInt_toBitVec]
    simp [BitVec.toInt]
    split <;> omega
  rw [Int64.toInt_neg, hword, Int.bmod]
  split_ifs <;> omega

/-- What a numeral is read as. -/
inductive Numeral.ReadAs (float? : Numeral → Option (Binary binary64)) (n : Numeral) :
    Option Number → Prop
  | natural (w : UInt64) : n.IsWord → ¬ n.negative → n.signed = w.toNat →
      ReadAs float? n (some (.natural w))
  | negative (w : Int64) : n.IsWord → n.negative → n.signed = w.toInt →
      ReadAs float? n (some (.negative w))
  | float : ¬ n.IsWord → ReadAs float? n ((float? n).map .float)

theorem Numeral.readAs_number? (float? : Numeral → Option (Binary binary64)) (n : Numeral) :
    n.ReadAs float? (n.number? float?) := by
  have hsize : UInt64.size = 2 ^ 64 := rfl
  by_cases hdigits : n.integral ∧ n.digits < UInt64.size
  · rw [number?, if_pos hdigits]
    obtain ⟨hintegral, hdigits⟩ := hdigits
    dsimp only
    split_ifs with hnegative hbelow
    · have hsigned : n.signed = -(n.digits : Int) := if_pos hnegative
      rw [Int64.lt_iff_toInt_lt, toInt_neg_toInt64 hdigits, Int64.toInt_zero] at hbelow
      have hle : n.digits ≤ 2 ^ 63 := by
        by_contra hgt
        rw [if_neg hgt] at hbelow
        omega
      rw [if_pos hle] at hbelow
      refine .negative _ ⟨hintegral, fun h => ?_, ?_, ?_⟩ hnegative ?_
      · omega
      · omega
      · omega
      · rw [toInt_neg_toInt64 hdigits, if_pos hle, hsigned]
    · -- The sign makes a positive word of what is too large, and zero of zero.
      refine .float fun hword => hbelow ?_
      obtain ⟨-, hzero, hlow, -⟩ := hword
      have hsigned : n.signed = -(n.digits : Int) := if_pos hnegative
      have hpos : n.digits ≠ 0 := fun h => hzero ⟨hnegative, h⟩
      rw [Int64.lt_iff_toInt_lt, toInt_neg_toInt64 hdigits, Int64.toInt_zero, if_pos (by omega)]
      omega
    · have hsigned : n.signed = n.digits := if_neg hnegative
      refine .natural _ ⟨hintegral, fun h => hnegative h.1, ?_, ?_⟩ hnegative ?_
      · omega
      · omega
      · rw [UInt64.toNat_ofNat_of_lt' hdigits, hsigned]
  · rw [number?, if_neg hdigits]
    refine .float fun hword => hdigits ⟨hword.1, ?_⟩
    obtain ⟨-, -, hlow, hhigh⟩ := hword
    rw [signed] at hlow hhigh
    split_ifs at hlow hhigh <;> omega

theorem Number.scalar_natural (w : UInt64) :
    (Number.natural w).scalar = if w.toNat < 2 ^ 63 then .int w.toInt64 else .uint w := by
  have hsigned : (natural w).signed? = if w.toNat < 2 ^ 63 then some w.toInt64 else none := rfl
  rw [scalar, hsigned]
  split_ifs <;> rfl

theorem toInt_toInt64 {w : UInt64} (hw : w.toNat < 2 ^ 63) : w.toInt64.toInt = w.toNat := by
  rw [← Int64.toInt_toBitVec, UInt64.toBitVec_toInt64, BitVec.toInt_eq_toNat_of_lt]
  · rfl
  · show 2 * w.toNat < 2 ^ 64
    omega

/-- What a numeral stands for is the scalar of the number that it is read as. -/
theorem Numeral.denotes_iff {n : Numeral} {s : Scalar} :
    n.Denotes float? s ↔ ∃ m, n.number? float? = some m ∧ m.scalar = s := by
  have hread := n.readAs_number? float?
  generalize n.number? float? = m at hread
  cases hread with
  | natural w hword hnegative hsigned =>
      simp only [Option.some.injEq, exists_eq_left', Number.scalar_natural]
      constructor
      · rintro (⟨v, -, hv⟩ | ⟨v, -, hlow, hv⟩ | ⟨x, hx, -⟩)
        · have hlt : w.toNat < 2 ^ 63 := by
            have hhigh := v.toInt_lt
            omega
          rw [if_pos hlt, Scalar.int.injEq, ← Int64.toInt_inj, toInt_toInt64 hlt, ← hv, hsigned]
        · rw [if_neg (by omega), Scalar.uint.injEq, ← UInt64.toNat_inj]
          omega
        · exact absurd hword hx
      · rintro rfl
        split_ifs with hlt
        · exact .int _ hword (hsigned.trans (toInt_toInt64 hlt).symm)
        · exact .uint _ hword (by omega) hsigned
  | negative w hword hnegative hsigned =>
      simp only [Option.some.injEq, exists_eq_left']
      constructor
      · rintro (⟨v, -, hv⟩ | ⟨v, -, hlow, -⟩ | ⟨x, hx, -⟩)
        · obtain rfl := Int64.toInt_inj.mp (hsigned.symm.trans hv)
          rfl
        · rw [signed, if_pos hnegative] at hlow
          omega
        · exact absurd hword hx
      · rintro rfl
        exact .int w hword hsigned
  | float hout =>
      simp only [Option.map_eq_some_iff]
      constructor
      · rintro (⟨v, hword, -⟩ | ⟨v, hword, -, -⟩ | ⟨x, -, hx⟩)
        · exact absurd hword hout
        · exact absurd hword hout
        · exact ⟨_, ⟨x, hx, rfl⟩, rfl⟩
      · rintro ⟨-, ⟨x, hx, rfl⟩, rfl⟩
        exact .float x hout hx

/-! ### Trees of numbers and truth values -/

/-- The first alternative that takes a tree makes the scalar that it is. -/
theorem Tree.firstAlternative?_eq (t : Tree) : t.firstAlternative? = t.scalar? := by
  cases t with
  | number n =>
      cases n with
      | natural w =>
          have hint : int? (.number (.natural w)) =
              if w.toNat < 2 ^ 63 then some (.int w.toInt64) else none := rfl
          simp only [firstAlternative?, alternatives, List.findSome?_cons, hint, scalar?,
            Number.scalar_natural]
          split_ifs <;> rfl
      | negative w => rfl
      | float x => rfl
  | _ => rfl

theorem Tree.scalar?_eq_some_iff {t : Tree} {s : Scalar} :
    t.scalar? = some s ↔
      (∃ b, t = .bool b ∧ .bool b = s) ∨ ∃ m, t = .number m ∧ m.scalar = s := by
  cases t <;> simp [scalar?]

/-- A value is the same scalar as its tree, unless that is an infinite number. -/
theorem Tree.scalar?_value {t : Tree} (h : ∀ x, t = .number (.float x) → x.IsFinite) :
    t.value.scalar? = t.scalar? := by
  cases t with
  | number n =>
      cases n with
      | natural w => rfl
      | negative w => rfl
      | float x => rw [value, if_pos (h x rfl)]
  | _ => rfl

theorem Node.tree_eq_bool_iff {v : Node} {depth : Nat} {b : Bool} :
    v.tree float? depth = .ok (.bool b) ↔ v = .bool b := by
  cases v with
  | number n => cases hn : n.number? float? <;> simp [tree, hn]
  | text s => cases s <;> simp [tree, Except.map]
  | array items => cases depth <;> simp [tree, map_ok]
  | object members => cases depth <;> simp [tree, map_ok]
  | _ => simp [tree]

theorem Node.tree_eq_number_iff {v : Node} {depth : Nat} {m : Number} :
    v.tree float? depth = .ok (.number m) ↔ ∃ n, v = .number n ∧ n.number? float? = some m := by
  cases v with
  | number n => cases hn : n.number? float? <;> simp [tree, hn]
  | text s => cases s <;> simp [tree, Except.map]
  | array items => cases depth <;> simp [tree, map_ok]
  | object members => cases depth <;> simp [tree, map_ok]
  | _ => simp [tree]

theorem Node.isFinite_of_tree (hfloat : ∀ n x, float? n = some x → x.IsFinite) {v : Node}
    {depth : Nat} {x : Binary binary64} (h : v.tree float? depth = .ok (.number (.float x))) :
    x.IsFinite := by
  obtain ⟨n, -, hn⟩ := tree_eq_number_iff.mp h
  have hread := n.readAs_number? float?
  rw [hn] at hread
  generalize hm : some (Number.float x) = m at hread
  cases hread with
  | natural => cases hm
  | negative => cases hm
  | float hout =>
      obtain ⟨y, hy, hxy⟩ := Option.map_eq_some_iff.mp hm.symm
      cases hxy
      exact hfloat n x hy

/-! ### Decoders -/

theorem decode_eq_ok_iff_document {α : Type} {read : Node → Decoded α} {bytes : List UInt8}
    {a : α} :
    decode read bytes = .ok a ↔ ∃ v, Document.ofBytes bytes = ⟨v, false⟩ ∧ read v = .ok a := by
  simp only [decode, bind_eq_ok]
  obtain ⟨root, trailing⟩ := Document.ofBytes bytes
  cases trailing <;> simp

theorem decodeTree_eq_ok_iff {bytes : List UInt8} {t' : Tree} :
    decodeTree float? bytes = .ok t' ↔
      ∃ v t, Document.ofBytes bytes = ⟨v, false⟩ ∧ v.tree float? maxDepth = .ok t ∧
        t.value = t' := by
  simp [decodeTree, decode_eq_ok_iff_document, map_ok, orFault_eq_ok]

theorem decodeUnion_eq_ok_iff {bytes : List UInt8} {s : Scalar} :
    decodeUnion float? bytes = .ok s ↔
      ∃ v t, Document.ofBytes bytes = ⟨v, false⟩ ∧ v.tree float? maxDepth = .ok t ∧
        t.scalar? = some s := by
  simp only [decodeUnion, decode_eq_ok_iff_document, bind_eq_ok, orFault_eq_ok,
    Tree.firstAlternative?_eq]
  constructor
  · rintro ⟨v, hdoc, t, htree, hs⟩
    refine ⟨v, t, hdoc, htree, ?_⟩
    cases hscalar : t.scalar? with
    | none => simp [hscalar, refuse] at hs
    | some s' => simpa [hscalar] using hs
  · rintro ⟨v, t, hdoc, htree, hs⟩
    exact ⟨v, hdoc, t, htree, by rw [hs]⟩

/-- The texts of scalars: the two words, and numbers. -/
inductive Spells (float? : Numeral → Option (Binary binary64)) : List UInt8 → Scalar → Prop
  | bool (b : Bool) : Spells float? (wordBytes b) (.bool b)
  | number (l : Literal) {s : Scalar} : l.numeral.Denotes float? s → Spells float? l.bytes s

theorem decodeUnion_eq_ok_iff_spells {bytes : List UInt8} {s : Scalar} :
    decodeUnion float? bytes = .ok s ↔
      ∃ body, Surrounds bytes body ∧ Spells float? body s := by
  rw [decodeUnion_eq_ok_iff]
  constructor
  · rintro ⟨v, t, hdoc, htree, hs⟩
    rcases Tree.scalar?_eq_some_iff.mp hs with ⟨b, rfl, rfl⟩ | ⟨m, rfl, hm⟩
    · obtain rfl := Node.tree_eq_bool_iff.mp htree
      have htokens := (document_eq_atom_iff (.bool b)).mp hdoc
      exact ⟨_, tokens_eq_bool_iff.mp htokens, .bool b⟩
    · obtain ⟨n, rfl, hn⟩ := Node.tree_eq_number_iff.mp htree
      have htokens := (document_eq_atom_iff (.number n)).mp hdoc
      obtain ⟨l, rfl, hbytes⟩ := tokens_eq_number_iff.mp htokens
      exact ⟨_, hbytes, .number l (Numeral.denotes_iff.mpr ⟨m, hn, hm⟩)⟩
  · rintro ⟨body, hbytes, ⟨b⟩ | ⟨l, hs⟩⟩
    · have htokens := tokens_eq_bool_iff.mpr hbytes
      exact ⟨_, _, (document_eq_atom_iff (.bool b)).mpr htokens, rfl, rfl⟩
    · obtain ⟨m, hm, rfl⟩ := Numeral.denotes_iff.mp hs
      have htokens := tokens_eq_number_iff.mpr ⟨l, rfl, hbytes⟩
      exact ⟨_, .number m, (document_eq_atom_iff (.number l.numeral)).mpr htokens,
        Node.tree_eq_number_iff.mpr ⟨_, rfl, hm⟩, rfl⟩

end

/-! ### Reading with the table of powers -/

theorem Numeral.isFinite_toBinary64? {n : Numeral} {x : Binary binary64}
    (h : n.toBinary64? = some x) : x.IsFinite := by
  obtain ⟨y, hread, rfl⟩ := Option.map_eq_some_iff.mp h
  exact Binary.isFinite_ofMagnitude n.negative
    (Binary.isFinite_of_ofParts? n.parts_fst_lt hread)

theorem Numeral.scalar?_eq (n : Numeral) :
    n.scalar? = (n.number? (·.toBinary64?)).map Number.scalar := by
  have hpow : Nat.pow 2 63 = 2 ^ 63 := rfl
  have hsize : UInt64.size = 2 ^ 64 := rfl
  have hread := n.readAs_number? (·.toBinary64?)
  generalize n.number? (·.toBinary64?) = m at hread
  rw [scalar?, hpow, hsize]
  cases hread with
  | natural w hword hnegative hsigned =>
      obtain ⟨hintegral, -, -, -⟩ := hword
      rw [signed, if_neg hnegative] at hsigned
      have hdigits : n.digits = w.toNat := by omega
      have hlt := w.toNat_lt
      rw [Option.map_some, Number.scalar_natural, hdigits]
      by_cases hw : w.toNat < 2 ^ 63
      · rw [if_pos ⟨hintegral, hnegative, hw⟩, if_pos hw]
        have heq : Int64.ofNat w.toNat = w.toInt64 := by
          rw [← Int64.toInt_inj, toInt_toInt64 hw, Int64.toInt_ofNat_of_lt hw]
        rw [heq]
      · rw [if_neg (fun h => hw h.2.2), if_neg (fun h => hnegative h.2.1),
          if_pos ⟨hintegral, hnegative, hlt⟩, if_neg hw, UInt64.ofNat_toNat]
  | negative w hword hnegative hsigned =>
      obtain ⟨hintegral, hzero, hlow, -⟩ := hword
      have hpos : n.digits ≠ 0 := fun h => hzero ⟨hnegative, h⟩
      rw [signed, if_pos hnegative] at hsigned hlow
      rw [if_neg (fun h => h.2.1 hnegative),
        if_pos ⟨hintegral, hnegative, by omega, by omega⟩, hsigned, Int64.ofInt_toInt]
      rfl
  | float hout =>
      have hlarge (hintegral : n.integral) (hnegative : ¬ n.negative) : 2 ^ 64 ≤ n.digits := by
        by_contra hlt
        have hsigned : n.signed = n.digits := if_neg hnegative
        exact hout ⟨hintegral, fun h => hnegative h.1, by omega, by omega⟩
      rw [if_neg, if_neg, if_neg]
      · cases n.toBinary64? <;> rfl
      · rintro ⟨hintegral, hnegative, hdigits⟩
        exact absurd (hlarge hintegral hnegative) (Nat.not_le.mpr hdigits)
      · rintro ⟨hintegral, hnegative, hpos, hdigits⟩
        have hsigned : n.signed = -(n.digits : Int) := if_pos hnegative
        exact hout ⟨hintegral, fun h => hpos.ne' h.2, by omega, by omega⟩
      · rintro ⟨hintegral, hnegative, hdigits⟩
        have hle := hlarge hintegral hnegative
        omega

/-! ### Contents and trees -/

theorem map_map {α β γ ε : Type} (x : Except ε α) (f : α → β) (g : β → γ) :
    (x.map f).map g = x.map (g ∘ f) := by
  cases x <;> rfl

/-- Two results that look the same are errors for the same reason, or both are values. -/
theorem map_eq_map {α β γ ε : Type} {x : Except ε α} {y : Except ε β} {f : α → γ} {g : β → γ}
    (h : x.map f = y.map g) :
    (∃ e, x = .error e ∧ y = .error e) ∨ ∃ a b, x = .ok a ∧ y = .ok b ∧ f a = g b := by
  cases x <;> cases y
  · exact .inl ⟨_, rfl, congrArg _ (Except.error.inj h).symm⟩
  · cases h
  · cases h
  · exact .inr ⟨_, _, rfl, rfl, Except.ok.inj h⟩

mutual

/-- The contents of a node and its tree are the same scalar, or are missing for the same reason. -/
theorem Node.scalar?_content (depth : Nat) : ∀ v : Node,
    (v.content depth).map Content.scalar? = (v.tree (·.toBinary64?) depth).map Tree.scalar?
  | .null | .bool _ | .broken _ => rfl
  | .text s => by cases s <;> rfl
  | .number n => by
      rw [Node.content, Node.tree, n.scalar?_eq]
      cases n.number? (·.toBinary64?) <;> rfl
  | .array items => by
      cases depth with
      | zero => rfl
      | succ depth =>
          rw [Node.content, Node.tree, map_map, map_map]
          exact Items.scalar?_contents depth items [] []
  | .object members => by
      cases depth with
      | zero => rfl
      | succ depth =>
          rw [Node.content, Node.tree, map_map, map_map]
          exact Members.scalar?_contents depth members [] []

theorem Items.scalar?_contents (depth : Nat) :
    ∀ (items : Items) (cs : List Content) (ts : List Tree),
      (items.contents depth cs).map (fun _ => (none : Option Scalar)) =
        (items.trees (·.toBinary64?) depth ts).map (fun _ => none)
  | .closed, _, _ => rfl
  | .broken _, _, _ => rfl
  | .cons item rest, cs, ts => by
      rw [Items.contents, Items.trees]
      rcases map_eq_map (Node.scalar?_content depth item) with ⟨e, hc, ht⟩ | ⟨c, t, hc, ht, -⟩
      · rw [hc, ht]
        rfl
      · rw [hc, ht]
        exact Items.scalar?_contents depth rest _ _

theorem Members.scalar?_contents (depth : Nat) :
    ∀ (members : Members) (cs : List (String × Content)) (ts : List (String × Tree)),
      (members.contents depth cs).map (fun _ => (none : Option Scalar)) =
        (members.trees (·.toBinary64?) depth ts).map (fun _ => none)
  | .closed, _, _ => rfl
  | .broken _, _, _ => rfl
  | .cons (.error _) _ _, _, _ => rfl
  | .cons (.ok name) value rest, cs, ts => by
      rw [Members.contents, Members.trees]
      rcases map_eq_map (Node.scalar?_content depth value) with ⟨e, hc, ht⟩ | ⟨c, t, hc, ht, -⟩
      · rw [hc, ht]
        rfl
      · rw [hc, ht]
        exact Members.scalar?_contents depth rest _ _

end

/-- The decoder of scalars decodes the union of their kinds, with numbers rounded to the
nearest. -/
theorem decodeUnion_eq (bytes : List UInt8) :
    decodeUnion (·.toBinary64?) bytes = decodeScalar bytes := by
  refine congrArg (decode · bytes) (funext fun v => ?_)
  simp only [Node.scalar, Node.whole, Tree.firstAlternative?_eq]
  rcases map_eq_map (Node.scalar?_content maxDepth v) with ⟨e, hc, ht⟩ | ⟨c, t, hc, ht, heq⟩
  · rw [hc, ht]
    rfl
  · rw [hc, ht]
    cases hs : t.scalar? <;> simp [orFault, Except.mapError, Except.bind, heq, hs]

/-! ### Two decoders of scalars -/

theorem exists_error_iff {α : Type} {x : Decoded α} : (∃ e, x = .error e) ↔ ∀ a, x ≠ .ok a := by
  cases x <;> simp

theorem decodeUnion_eq_ok_iff_tree {float? : Numeral → Option (Binary binary64)}
    (hfloat : ∀ n x, float? n = some x → x.IsFinite) {bytes : List UInt8} {s : Scalar} :
    decodeUnion float? bytes = .ok s ↔
      ∃ t, decodeTree float? bytes = .ok t ∧ t.scalar? = some s := by
  simp only [decodeUnion_eq_ok_iff, decodeTree_eq_ok_iff]
  constructor
  · rintro ⟨v, t, hdoc, htree, hs⟩
    refine ⟨t.value, ⟨v, t, hdoc, htree, rfl⟩, ?_⟩
    rw [Tree.scalar?_value fun x hx => Node.isFinite_of_tree hfloat (hx ▸ htree), hs]
  · rintro ⟨-, ⟨v, t, hdoc, htree, rfl⟩, hs⟩
    rw [Tree.scalar?_value fun x hx => Node.isFinite_of_tree hfloat (hx ▸ htree)] at hs
    exact ⟨v, t, hdoc, htree, hs⟩

/-- **The two decoders of scalars agree** on every text, however numbers are rounded, as long as
none becomes infinite. The union is decoded as a scalar if the text is a value that is this scalar,
and it fails on all other texts. The texts of a scalar are one truth value or one number, between
blanks; the decoder of scalars that other decoders use is the one that rounds to the nearest. -/
theorem scalar_decoders_agree (float? : Numeral → Option (Binary binary64))
    (hfloat : ∀ n x, float? n = some x → x.IsFinite) (bytes : List UInt8) :
    (∀ s, decodeUnion float? bytes = .ok s ↔
        ∃ t, decodeTree float? bytes = .ok t ∧ t.scalar? = some s) ∧
      ((∃ e, decodeUnion float? bytes = .error e) ↔
        (∃ e, decodeTree float? bytes = .error e) ∨
          ∃ t, decodeTree float? bytes = .ok t ∧ t.scalar? = none) ∧
      (∀ s, decodeUnion float? bytes = .ok s ↔
        ∃ body, Surrounds bytes body ∧ Spells float? body s) ∧
      decodeUnion (·.toBinary64?) bytes = decodeScalar bytes := by
  refine ⟨fun s => decodeUnion_eq_ok_iff_tree hfloat, ?_,
    fun s => decodeUnion_eq_ok_iff_spells, decodeUnion_eq bytes⟩
  simp only [exists_error_iff, ne_eq, decodeUnion_eq_ok_iff_tree hfloat]
  cases decodeTree float? bytes with
  | error e => simp
  | ok t => cases hs : t.scalar? <;> simp [hs]

/-- The negative zero is no word in either decoder. -/
theorem scalar_decoders_agree_negative_zero :
    (∀ n x, Numeral.toBinary64? n = some x → x.IsFinite) ∧
      decodeUnion Numeral.toBinary64? [0x2d, 0x30, 0x0a] =
        .ok (.float ⟨0x8000000000000000#64⟩) ∧
      ∃ t, decodeTree Numeral.toBinary64? [0x2d, 0x30, 0x0a] = .ok t ∧
        t.scalar? = some (.float ⟨0x8000000000000000#64⟩) := by
  have hfloat : ∀ n x, Numeral.toBinary64? n = some x → x.IsFinite :=
    fun n x => Numeral.isFinite_toBinary64?
  obtain ⟨htree, -, htext, -⟩ :=
    scalar_decoders_agree Numeral.toBinary64? hfloat [0x2d, 0x30, 0x0a]
  have hsurrounds : Surrounds [0x2d, 0x30, 0x0a] (Literal.bytes ⟨true, .zero, none, none⟩) :=
    ⟨[], [0x0a], nofun, by simp [Blanks, IsBlank], rfl⟩
  have hzero : decodeUnion Numeral.toBinary64? [0x2d, 0x30, 0x0a] =
      .ok (.float ⟨0x8000000000000000#64⟩) :=
    (htext _).mpr ⟨_, hsurrounds, .number _ (.float _ (fun h => h.2.1 ⟨rfl, rfl⟩) rfl)⟩
  exact ⟨hfloat, hzero, (htree _).mp hzero⟩

end StridedSlice.Json
