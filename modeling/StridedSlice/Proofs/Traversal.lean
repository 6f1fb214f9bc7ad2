import StridedSlice.Proofs.Checked
import StridedSlice.Proofs.Representation
import Mathlib.Data.List.Forall2
import Mathlib.Data.List.Perm.Subperm
/-!
# StridedSlice.Proofs.Traversal

**Traversals are queues.** A traversal of the selected positions can be asked for positions
at both ends, in any order, and for the number of positions left. It answers like a queue
with two ends that holds the positions still to come, and so do any number of traversals
that are made and copied along the way.

* `Cursor.ask` is a traversal as it runs, with the arithmetic that may fail; `Queue.ask` is
  the queue;
* `Selection.cursorFrom` and `Selection.positionsFrom` are the two states after the same
  positions have been taken; `ask_simulates` is the step from one pair of states to the next;
* `run_simulates` and `perform_simulates` carry that step to whole runs, and from one
  traversal to many.
-/

namespace StridedSlice

namespace Traversal

/-- What a traversal can be asked. -/
inductive Request
  | next
  | nextBack
  | skipNext (n : Nat)
  | skipNextBack (n : Nat)
  | length
  | sizeHint

inductive Reply
  | position (p : Option Nat)
  | length (n : Nat)
  | bounds (b : Nat × Option Nat)

/-- The reply of a traversal with nothing left. -/
def Request.drained : Request → Reply
  | .next | .nextBack | .skipNext _ | .skipNextBack _ => .position none
  | .length => .length 0
  | .sizeHint => .bounds (0, some 0)

/-- The positions among replies. -/
def taken (replies : List Reply) : List Nat :=
  replies.filterMap fun
    | .position p => p
    | .length _ | .bounds _ => none

/-- Something to do with one of several traversals, which are numbered as they are made. -/
inductive Call
  /-- Makes a fresh traversal. -/
  | select
  /-- Makes a copy of a traversal, in its present state. -/
  | clone (i : Nat)
  | ask (i : Nat) (request : Request)

section Run

variable {σ τ ρ β : Type}

/-- Makes requests one after the other, each in the state that the one before has left. -/
def run (answer : σ → ρ → Except Stop (β × σ)) : σ → List ρ → Except Stop (List β × σ)
  | s, [] => .ok ([], s)
  | s, r :: rest => do
      let (reply, s) ← answer s r
      let (replies, s) ← run answer s rest
      return (reply :: replies, s)

/-- Carries out a call on the traversals there are. Only requests are replied to. -/
def perform (ask : σ → Request → Except Stop (Reply × σ)) (fresh : σ) (pool : List σ) :
    Call → Except Stop (Option Reply × List σ)
  | .select => .ok (none, pool ++ [fresh])
  | .clone i => .ok (none, pool ++ pool[i]?.toList)
  | .ask i request =>
      match pool[i]? with
      | none => .ok (none, pool)
      | some s => do
          let (reply, s) ← ask s request
          return (some reply, pool.set i s)

/-- Related states give the same reply without a fault, and related states again. -/
def Simulates (R : σ → τ → Prop) (f : σ → ρ → Except Stop (β × σ))
    (g : τ → ρ → Except Stop (β × τ)) : Prop :=
  ∀ s t r, R s t → ∃ reply s' t', f s r = .ok (reply, s') ∧ g t r = .ok (reply, t') ∧ R s' t'

/-- A run goes on from the state that its first request has left. -/
theorem run_cons {answer : σ → ρ → Except Stop (β × σ)} {s s' s'' : σ} {r : ρ} {rest : List ρ}
    {reply : β} {replies : List β} (h : answer s r = .ok (reply, s'))
    (hrest : run answer s' rest = .ok (replies, s'')) :
    run answer s (r :: rest) = .ok (reply :: replies, s'') := by
  rw [run, h, Checked.ok_bind]
  dsimp only
  rw [hrest]
  rfl

variable {R : σ → τ → Prop}

theorem run_simulates {f : σ → ρ → Except Stop (β × σ)} {g : τ → ρ → Except Stop (β × τ)}
    (h : Simulates R f g) : Simulates R (run f) (run g) := by
  intro s t requests hR
  induction requests generalizing s t with
  | nil => exact ⟨[], s, t, rfl, rfl, hR⟩
  | cons r rest ih =>
      obtain ⟨reply, s', t', hf, hg, hR'⟩ := h s t r hR
      obtain ⟨replies, s'', t'', hf', hg', hR''⟩ := ih s' t' hR'
      exact ⟨reply :: replies, s'', t'', run_cons hf hf', run_cons hg hg', hR''⟩

/-- Traversals at the same place are related. -/
theorem forall₂_getElem? {pool : List σ} {pool' : List τ} (h : List.Forall₂ R pool pool')
    (i : Nat) :
    (pool[i]? = none ∧ pool'[i]? = none) ∨
      ∃ s t, pool[i]? = some s ∧ pool'[i]? = some t ∧ R s t := by
  induction h generalizing i with
  | nil => exact Or.inl ⟨rfl, rfl⟩
  | cons hR _ ih =>
      cases i with
      | zero => exact Or.inr ⟨_, _, rfl, rfl, hR⟩
      | succ i => exact ih i

theorem forall₂_set {pool : List σ} {pool' : List τ} (h : List.Forall₂ R pool pool') (i : Nat)
    {s : σ} {t : τ} (hR : R s t) : List.Forall₂ R (pool.set i s) (pool'.set i t) := by
  induction h generalizing i with
  | nil => exact .nil
  | cons hhead htail ih =>
      cases i with
      | zero => exact .cons hR htail
      | succ i => exact .cons hhead (ih i)

/-- Whatever is done to one traversal, the others stay related. -/
theorem perform_simulates {f : σ → Request → Except Stop (Reply × σ)}
    {g : τ → Request → Except Stop (Reply × τ)} (h : Simulates R f g) {s₀ : σ} {t₀ : τ}
    (hfresh : R s₀ t₀) : Simulates (List.Forall₂ R) (perform f s₀) (perform g t₀) := by
  intro pool pool' call hpool
  cases call with
  | select =>
      exact ⟨none, _, _, rfl, rfl, List.rel_append hpool (.cons hfresh .nil)⟩
  | clone i =>
      refine ⟨none, _, _, rfl, rfl, List.rel_append hpool ?_⟩
      rcases forall₂_getElem? hpool i with ⟨hs, ht⟩ | ⟨s, t, hs, ht, hR⟩
      · rw [hs, ht]
        exact .nil
      · rw [hs, ht]
        exact .cons hR .nil
  | ask i request =>
      rcases forall₂_getElem? hpool i with ⟨hs, ht⟩ | ⟨s, t, hs, ht, hR⟩
      · refine ⟨none, pool, pool', ?_, ?_, hpool⟩
        · simp only [perform, hs]
        · simp only [perform, ht]
      · obtain ⟨reply, s', t', hf, hg, hR'⟩ := h s t request hR
        refine ⟨some reply, pool.set i s', pool'.set i t', ?_, ?_, forall₂_set hpool i hR'⟩
        · simp only [perform, hs, hf]
          rfl
        · simp only [perform, ht, hg]
          rfl

end Run

/-! ### Queues -/

/-- A queue with two ends answers for the positions that it holds. -/
def Queue.ask (q : List Nat) : Request → Except Stop (Reply × List Nat)
  | .next => .ok (.position q.head?, q.tail)
  | .nextBack => .ok (.position q.getLast?, q.dropLast)
  | .skipNext n => .ok (.position (q.drop n).head?, (q.drop n).tail)
  | .skipNextBack n =>
      .ok (.position (q.take (q.length - n)).getLast?, (q.take (q.length - n)).dropLast)
  | .length => .ok (.length q.length, q)
  | .sizeHint => .ok (.bounds (q.length, some q.length), q)

namespace Queue

theorem exists_ask (q : List Nat) (request : Request) :
    ∃ reply rest, ask q request = .ok (reply, rest) := by
  cases request <;> exact ⟨_, _, rfl⟩

/-- An empty queue stays empty. -/
theorem ask_nil (request : Request) : ask [] request = .ok (request.drained, []) := by
  cases request with
  | next | nextBack | length | sizeHint => rfl
  | skipNext n => simp [ask, Request.drained]
  | skipNextBack n => simp [ask, Request.drained]

theorem run_nil (requests : List Request) :
    run ask [] requests = .ok (requests.map Request.drained, []) := by
  induction requests with
  | nil => rfl
  | cons r rest ih => exact run_cons (ask_nil r) ih

theorem head?_append_tail {α : Type} (q : List α) : q.head?.toList ++ q.tail = q := by
  cases q <;> rfl

theorem dropLast_append_getLast? {α : Type} (q : List α) :
    q.dropLast ++ q.getLast?.toList = q := by
  rcases List.eq_nil_or_concat q with rfl | ⟨front, p, rfl⟩
  · rfl
  · simp

theorem getLast?_append_dropLast_perm (q : List Nat) :
    (q.getLast?.toList ++ q.dropLast).Perm q :=
  List.perm_append_comm.trans (.of_eq (dropLast_append_getLast? q))

theorem taken_position (p : Option Nat) : taken [.position p] = p.toList := by
  cases p <;> rfl

/-- What one request takes and leaves is part of what there was. -/
theorem subperm_ask {q q' : List Nat} {request : Request} {reply : Reply}
    (h : ask q request = .ok (reply, q')) : (taken [reply] ++ q').Subperm q := by
  cases request with
  | next =>
      cases h
      rw [taken_position, head?_append_tail]
  | nextBack =>
      cases h
      rw [taken_position]
      exact (getLast?_append_dropLast_perm q).subperm
  | skipNext n =>
      cases h
      rw [taken_position, head?_append_tail]
      exact (List.drop_sublist n q).subperm
  | skipNextBack n =>
      cases h
      rw [taken_position]
      exact (getLast?_append_dropLast_perm _).subperm.trans (List.take_sublist _ q).subperm
  | length => cases h; exact .refl _
  | sizeHint => cases h; exact .refl _

/-- What requests take and leave is part of what there was, so nothing comes out twice. -/
theorem subperm_run {q q' : List Nat} {requests : List Request} {replies : List Reply}
    (h : run ask q requests = .ok (replies, q')) : (taken replies ++ q').Subperm q := by
  induction requests generalizing q replies with
  | nil => cases h; exact .refl _
  | cons r rest ih =>
      obtain ⟨reply, q₁, hask⟩ := exists_ask q r
      rw [run, hask, Checked.ok_bind] at h
      dsimp only at h
      cases hrest : run ask q₁ rest with
      | error stop => rw [hrest] at h; cases h
      | ok result =>
          obtain ⟨later, q₂⟩ := result
          rw [hrest] at h
          cases h
          have hsplit : taken (reply :: later) = taken [reply] ++ taken later :=
            List.filterMap_append (l := [reply])
          rw [hsplit, List.append_assoc]
          exact ((List.subperm_append_left _).mpr (ih hrest)).trans (subperm_ask hask)

end Queue

end Traversal

/-! ### Traversals as they run -/

/-- A traversal answers, or fails where its arithmetic does. -/
def Cursor.ask (c : Cursor) : Traversal.Request → Except Stop (Traversal.Reply × Cursor)
  | .next => .ok (.position c.next.1, c.next.2)
  | .nextBack => (Checked.nextBack c).map fun r => (.position r.1, r.2)
  | .skipNext n => .ok (.position (c.skipNext n).1, (c.skipNext n).2)
  | .skipNextBack n => (Checked.skipNextBack c n).map fun r => (.position r.1, r.2)
  | .length => (Checked.length c).map fun n => (.length n, c)
  | .sizeHint => .ok (.bounds c.sizeHint, c)

namespace Selection

/-- The cursor that has passed `done` positions at the front and has `left` to go. -/
def cursorFrom (n : Selection) (done left : Nat) : Cursor :=
  ⟨Int64.ofInt (n.term done), n.step, left⟩

/-- The positions that such a cursor has before it. -/
def positionsFrom (n : Selection) (done left : Nat) : List Nat :=
  (List.range' done left).map fun i => (n.term i).toNat

variable (n : Selection)

theorem cursorFrom_zero : n.cursorFrom 0 n.count = n.cursor := by
  have hterm : n.term 0 = n.start.toInt := by simp [term]
  rw [cursorFrom, hterm, Int64.ofInt_toInt]
  rfl

theorem term_add (i j : Nat) : n.term (i + j) = n.term i + j * n.step.toInt := by
  unfold term
  push_cast
  ring

/-- Moving the front by some steps reaches the term behind them, up to the wrap of a word. -/
theorem ofInt_term_add (i j : Nat) :
    Int64.ofInt (n.term i) + Int64.ofNat j * n.step = Int64.ofInt (n.term (i + j)) := by
  rw [term_add, Int64.ofInt_add, Int64.ofInt_mul, Int64.ofInt_toInt, Int64.ofInt_eq_ofNat]

@[simp] theorem positionsFrom_zero (done : Nat) : n.positionsFrom done 0 = [] := rfl

@[simp] theorem length_positionsFrom (done left : Nat) :
    (n.positionsFrom done left).length = left := by
  simp [positionsFrom]

theorem positionsFrom_succ (done left : Nat) :
    n.positionsFrom done (left + 1) =
      (n.term done).toNat :: n.positionsFrom (done + 1) left := by
  rw [positionsFrom, List.range'_succ, List.map_cons]
  rfl

theorem positionsFrom_concat (done left : Nat) :
    n.positionsFrom done (left + 1) =
      n.positionsFrom done left ++ [(n.term (done + left)).toNat] := by
  rw [positionsFrom, List.range'_1_concat, List.map_append]
  rfl

theorem drop_positionsFrom (done left k : Nat) :
    (n.positionsFrom done left).drop k = n.positionsFrom (done + k) (left - k) := by
  rw [positionsFrom, ← List.map_drop, List.drop_range', Nat.mul_one]
  rfl

theorem skipNext_of_le {done left k : Nat} (hk : left ≤ k) :
    (n.cursorFrom done left).skipNext k = (none, n.cursorFrom done 0) := by
  have hremaining : (n.cursorFrom done left).remaining ≤ k := hk
  rw [Cursor.skipNext, if_pos hremaining]
  rfl

theorem skipNextBack_of_le {done left k : Nat} (hk : left ≤ k) :
    (n.cursorFrom done left).skipNextBack k = (none, n.cursorFrom done 0) := by
  have hremaining : (n.cursorFrom done left).remaining ≤ k := hk
  rw [Cursor.skipNextBack, if_pos hremaining]
  rfl

theorem skipNextBack_add (done left k : Nat) :
    (n.cursorFrom done (left + 1 + k)).skipNextBack k =
      (n.cursorFrom done (left + 1)).nextBack := by
  have hremaining : ¬ (n.cursorFrom done (left + 1 + k)).remaining ≤ k := by
    simp [cursorFrom]
  rw [Cursor.skipNextBack, if_neg hremaining]
  simp [cursorFrom]

theorem take_positionsFrom (done left k : Nat) :
    (n.positionsFrom done (left + k)).take left = n.positionsFrom done left := by
  rw [positionsFrom, ← List.map_take, ← List.range'_append_1,
    List.take_left' List.length_range']
  rfl

/-- A traversal and a queue after the same positions have been taken. -/
def Follows (c : Cursor) (q : List Nat) : Prop :=
  ∃ done left, done + left ≤ n.count ∧ c = n.cursorFrom done left ∧ q = n.positionsFrom done left

theorem follows_cursor : n.Follows n.cursor (n.positionsFrom 0 n.count) :=
  ⟨0, n.count, by omega, n.cursorFrom_zero.symm, rfl⟩

/-- A traversal with nothing left follows the empty queue only. -/
theorem Follows.eq_nil {c : Cursor} {q : List Nat} (h : n.Follows c q) (hc : c.remaining = 0) :
    q = [] := by
  obtain ⟨done, left, -, rfl, rfl⟩ := h
  have hleft : left = 0 := hc
  rw [hleft, positionsFrom_zero]

end Selection

namespace Selection.Resolved

variable {n : Selection} {len : Nat} (h : n.Resolved len) {done left : Nat}
include h

/-- The front of a cursor is exact as long as something is left. -/
theorem toInt_ofInt_term {i : Nat} (hi : i < n.count) :
    (Int64.ofInt (n.term i)).toInt = n.term i :=
  toInt_ofInt_of_fits (h.fits_term hi)

theorem positionOf_ofInt_term {i : Nat} (hi : i < n.count) :
    positionOf (Int64.ofInt (n.term i)) = (n.term i).toNat := by
  have hword := h.toInt_ofInt_term hi
  have hnonneg := h.term_nonneg hi
  rw [positionOf_of_nonneg (by rwa [hword]), hword]

/-! ### One request -/

theorem next_cursorFrom (hleft : done + (left + 1) ≤ n.count) :
    (n.cursorFrom done (left + 1)).next =
      (some (n.term done).toNat, n.cursorFrom (done + 1) left) := by
  have hfront : Int64.ofInt (n.term done) + n.step = Int64.ofInt (n.term (done + 1)) := by
    simpa using n.ofInt_term_add done 1
  rw [cursorFrom, Cursor.next]
  dsimp only
  rw [h.positionOf_ofInt_term (by omega), hfront]
  rfl

theorem skipNext_of_lt {k : Nat} (hk : k < left) (hleft : done + left ≤ n.count) :
    (n.cursorFrom done left).skipNext k =
      (some (n.term (done + k)).toNat, n.cursorFrom (done + k + 1) (left - k - 1)) := by
  rw [cursorFrom, Cursor.skipNext, if_neg (by simpa using hk), n.ofInt_term_add]
  obtain ⟨rest, hrest⟩ : ∃ rest, left - k = rest + 1 := ⟨left - k - 1, by omega⟩
  simp only [hrest, Nat.add_sub_cancel]
  exact h.next_cursorFrom (by omega)

theorem nextBack_cursorFrom (hleft : done + (left + 1) ≤ n.count) :
    (n.cursorFrom done (left + 1)).nextBack =
      (some (n.term (done + left)).toNat, n.cursorFrom done left) := by
  rw [cursorFrom, Cursor.nextBack]
  dsimp only
  rw [n.ofInt_term_add, h.positionOf_ofInt_term (by omega)]
  rfl

/-- The distance from one term to a later one is a word, because both are positions. -/
theorem fits_distance {k : Nat} (hk : done + k < n.count) :
    FitsWord ((Int64.ofNat k).toInt * n.step.toInt) := by
  have hlen := h.len_le
  have hcount := h.count_le
  have hword : (Int64.ofNat k).toInt = k := toInt_ofNat_of_le_maxLength (by omega)
  have hterm := n.term_add done k
  have hfirst := h.term_nonneg (i := done) (by omega)
  have hfirst' := h.term_lt (i := done) (by omega)
  have hlast := h.term_nonneg hk
  have hlast' := h.term_lt hk
  rw [hword]
  unfold maxLength at hlen
  unfold FitsWord
  omega

theorem checked_distance {k : Nat} (hk : done + k < n.count) :
    Checked.mul (Int64.ofNat k) n.step = .ok (Int64.ofNat k * n.step) :=
  Checked.mul_eq (h.fits_distance hk)

/-- A later term is reached without overflow. -/
theorem checked_advance {k : Nat} (hk : done + k < n.count) :
    Checked.add (Int64.ofInt (n.term done)) (Int64.ofNat k * n.step) =
      .ok (Int64.ofInt (n.term (done + k))) := by
  have hlen := h.len_le
  have hcount := h.count_le
  have hword : (Int64.ofNat k).toInt = k := toInt_ofNat_of_le_maxLength (by omega)
  have hfront := h.toInt_ofInt_term (i := done) (by omega)
  have hdistance := toInt_mul_of_fits (h.fits_distance hk)
  have hsum :
      FitsWord ((Int64.ofInt (n.term done)).toInt + (Int64.ofNat k * n.step).toInt) := by
    rw [hfront, hdistance, hword, ← n.term_add]
    exact h.fits_term hk
  rw [Checked.add_eq hsum, n.ofInt_term_add]

/-- The back end is computed without overflow: it is a term that is still to come. -/
theorem checked_nextBack (hleft : done + left ≤ n.count) :
    Checked.nextBack (n.cursorFrom done left) = .ok (n.cursorFrom done left).nextBack := by
  cases left with
  | zero => rfl
  | succ left =>
      have hback : done + left < n.count := by omega
      rw [cursorFrom, Checked.nextBack, Cursor.nextBack]
      dsimp only
      rw [h.checked_distance hback, Checked.ok_bind, h.checked_advance hback, Checked.ok_bind,
        n.ofInt_term_add]
      rfl

/-- Dropping positions at the back one after the other is the same as dropping them at
once. -/
theorem checked_skipNextBack (hleft : done + left ≤ n.count) (k : Nat) :
    Checked.skipNextBack (n.cursorFrom done left) k =
      .ok ((n.cursorFrom done left).skipNextBack k) := by
  induction k generalizing left with
  | zero =>
      rw [Checked.skipNextBack, h.checked_nextBack hleft]
      cases left <;> rfl
  | succ k ih =>
      rw [Checked.skipNextBack, h.checked_nextBack hleft, Checked.ok_bind]
      cases left with
      | zero => rfl
      | succ left =>
          rw [h.nextBack_cursorFrom hleft]
          dsimp only
          rw [ih (by omega)]
          by_cases hk : left ≤ k
          · rw [n.skipNextBack_of_le hk, n.skipNextBack_of_le (Nat.succ_le_succ hk)]
          · obtain ⟨rest, rfl⟩ : ∃ rest, left = rest + 1 + k := ⟨left - k - 1, by omega⟩
            rw [Nat.add_assoc _ k 1, n.skipNextBack_add, n.skipNextBack_add]

/-- **One request**: the traversal answers as the queue does, and goes on to follow it. -/
theorem ask_simulates : Traversal.Simulates n.Follows Cursor.ask Traversal.Queue.ask := by
  rintro _ _ request ⟨done, left, hleft, rfl, rfl⟩
  cases request with
  | next =>
      cases left with
      | zero => exact ⟨_, _, _, rfl, rfl, done, 0, hleft, rfl, rfl⟩
      | succ left =>
          refine ⟨.position (some (n.term done).toNat), _, _, ?_, ?_,
            done + 1, left, by omega, rfl, rfl⟩
          · rw [Cursor.ask, h.next_cursorFrom hleft]
          · rw [Traversal.Queue.ask, n.positionsFrom_succ]
            rfl
  | nextBack =>
      cases left with
      | zero => exact ⟨_, _, _, rfl, rfl, done, 0, hleft, rfl, rfl⟩
      | succ left =>
          refine ⟨.position (some (n.term (done + left)).toNat), _, _, ?_, ?_,
            done, left, by omega, rfl, rfl⟩
          · rw [Cursor.ask, h.checked_nextBack hleft, h.nextBack_cursorFrom hleft]
            rfl
          · rw [Traversal.Queue.ask, n.positionsFrom_concat, List.getLast?_concat,
              List.dropLast_concat]
  | skipNext k =>
      rcases Nat.lt_or_ge k left with hk | hk
      · obtain ⟨rest, rfl⟩ : ∃ rest, left = k + (rest + 1) := ⟨left - k - 1, by omega⟩
        refine ⟨.position (some (n.term (done + k)).toNat), _, _, ?_, ?_,
          done + k + 1, rest, by omega, rfl, rfl⟩
        · rw [Cursor.ask, h.skipNext_of_lt hk hleft, Nat.add_sub_cancel_left,
            Nat.add_sub_cancel]
        · rw [Traversal.Queue.ask, n.drop_positionsFrom, Nat.add_sub_cancel_left,
            n.positionsFrom_succ]
          rfl
      · refine ⟨.position none, n.cursorFrom done 0, [], ?_, ?_,
          done, 0, by omega, rfl, rfl⟩
        · rw [Cursor.ask, n.skipNext_of_le hk]
        · rw [Traversal.Queue.ask, n.drop_positionsFrom, Nat.sub_eq_zero_of_le hk]
          rfl
  | skipNextBack k =>
      have hchecked := h.checked_skipNextBack hleft k
      rcases Nat.lt_or_ge k left with hk | hk
      · obtain ⟨rest, rfl⟩ : ∃ rest, left = rest + 1 + k := ⟨left - k - 1, by omega⟩
        refine ⟨.position (some (n.term (done + rest)).toNat), _, _, ?_, ?_,
          done, rest, by omega, rfl, rfl⟩
        · rw [Cursor.ask, hchecked, n.skipNextBack_add, h.nextBack_cursorFrom (by omega)]
          rfl
        · rw [Traversal.Queue.ask, n.length_positionsFrom, Nat.add_sub_cancel,
            n.take_positionsFrom, n.positionsFrom_concat, List.getLast?_concat,
            List.dropLast_concat]
      · refine ⟨.position none, n.cursorFrom done 0, [], ?_, ?_,
          done, 0, by omega, rfl, rfl⟩
        · rw [Cursor.ask, hchecked, n.skipNextBack_of_le hk]
          rfl
        · rw [Traversal.Queue.ask, n.length_positionsFrom, Nat.sub_eq_zero_of_le hk,
            List.take_zero]
          rfl
  | length =>
      refine ⟨.length left, _, _, ?_, ?_, done, left, hleft, rfl, rfl⟩
      · rw [Cursor.ask, Checked.length, Cursor.sizeHint]
        exact congrArg (Except.map _) (if_pos rfl)
      · rw [Traversal.Queue.ask, n.length_positionsFrom]
  | sizeHint =>
      refine ⟨.bounds (left, some left), _, _, rfl, ?_, done, left, hleft, rfl, rfl⟩
      rw [Traversal.Queue.ask, n.length_positionsFrom]

/-- The queue at the beginning holds the selected positions in order. -/
theorem map_some_positionsFrom :
    (n.positionsFrom 0 n.count).map some = (List.range n.count).map n.position? := by
  rw [positionsFrom, ← List.range_eq_range', List.map_map]
  refine List.map_congr_left fun i hi => ?_
  have hi' := List.mem_range.mp hi
  exact (h.position?_eq_some_iff.mpr ⟨hi', Int.toNat_of_nonneg (h.term_nonneg hi')⟩).symm

theorem positionsFrom_eq_toList_cursor : n.positionsFrom 0 n.count = n.cursor.toList := by
  rw [h.toList_cursor, positionsFrom, List.range_eq_range']

theorem nodup_positionsFrom : (n.positionsFrom 0 n.count).Nodup := by
  rw [h.positionsFrom_eq_toList_cursor]
  exact h.nodup_cursor

end Selection.Resolved

/-- Traversals of a selection behave as queues that hold `q` at the beginning. -/
structure Selection.TraversedAs (n : Selection) (q : List Nat) : Prop where
  positions : q.map some = (List.range n.count).map n.position?
  /-- No arithmetic fails, and all replies of any number of traversals are those of queues
  that know nothing of each other. -/
  many : ∀ calls, ∃ replies cursors queues,
    Traversal.run (Traversal.perform Cursor.ask n.cursor) [] calls = .ok (replies, cursors) ∧
      Traversal.run (Traversal.perform Traversal.Queue.ask q) [] calls = .ok (replies, queues)
  /-- One traversal yields selected positions, none of them twice, and when nothing is left
  it says so from then on. -/
  one : ∀ requests, ∃ replies c,
    Traversal.run Cursor.ask n.cursor requests = .ok (replies, c) ∧
      (Traversal.taken replies).Nodup ∧ (∀ p ∈ Traversal.taken replies, p ∈ q) ∧
      (c.remaining = 0 → ∀ later, ∃ c',
        Traversal.run Cursor.ask c later = .ok (later.map Traversal.Request.drained, c'))

/-- **Traversals are queues**, for every resolved slice, whatever traversals of its positions
are made and copied, and whatever they are asked in whatever order. -/
theorem Slice.traversed_as_queues {s : Slice} {len : Nat} {n : Selection}
    (h : s.resolve len = .ok n) : ∃ q, n.TraversedAs q := by
  have hresolved := Slice.resolved_of_resolve h
  have hask := hresolved.ask_simulates
  have hstart := n.follows_cursor
  refine ⟨n.positionsFrom 0 n.count, hresolved.map_some_positionsFrom, ?_, ?_⟩
  · intro calls
    obtain ⟨replies, cursors, queues, hc, hq, -⟩ :=
      Traversal.run_simulates (Traversal.perform_simulates hask hstart) [] [] calls .nil
    exact ⟨replies, cursors, queues, hc, hq⟩
  · intro requests
    obtain ⟨replies, c, rest, hc, hq, hfollows⟩ :=
      Traversal.run_simulates hask _ _ requests hstart
    obtain ⟨all, hperm, hsub⟩ := Traversal.Queue.subperm_run hq
    have hnodup := hperm.nodup_iff.mp (hsub.nodup hresolved.nodup_positionsFrom)
    refine ⟨replies, c, hc, (List.nodup_append.mp hnodup).1, ?_, ?_⟩
    · intro p hp
      exact hsub.subset (hperm.mem_iff.mpr (List.mem_append_left _ hp))
    · intro hdrained later
      obtain ⟨replies', c', rest', hc', hq', hend⟩ :=
        Traversal.run_simulates hask _ _ later hfollows
      rw [hfollows.eq_nil _ hdrained, Traversal.Queue.run_nil] at hq'
      cases hq'
      exact ⟨c', hc'⟩

/-- A step near the end of the words leads out of the sequence at once, and the traversals
go as for any other. -/
theorem Slice.traversed_as_queues_greatest_step :
    Slice.resolve ⟨some (-1), none, some (-Int64.maxValue)⟩ 10 =
        .ok ⟨9, -1, -Int64.maxValue, 1⟩ ∧
      ∃ q, (Selection.mk 9 (-1) (-Int64.maxValue) 1).TraversedAs q :=
  ⟨rfl, @Slice.traversed_as_queues ⟨some (-1), none, some (-Int64.maxValue)⟩ 10 _ rfl⟩

end StridedSlice
