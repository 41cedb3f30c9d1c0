import CheatScript.Proofs.Outcome
import CheatScript.Scope.Packing
import Mathlib.Algebra.Ring.Nat

/-!
# Proofs: open scopes and their lines

The number of scopes that are open after some pieces, and the lines that `weightFrom` counts for
them. All scopes of a list are closed exactly if none is open at its end. Splitting keeps the number
of open scopes, and no scope of what it gives has more than 255 lines.
-/

namespace CheatScript.Scope

/-! ## Open scopes -/

/-- The number of scopes that are open after some pieces, where `depth` are open before them. -/
def depthAfter : (depth : Nat) → List Piece → Nat
  | depth, [] => depth
  | depth, .test _ _ :: rest => depthAfter (depth + 1) rest
  | depth, .close :: rest => depthAfter (depth - 1) rest
  | depth, .output _ _ :: rest => depthAfter depth rest

theorem depthAfter_append (d : Nat) (l m : List Piece) :
    depthAfter d (l ++ m) = depthAfter (depthAfter d l) m := by
  induction l generalizing d with
  | nil => rfl
  | cons p l ih => cases p <;> simp only [List.cons_append, depthAfter, ih]

theorem depthAfter_replicate_close (d n : Nat) :
    depthAfter d (List.replicate n .close) = d - n := by
  induction n generalizing d with
  | zero => rfl
  | succ n ih =>
    rw [List.replicate_succ, depthAfter, ih]
    omega

theorem depthAfter_tests (d : Nat) (tests : List OpenTest) :
    depthAfter d (tests.map OpenTest.piece) = d + tests.length := by
  induction tests generalizing d with
  | nil => rfl
  | cons t tests ih =>
    rw [List.map_cons, OpenTest.piece, depthAfter, ih, List.length_cons]
    omega

theorem depthAfter_le (d : Nat) (l : List Piece) : depthAfter d l ≤ d + l.length := by
  induction l generalizing d with
  | nil => exact Nat.le_refl _
  | cons p l ih =>
    rw [List.length_cons]
    cases p with
    | test c k => exact Nat.le_trans (ih _) (by omega)
    | close => exact Nat.le_trans (ih _) (by omega)
    | output c f => exact Nat.le_trans (ih _) (by omega)

/-- Closing all open scopes and opening them again leaves as many open. -/
theorem depthAfter_reopen (tests : List OpenTest) (l : List Piece) :
    depthAfter tests.length (reopen tests ++ l) = depthAfter tests.length l := by
  rw [reopen, depthAfter_append, depthAfter_append, depthAfter_replicate_close, depthAfter_tests]
  simp

/-! ## Lines of a scope -/

@[simp]
theorem weightFrom_nil (d : Nat) : weightFrom d [] = none := by
  cases d <;> rfl

@[simp]
theorem weightFrom_close_succ (d : Nat) (l : List Piece) :
    weightFrom (d + 1) (.close :: l) = weightFrom d l := rfl

@[simp]
theorem weightFrom_test (d : Nat) (c : Command) (k : Condition) (l : List Piece) :
    weightFrom d (.test c k :: l) = (weightFrom (d + 1) l).map (· + 1) := by
  cases d <;> rfl

@[simp]
theorem weightFrom_output (d : Nat) (c : Command) (f : Fragment) (l : List Piece) :
    weightFrom d (.output c f :: l) = (weightFrom d l).map (· + f.weight) := by
  cases d <;> rfl

theorem weightFrom_replicate_close {d n : Nat} (h : d < n) (l : List Piece) :
    weightFrom d (List.replicate n .close ++ l) = some 0 := by
  induction n generalizing d with
  | zero => omega
  | succ n ih =>
    cases d with
    | zero => rfl
    | succ d => exact ih (by omega)

theorem weightFrom_tests (d : Nat) (tests : List OpenTest) (l : List Piece) :
    weightFrom d (tests.map OpenTest.piece ++ l)
      = (weightFrom (d + tests.length) l).map (· + tests.length) := by
  induction tests generalizing d with
  | nil => simp
  | cons t tests ih =>
    rw [List.map_cons, List.cons_append, OpenTest.piece, weightFrom_test, ih, Option.map_map,
      List.length_cons, show d + 1 + tests.length = d + (tests.length + 1) by omega]
    congr 1

theorem weightFrom_mono {d w : Nat} {l : List Piece} (h : weightFrom (d + 1) l = some w) :
    ∃ v ≤ w, weightFrom d l = some v := by
  induction l generalizing d w with
  | nil => simp at h
  | cons p l ih =>
    cases p with
    | test c k =>
      rw [weightFrom_test] at h ⊢
      obtain ⟨w', hw', rfl⟩ := Option.map_eq_some_iff.1 h
      obtain ⟨v, hv, hv'⟩ := ih hw'
      exact ⟨v + 1, by omega, by rw [hv']; rfl⟩
    | close =>
      cases d with
      | zero => exact ⟨0, Nat.zero_le _, rfl⟩
      | succ d => exact ih h
    | output c f =>
      rw [weightFrom_output] at h ⊢
      obtain ⟨w', hw', rfl⟩ := Option.map_eq_some_iff.1 h
      obtain ⟨v, hv, hv'⟩ := ih hw'
      exact ⟨v + f.weight, by omega, by rw [hv']; rfl⟩

theorem weightFrom_append {d w : Nat} {l : List Piece} (h : weightFrom d l = some w)
    (m : List Piece) : weightFrom d (l ++ m) = some w := by
  induction l generalizing d w with
  | nil => simp at h
  | cons p l ih =>
    rw [List.cons_append]
    cases p with
    | test c k =>
      rw [weightFrom_test] at h ⊢
      obtain ⟨w', hw', rfl⟩ := Option.map_eq_some_iff.1 h
      rw [ih hw']
      rfl
    | close =>
      cases d with
      | zero => exact h
      | succ d => exact ih h
    | output c f =>
      rw [weightFrom_output] at h ⊢
      obtain ⟨w', hw', rfl⟩ := Option.map_eq_some_iff.1 h
      rw [ih hw']
      rfl

/-! ## Closed scopes -/

/-- No scope is open at the end exactly if the scopes open before the pieces and the ones that the
pieces open are all closed. -/
theorem depthAfter_eq_zero_iff (d : Nat) (l : List Piece) :
    depthAfter d l = 0 ↔ unclosed? l = none ∧ ∀ i < d, (weightFrom i l).isSome := by
  induction l generalizing d with
  | nil =>
    simp only [depthAfter, unclosed?, weightFrom_nil, Option.isSome_none, Bool.false_eq_true,
      imp_false, true_and]
    exact ⟨fun h i hi => by omega, fun h => Nat.eq_zero_of_not_pos fun hd => h 0 hd⟩
  | cons p l ih =>
    cases p with
    | test c k =>
      rw [depthAfter, ih]
      simp only [unclosed?, weightFrom_test, Option.isSome_map]
      cases hw : weightFrom 0 l with
      | none =>
        simp only [Option.isNone_none, if_true, reduceCtorEq, false_and, iff_false, not_and]
        intro _ h
        have h0 := h 0 (by omega)
        rw [hw] at h0
        exact absurd h0 (by simp)
      | some w =>
        simp only [Option.isNone_some, Bool.false_eq_true, if_false]
        refine and_congr_right fun _ => ⟨fun h i hi => h (i + 1) (by omega), fun h i hi => ?_⟩
        cases i with
        | zero => rw [hw]; rfl
        | succ i => exact h i (by omega)
    | close =>
      rw [depthAfter, ih]
      refine and_congr_right fun _ => ⟨fun h i hi => ?_, fun h i hi => h (i + 1) (by omega)⟩
      cases i with
      | zero => rfl
      | succ i => exact h i (by omega)
    | output c f =>
      rw [depthAfter, ih]
      simp only [unclosed?, weightFrom_output, Option.isSome_map]

theorem unclosed?_eq_none_iff (l : List Piece) : unclosed? l = none ↔ depthAfter 0 l = 0 := by
  simp [depthAfter_eq_zero_iff]

/-- In a list without open scopes every condition has its end. -/
theorem closed_of_suffix {l rest : List Piece} {c : Command} {k : Condition}
    (hl : unclosed? l = none) (h : .test c k :: rest <:+ l) : ∃ n, weightFrom 0 rest = some n := by
  obtain ⟨pre, rfl⟩ := h
  rw [unclosed?_eq_none_iff, depthAfter_append] at hl
  have h0 := ((depthAfter_eq_zero_iff _ _).1 hl).1
  simp only [unclosed?] at h0
  cases hw : weightFrom 0 rest with
  | none => simp [hw] at h0
  | some n => exact ⟨n, rfl⟩

/-! ## Parts

What splitting does, step by step: a piece goes to the part that is being filled, or to a fresh one
that starts with all open conditions. -/

/-- The pieces `out` are the given ones, split into parts from a place on where `tests` are open and
the part has `lines` lines. -/
inductive Parts : (tests : List OpenTest) → (lines : Nat) → (pieces out : List Piece) → Prop
  /-- Nothing is left. -/
  | nil (tests : List OpenTest) (lines : Nat) : Parts tests lines [] []
  /-- A piece outside all scopes. -/
  | outside {lines : Nat} {p : Piece} {rest out : List Piece}
      (h : Parts (openAfter [] p) 0 rest out) : Parts [] lines (p :: rest) (p :: out)
  /-- A piece that goes to the part. -/
  | same {t : OpenTest} {tests : List OpenTest} {lines : Nat} {p : Piece} {rest out : List Piece}
      (hfit : lines + p.weight ≤ maxLines)
      (h : Parts (openAfter (t :: tests) p) (lines + p.weight) rest out) :
      Parts (t :: tests) lines (p :: rest) (p :: out)
  /-- A piece that goes to a fresh part. -/
  | fresh {t : OpenTest} {tests : List OpenTest} {lines : Nat} {p : Piece} {rest out : List Piece}
      (hfit : tests.length + p.weight ≤ maxLines)
      (h : Parts (openAfter (t :: tests) p) (tests.length + p.weight) rest out) :
      Parts (t :: tests) lines (p :: rest) (reopen (t :: tests) ++ p :: out)

theorem weight_le_of_fits {depth lines : Nat} {p : Piece} {rest : List Piece}
    (h : fits depth lines p rest = true) : lines + p.weight ≤ maxLines := by
  unfold fits at h
  exact of_decide_eq_true (Bool.and_eq_true_iff.1 h).1

/-- Splitting gives parts, as long as the part so far is not too long. -/
theorem parts_of_splitFrom {tests : List OpenTest} {lines : Nat} {pieces out : List Piece}
    (hl : lines ≤ maxLines) (h : splitFrom tests lines pieces = .ok out) :
    Parts tests lines pieces out := by
  induction pieces generalizing tests lines out with
  | nil =>
    simp only [splitFrom, Except.ok.injEq] at h
    subst h
    exact .nil tests lines
  | cons p rest ih =>
    cases tests with
    | nil =>
      rw [splitFrom, Outcome.bind_eq_ok] at h
      obtain ⟨out', h', heq⟩ := h
      obtain rfl := Outcome.pure_eq_ok.1 heq
      exact .outside (ih (Nat.zero_le _) h')
    | cons t tests =>
      simp only [splitFrom] at h
      split at h
      next hfit =>
        obtain ⟨out', h', heq⟩ := Outcome.bind_eq_ok.1 h
        obtain rfl := Outcome.pure_eq_ok.1 heq
        have hw := weight_le_of_fits hfit
        exact .same hw (ih hw h')
      next hfull =>
        split at h
        next hfit =>
          obtain ⟨out', h', heq⟩ := Outcome.bind_eq_ok.1 h
          obtain rfl := Outcome.pure_eq_ok.1 heq
          have hw := weight_le_of_fits hfit
          exact .fresh hw (ih hw h')
        next =>
          -- an end weighs nothing, so it always fits
          cases p with
          | test c k => simp [commandOf?, Command.refuse] at h
          | close => simp [fits, Piece.weight, hl] at hfull
          | output c f => simp [commandOf?, Command.refuse] at h

theorem length_openAfter (tests : List OpenTest) (p : Piece) (l : List Piece) :
    depthAfter (openAfter tests p).length l = depthAfter tests.length (p :: l) := by
  cases p <;> simp [openAfter, depthAfter]

/-- Splitting leaves as many scopes open as there were. -/
theorem Parts.depthAfter_eq {tests : List OpenTest} {lines : Nat} {pieces out : List Piece}
    (h : Parts tests lines pieces out) :
    depthAfter tests.length out = depthAfter tests.length pieces := by
  induction h with
  | nil => rfl
  | outside _ ih => rw [← length_openAfter, ih, length_openAfter]
  | same _ _ ih => rw [← length_openAfter, ih, length_openAfter]
  | fresh _ _ ih => rw [depthAfter_reopen, ← length_openAfter, ih, length_openAfter]

/-- Every closed scope of the pieces has at most 255 lines. -/
def AllSmall (l : List Piece) : Prop :=
  ∀ c k rest, .test c k :: rest <:+ l → ∀ n, weightFrom 0 rest = some n → n ≤ maxLines

theorem allSmall_test {c : Command} {k : Condition} {l : List Piece} (hl : AllSmall l)
    (h : ∀ n, weightFrom 0 l = some n → n ≤ maxLines) : AllSmall (.test c k :: l) := by
  intro c' k' rest hs n hn
  rcases List.suffix_cons_iff.1 hs with heq | hs
  · obtain ⟨-, rfl⟩ := List.cons.inj heq
    exact h n hn
  · exact hl c' k' rest hs n hn

theorem allSmall_cons {p : Piece} {l : List Piece} (hl : AllSmall l) (hp : ∀ c k, p ≠ .test c k) :
    AllSmall (p :: l) := by
  intro c k rest hs n hn
  rcases List.suffix_cons_iff.1 hs with heq | hs
  · exact absurd (List.cons.inj heq).1.symm (hp c k)
  · exact hl c k rest hs n hn

theorem allSmall_closes {l : List Piece} (hl : AllSmall l) (n : Nat) :
    AllSmall (List.replicate n .close ++ l) := by
  induction n with
  | zero => exact hl
  | succ n ih => exact allSmall_cons ih (by simp)

theorem allSmall_tests {tests : List OpenTest} {l : List Piece} (hl : AllSmall l)
    (h : ∀ i < tests.length, ∀ n, weightFrom i l = some n → i + n ≤ maxLines) :
    AllSmall (tests.map OpenTest.piece ++ l) := by
  induction tests with
  | nil => exact hl
  | cons t tests ih =>
    have hrest := ih fun i hi => h i (by simp; omega)
    rw [List.map_cons, List.cons_append]
    refine allSmall_test hrest fun n hn => ?_
    rw [weightFrom_tests, Nat.zero_add] at hn
    obtain ⟨m, hm, rfl⟩ := Option.map_eq_some_iff.1 hn
    have := h tests.length (by simp) m hm
    omega

/-- The lines still to come in a scope that is open, added to the lines of the part, are at most
255. -/
def Room (tests : List OpenTest) (lines : Nat) (l : List Piece) : Prop :=
  ∀ i < tests.length, ∀ n, weightFrom i l = some n → lines + n ≤ maxLines

theorem room_cons {tests : List OpenTest} {lines : Nat} {p : Piece} {l : List Piece}
    (hfit : lines + p.weight ≤ maxLines) (h : Room (openAfter tests p) (lines + p.weight) l) :
    Room tests lines (p :: l) := by
  intro i hi n hn
  cases p with
  | test c k =>
    rw [weightFrom_test] at hn
    obtain ⟨m, hm, rfl⟩ := Option.map_eq_some_iff.1 hn
    have := h (i + 1) (by simp [openAfter]; omega) m hm
    simp only [Piece.weight] at this
    omega
  | close =>
    cases i with
    | zero =>
      obtain rfl := Option.some.inj hn
      exact hfit
    | succ i => exact h i (by simp [openAfter]; omega) n hn
  | output c f =>
    rw [weightFrom_output] at hn
    obtain ⟨m, hm, rfl⟩ := Option.map_eq_some_iff.1 hn
    have := h i hi m hm
    simp only [Piece.weight] at this
    omega

theorem allSmall_step {tests : List OpenTest} {lines : Nat} {p : Piece} {l : List Piece}
    (h : Room (openAfter tests p) lines l) (hl : AllSmall l) : AllSmall (p :: l) := by
  cases p with
  | test c k =>
    refine allSmall_test hl fun n hn => ?_
    have := h 0 (by simp [openAfter]) n hn
    omega
  | close => exact allSmall_cons hl (by simp)
  | output c f => exact allSmall_cons hl (by simp)

/-- Every part has room for the scopes in it, so no scope of the result is too long. -/
theorem Parts.small {tests : List OpenTest} {lines : Nat} {pieces out : List Piece}
    (h : Parts tests lines pieces out) (hl : lines ≤ maxLines) :
    Room tests lines out ∧ AllSmall out := by
  induction h with
  | nil tests lines =>
    refine ⟨fun i _ n hn => by simp at hn, fun c k rest hs => ?_⟩
    simp at hs
  | outside _ ih =>
    obtain ⟨hroom, hsmall⟩ := ih (Nat.zero_le _)
    exact ⟨fun i hi => absurd hi (by simp), allSmall_step hroom hsmall⟩
  | same hfit _ ih =>
    obtain ⟨hroom, hsmall⟩ := ih hfit
    exact ⟨room_cons hfit hroom, allSmall_step hroom hsmall⟩
  | @fresh t tests lines p rest out hfit _ ih =>
    obtain ⟨hroom, hsmall⟩ := ih hfit
    have hpart : Room (t :: tests) tests.length (p :: out) := room_cons hfit hroom
    refine ⟨fun i hi n hn => ?_, ?_⟩
    · rw [reopen, List.append_assoc, weightFrom_replicate_close hi] at hn
      obtain rfl := Option.some.inj hn
      exact hl
    · rw [reopen, List.append_assoc]
      refine allSmall_closes (allSmall_tests (allSmall_step hroom hsmall) fun i hi n hn => ?_) _
      have := hpart i hi n hn
      rw [List.length_cons] at hi
      omega

end CheatScript.Scope
