import CheatScript.Proofs.Outcome
import CheatScript.Scope.Nesting

/-!
# Proofs: the clauses of a condition

The arguments of an If are clauses with `&&` between them. The condition that an If was rendered
with is that of its first clause, and `clause` cuts out the others one by one.
-/

namespace CheatScript

open Outcome

/-! ## The first clause -/

namespace Argument

/-- The tokens in front of the first conjunction. -/
abbrev firstClause (args : List Bytes) : List Bytes := args.takeWhile (· != Scope.conjunction)

theorem firstClause_cons {t : Bytes} (ht : t ≠ Scope.conjunction) (ts : List Bytes) :
    firstClause (t :: ts) = t :: firstClause ts := by
  simp [firstClause, ht]

theorem ne_conjunction_of_hasMark {t : Bytes} (h : hasMark Byte.plus t = true) :
    t ≠ Scope.conjunction := by
  rintro rfl
  exact absurd h (by decide)

/-- Plus terms end before a conjunction. -/
theorem plusTerms_firstClause (ts : List Bytes) :
    plusTerms (firstClause ts) = ((plusTerms ts).1, firstClause (plusTerms ts).2) := by
  induction ts with
  | nil => rfl
  | cons t ts ih =>
    simp only [plusTerms, Prod.mk.injEq] at ih ⊢
    obtain ⟨ih1, ih2⟩ := ih
    by_cases hp : hasMark Byte.plus t = true
    · rw [firstClause_cons (ne_conjunction_of_hasMark hp)]
      simp only [List.takeWhile_cons, List.dropWhile_cons, hp, if_true, List.map_cons]
      exact ⟨by rw [ih1], ih2⟩
    · rw [List.takeWhile_cons_of_neg hp, List.dropWhile_cons_of_neg hp]
      by_cases hc : t = Scope.conjunction
      · simp [firstClause, hc]
      · rw [firstClause_cons hc, List.takeWhile_cons_of_neg hp, List.dropWhile_cons_of_neg hp]
        exact ⟨rfl, rfl⟩

/-- Where no value is spelled `&&`, a sum does not reach past the first clause. -/
theorem sumReader_firstClause {value : Bytes → Except Fault Word} {args rest : List Bytes}
    {v : Word}
    (hv : ∀ v, value Scope.conjunction ≠ .ok v) (h : sumReader value args = .ok (v, rest)) :
    sumReader value (firstClause args) = .ok (v, firstClause rest) := by
  cases args with
  | nil => simp [sumReader] at h
  | cons t ts =>
    obtain ⟨first, hfirst, h⟩ := bind_eq_ok.1 h
    obtain ⟨more, hmore, h⟩ := bind_eq_ok.1 h
    obtain ⟨rfl, rfl⟩ := Prod.mk.inj (pure_eq_ok.1 h)
    have ht : t ≠ Scope.conjunction := by
      rintro rfl
      exact hv first hfirst
    rw [firstClause_cons ht, sumReader]
    refine bind_eq_ok.2 ⟨first, hfirst, bind_eq_ok.2 ⟨more, ?_, ?_⟩⟩
    · rw [plusTerms_firstClause]
      exact hmore
    · rw [plusTerms_firstClause]
      rfl

end Argument

namespace Condition

open Argument

theorem addressValue_conjunction (v : Word) : addressValue Scope.conjunction ≠ .ok v := by
  simp [show addressValue Scope.conjunction = .error .addressInvalid from by rfl]

theorem integerValue_conjunction (v : Word) : integerValue Scope.conjunction ≠ .ok v := by
  simp [show integerValue Scope.conjunction = .error .valueInvalid from by rfl]

/-- What a condition is made of: an address, an operator with its mark, and a number. -/
theorem read_eq_ok {args : List Bytes} {k : Condition} (h : read args = .ok k) :
    ∃ operator rest after, Argument.address args = .ok (k.address, operator :: rest) ∧
      Comparison.ofOperator? operator.dropLast = some k.comparison ∧
      Argument.integer rest = .ok (k.value, after) ∧
      operator.getLast?.bind widthOfMark? = some k.width := by
  obtain ⟨⟨address, tokens⟩, ha, h⟩ := bind_eq_ok.1 h
  cases tokens with
  | nil => simp at h
  | cons operator rest =>
    simp only at h
    cases hop : Comparison.ofOperator? operator.dropLast with
    | none => simp [hop] at h
    | some comparison =>
      rw [hop] at h
      obtain ⟨⟨value, after⟩, hi, h⟩ := bind_eq_ok.1 h
      cases hw : operator.getLast?.bind widthOfMark? with
      | none => simp [hw] at h
      | some width =>
        simp only [hw] at h
        obtain rfl := pure_eq_ok.1 h
        exact ⟨operator, rest, after, ha, hop, hi, hw⟩

/-- A condition is read off the first clause alone. -/
theorem read_firstClause {args : List Bytes} {k : Condition} (h : read args = .ok k) :
    read (firstClause args) = .ok k := by
  obtain ⟨operator, rest, after, ha, hop, hi, hw⟩ := read_eq_ok h
  -- `&&` lacks the mark of a width, so it is no operator
  have hne : operator ≠ Scope.conjunction := by
    rintro rfl
    exact absurd hw (by simp [show Scope.conjunction.getLast?.bind widthOfMark? = none from by rfl])
  have ha' := sumReader_firstClause addressValue_conjunction ha
  have hi' := sumReader_firstClause integerValue_conjunction hi
  rw [firstClause_cons hne] at ha'
  unfold read
  refine bind_eq_ok.2 ⟨_, ha', ?_⟩
  simp only [hop]
  refine bind_eq_ok.2 ⟨_, hi', ?_⟩
  simp only [hw]
  rfl

end Condition

/-! ## The other clauses -/

namespace Scope

theorem head_splitOn (args : List Bytes) :
    (args.splitOn conjunction)[0]? = some (Argument.firstClause args) := by
  induction args with
  | nil => rfl
  | cons t ts ih =>
    rw [List.splitOn_cons_eq_if_modifyHead]
    by_cases ht : t = conjunction
    · simp [ht, Argument.firstClause]
    · rw [Argument.firstClause_cons ht, if_neg (by simpa using ht)]
      cases hs : ts.splitOn conjunction with
      | nil => exact absurd hs (List.splitOn_ne_nil _ _)
      | cons l ls =>
        rw [hs] at ih
        simpa using ih

theorem afterConjunction?_eq (args : List Bytes) (n : Nat) :
    (afterConjunction? n args).map Argument.firstClause = (args.splitOn conjunction)[n + 1]? := by
  induction args generalizing n with
  | nil => simp [afterConjunction?, List.splitOn_nil]
  | cons t ts ih =>
    rw [List.splitOn_cons_eq_if_modifyHead]
    by_cases ht : t = conjunction
    · cases n with
      | zero => simp [afterConjunction?, ht, head_splitOn]
      | succ n => simp [afterConjunction?, ht, ih]
    · have hskip : afterConjunction? n (t :: ts) = afterConjunction? n ts := by
        cases n <;> simp [afterConjunction?, ht]
      rw [hskip, ih, if_neg (by simpa using ht)]
      cases hs : ts.splitOn conjunction with
      | nil => exact absurd hs (List.splitOn_ne_nil _ _)
      | cons l ls => simp

theorem length_splitOn (args : List Bytes) :
    (args.splitOn conjunction).length = args.count conjunction + 1 := by
  induction args with
  | nil => rfl
  | cons t ts ih =>
    rw [List.splitOn_cons_eq_if_modifyHead, List.count_cons]
    by_cases ht : t = conjunction
    · simp [ht, ih]
    · simp [ht, ih]

/-- The clauses are the first one and those that `clause` numbers. -/
theorem splitOn_eq_clauses (args : List Bytes) :
    args.splitOn conjunction
      = Argument.firstClause args :: (List.range (args.count conjunction)).map (clause args) := by
  refine List.ext_getElem? fun i => ?_
  cases i with
  | zero => rw [head_splitOn]; rfl
  | succ i =>
    rw [List.getElem?_cons_succ, List.getElem?_map, ← afterConjunction?_eq]
    by_cases hi : i < args.count conjunction
    · have hlt : i + 1 < (args.splitOn conjunction).length := by rw [length_splitOn]; omega
      have hsome := List.getElem?_eq_getElem hlt
      rw [← afterConjunction?_eq] at hsome
      obtain ⟨rest, hrest, -⟩ := Option.map_eq_some_iff.1 hsome
      rw [List.getElem?_range hi, hrest]
      simp [clause, hrest]
    · have hnone : (args.splitOn conjunction)[i + 1]? = none := by
        rw [List.getElem?_eq_none_iff, length_splitOn]
        omega
      rw [afterConjunction?_eq, hnone, List.getElem?_eq_none (by simpa using hi)]
      rfl

end Scope

end CheatScript
