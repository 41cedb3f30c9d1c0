import CheatScript.Proofs.Numerals
import CheatScript.Proofs.Outcome

/-!
# Proofs: sums of literals

An address may be given as several literals, every one after the first behind a plus sign. It is
read as the sum of their numbers modulo `2 ^ 32`, and reading stops at the first token without that
sign. Integers are read in the same way.
-/

namespace CheatScript

/-- No number has a plus sign or a comma in front. -/
theorem Literal.isFloat_marked {mark : UInt8} (h : mark = Byte.plus ∨ mark = Byte.comma)
    (s : Bytes) : isFloat (mark :: s) = false := by
  have hdigit : Byte.isDigit mark = false := by rcases h with rfl | rfl <;> rfl
  have hunsigned : unsigned (mark :: s) = mark :: s := by rcases h with rfl | rfl <;> rfl
  have hhex : Bytes.after? hexMark (mark :: s) = none := by rcases h with rfl | rfl <;> rfl
  have hinteger : isInteger (mark :: s) = false := by
    simp [isInteger, isHexForm, isDecimalDigits, hunsigned, hhex, hdigit]
  have hfraction : isFraction (mark :: s) = false := by
    have hdot : mark ≠ Byte.dot := by rcases h with rfl | rfl <;> decide
    rw [isFraction, hunsigned, Bytes.cut?, if_neg hdot]
    cases Bytes.cut? Byte.dot s with
    | none => rfl
    | some parts => simp [isDecimalDigits, hdigit]
  have hwords : isInfinity (mark :: s) = false ∧ isNaN (mark :: s) = false := by
    rw [isInfinity, isNaN, hunsigned]
    rcases h with rfl | rfl <;> exact ⟨rfl, rfl⟩
  rw [isFloat, hinteger, hfraction, hwords.1, hwords.2]
  rfl

namespace Argument

variable {t : Bytes} {terms rest : List Bytes}

/-! ## Plus terms -/

theorem plusTerms_append {terms : List Bytes} (h : ∀ term ∈ terms, hasMark Byte.plus term = true)
    (rest : List Bytes) : plusTerms (terms ++ rest) =
      (terms.map List.tail ++ (plusTerms rest).1, (plusTerms rest).2) := by
  unfold plusTerms
  rw [List.takeWhile_append_of_pos h, List.dropWhile_append_of_pos h, List.map_append]

theorem plusTerms_of_plus {terms : List Bytes} (h : ∀ term ∈ terms, hasMark Byte.plus term = true) :
    plusTerms terms = (terms.map List.tail, []) := by
  have hall := plusTerms_append h []
  rw [List.append_nil] at hall
  rw [hall]
  simp [plusTerms]

theorem plusTerms_cons {token : Bytes} (h : hasMark Byte.plus token = false) (rest : List Bytes) :
    plusTerms (token :: rest) = ([], token :: rest) := by
  simp [plusTerms, h]

/-! ## Literals -/

/-- The number of an address literal; zero if it is none. -/
def addressOf (t : Bytes) : Word := (Literal.address t).toOption.getD 0

/-- The sum of address literals modulo `2 ^ 32`. -/
def addressSum : List Bytes → Word
  | [] => 0
  | t :: terms => addressOf t + addressSum terms

/-- The tokens of a sum: every term but the first has a plus sign in front. -/
def sumTokens : List Bytes → List Bytes
  | [] => []
  | t :: terms => t :: terms.map (Byte.plus :: ·)

/-- One or more address literals. -/
structure IsAddressSum (terms : List Bytes) : Prop where
  nonempty : terms ≠ []
  literals : ∀ t ∈ terms, Literal.isAddress t = true

theorem length_sumTokens (terms : List Bytes) : (sumTokens terms).length = terms.length := by
  cases terms with
  | nil => rfl
  | cons t terms => simp only [sumTokens, List.length_cons, List.length_map]

theorem IsAddressSum.length_pos (h : IsAddressSum terms) : 0 < (sumTokens terms).length := by
  rw [length_sumTokens]
  exact List.length_pos_iff.2 h.nonempty

theorem addressValue_eq (h : Literal.isAddress t = true) : addressValue t = .ok (addressOf t) := by
  obtain ⟨a, ha⟩ := Literal.address_of_isAddress h
  have hvalue : addressOf t = a := by
    rw [addressOf, ha]
    rfl
  rw [hvalue]
  exact literal_eq_ok h ha

theorem sum_addressValue (h : ∀ t ∈ terms, Literal.isAddress t = true) :
    sum addressValue terms = .ok (addressSum terms) := by
  induction terms with
  | nil => rfl
  | cons t terms ih =>
    obtain ⟨ht, hterms⟩ := List.forall_mem_cons.1 h
    rw [sum, addressValue_eq ht, ih hterms]
    rfl

theorem plusTerms_sum (hrest : ∀ t ∈ rest.head?, hasMark Byte.plus t = false) :
    plusTerms (terms.map (Byte.plus :: ·) ++ rest) = (terms, rest) := by
  have hplus : ∀ term ∈ terms.map (Byte.plus :: ·), hasMark Byte.plus term = true := by
    intro term hterm
    obtain ⟨t, -, rfl⟩ := List.mem_map.1 hterm
    rfl
  have hstop : plusTerms rest = ([], rest) := by
    cases rest with
    | nil => rfl
    | cons t rest => exact plusTerms_cons (hrest t rfl) rest
  rw [plusTerms_append hplus, hstop, List.append_nil, List.map_map]
  exact congrArg (fun terms => (terms, rest)) (List.map_id terms)

/-- A sum of address literals is read as their sum. -/
theorem address_sumTokens (h : IsAddressSum terms)
    (hrest : ∀ t ∈ rest.head?, hasMark Byte.plus t = false) :
    address (sumTokens terms ++ rest) = .ok (addressSum terms, rest) := by
  cases terms with
  | nil => exact absurd rfl h.nonempty
  | cons t terms =>
    obtain ⟨ht, hterms⟩ := List.forall_mem_cons.1 h.literals
    rw [sumTokens, List.cons_append, address, sumReader, addressValue_eq ht, plusTerms_sum hrest]
    simp only [sum_addressValue hterms]
    rfl

/-! ## Integers -/

/-- The number of an integer literal; zero if it is none. -/
def integerOf (t : Bytes) : Word := (Literal.integer t).toOption.getD 0

/-- The sum of integer literals modulo `2 ^ 32`. -/
def integerSum : List Bytes → Word
  | [] => 0
  | t :: terms => integerOf t + integerSum terms

/-- One or more integer literals that have a value. -/
structure IsIntegerSum (terms : List Bytes) : Prop where
  nonempty : terms ≠ []
  literals : ∀ t ∈ terms, Literal.isInteger t = true ∧ ∃ w, Literal.integer t = .ok w

theorem integerValue_eq_ok {w : Word} : integerValue t = .ok w ↔
    (Literal.isInteger t = true ∧ ∃ w, Literal.integer t = .ok w) ∧ w = integerOf t := by
  rw [integerValue, literal, integerOf]
  cases hform : Literal.isInteger t with
  | false => simp
  | true => cases hvalue : Literal.integer t with
    | error e => simp
    | ok v => simp [Except.toOption, eq_comm]

theorem sum_integerValue {w : Word} : sum integerValue terms = .ok w ↔
    (∀ t ∈ terms, Literal.isInteger t = true ∧ ∃ w, Literal.integer t = .ok w) ∧
      w = integerSum terms := by
  induction terms generalizing w with
  | nil =>
    constructor
    · intro h
      exact ⟨by simp, (Except.ok.inj h).symm⟩
    · rintro ⟨-, rfl⟩
      rfl
  | cons t terms ih =>
    rw [sum, Outcome.bind_eq_ok, List.forall_mem_cons]
    constructor
    · rintro ⟨first, hfirst, h⟩
      obtain ⟨rest, hrest, h⟩ := Outcome.bind_eq_ok.1 h
      obtain ⟨ht, rfl⟩ := integerValue_eq_ok.1 hfirst
      obtain ⟨hterms, rfl⟩ := ih.1 hrest
      exact ⟨⟨ht, hterms⟩, (Outcome.pure_eq_ok.1 h).symm⟩
    · rintro ⟨⟨ht, hterms⟩, rfl⟩
      exact ⟨_, integerValue_eq_ok.2 ⟨ht, rfl⟩, Outcome.bind_eq_ok.2 ⟨_, ih.2 ⟨hterms, rfl⟩, rfl⟩⟩

/-- If no token is left after the plus terms, the tokens are these behind their signs. -/
theorem map_plusTerms {tokens : List Bytes} (h : (plusTerms tokens).2 = []) :
    (plusTerms tokens).1.map (Byte.plus :: ·) = tokens := by
  induction tokens with
  | nil => rfl
  | cons token tokens ih =>
    cases hplus : hasMark Byte.plus token with
    | false =>
      rw [plusTerms_cons hplus] at h
      cases h
    | true =>
      have hsplit := plusTerms_append (List.forall_mem_singleton.2 hplus) tokens
      rw [List.singleton_append] at hsplit
      rw [hsplit] at h ⊢
      obtain ⟨s, rfl⟩ := List.head?_eq_some_iff.1 (beq_iff_eq.1 hplus)
      exact congrArg (List.cons (Byte.plus :: s)) (ih h)

/-- **What is read as an integer.** Tokens are read as an integer as a whole if they are a sum of
integer literals that have a value, and the integer is the sum of these. -/
theorem integer_eq_ok {tokens : List Bytes} {w : Word} : integer tokens = .ok (w, []) ↔
    ∃ terms, IsIntegerSum terms ∧ tokens = sumTokens terms ∧ w = integerSum terms := by
  constructor
  · intro h
    cases tokens with
    | nil => cases h
    | cons t tokens =>
      obtain ⟨first, hfirst, h⟩ := Outcome.bind_eq_ok.1 h
      obtain ⟨rest, hrest, h⟩ := Outcome.bind_eq_ok.1 h
      obtain ⟨hw, hdone⟩ := Prod.mk.inj (Outcome.pure_eq_ok.1 h)
      obtain ⟨ht, rfl⟩ := integerValue_eq_ok.1 hfirst
      obtain ⟨hterms, rfl⟩ := sum_integerValue.1 hrest
      refine ⟨t :: (plusTerms tokens).1,
        ⟨List.cons_ne_nil _ _, List.forall_mem_cons.2 ⟨ht, hterms⟩⟩, ?_, hw.symm⟩
      rw [sumTokens, map_plusTerms hdone]
  · rintro ⟨terms, h, rfl, rfl⟩
    cases terms with
    | nil => exact absurd rfl h.nonempty
    | cons t terms =>
      obtain ⟨ht, hterms⟩ := List.forall_mem_cons.1 h.literals
      have hplus : plusTerms (terms.map (Byte.plus :: ·) ++ []) = (terms, []) :=
        plusTerms_sum (by simp)
      rw [List.append_nil] at hplus
      rw [sumTokens, integer, sumReader, integerValue_eq_ok.2 ⟨ht, rfl⟩, hplus]
      simp only [sum_integerValue.2 ⟨hterms, rfl⟩]
      rfl

end Argument

end CheatScript
