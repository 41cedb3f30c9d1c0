import CheatScript.Proofs.ArgumentSums
import CheatScript.Proofs.ConditionClauses
import CheatScript.Proofs.ConditionLines
import CheatScript.Proofs.CallArguments

/-!
# Proofs: clauses after names are replaced

Names in the clauses of an If are replaced by the tokens they stand for. As long as each name stands
for one token and plus terms, three sums stay three sums and a `&&` stays where it is. A condition
that is read from three sums takes all of their tokens: the operator is one token, and no token is
left over.
-/

namespace CheatScript

open Outcome

/-! ## Replacing names by sums -/

namespace Argument

variable {tokens : List Bytes} {token : Bytes}

/-- Whether tokens can take the place of a token of a clause: they are a sum, a plus term gives way
to plus terms, and `&&` stays. -/
structure Stands (token : Bytes) (part : List Bytes) : Prop where
  sum : IsSum part
  plus : hasMark Byte.plus token = true → ∀ term ∈ part, hasMark Byte.plus term = true
  conjunction : token = Scope.conjunction → part = [Scope.conjunction]

theorem IsSum.flatMap {f : Bytes → List Bytes} (h : IsSum tokens)
    (hf : ∀ token ∈ tokens, Stands token (f token)) : IsSum (tokens.flatMap f) := by
  obtain ⟨first, terms, rfl, hterms⟩ := h
  obtain ⟨hfirst, hrest⟩ := List.forall_mem_cons.1 hf
  obtain ⟨head, tail, hhead, htail⟩ := hfirst.sum
  refine ⟨head, tail ++ terms.flatMap f, by rw [List.flatMap_cons, hhead, List.cons_append], ?_⟩
  refine List.forall_mem_append.2 ⟨htail, fun term hterm => ?_⟩
  obtain ⟨token, htoken, hterm⟩ := List.mem_flatMap.1 hterm
  exact (hrest token htoken).plus (hterms token htoken) term hterm

theorem hasMark_plus_iff : hasMark Byte.plus token = true ↔ (splitMark token).1 = [Byte.plus] := by
  cases token with
  | nil => decide
  | cons c s =>
    by_cases hplus : c = Byte.plus
    · simp [hasMark, splitMark, hplus]
    · by_cases hcomma : c = Byte.comma
      · subst hcomma
        simp [hasMark, splitMark]
      · simp [hasMark, splitMark, hplus, hcomma]

theorem hasMark_of_splitMark {mark s : Bytes} (h : mark = [Byte.plus]) :
    hasMark Byte.plus (mark ++ s) = true := by
  subst h
  rfl

theorem hasMark_tidyMark (h : hasMark Byte.plus token = true) :
    hasMark Byte.plus (tidyMark token) = true := by
  rw [tidyMark_eq]
  exact hasMark_of_splitMark (hasMark_plus_iff.1 h)

end Argument

namespace DefinitionTable

open Argument

/-- Whether every name in some tokens stands for a sum, seen from a position, and `&&` is no
name. -/
structure KeepsSums (t : DefinitionTable) (k : Int) (tokens : List Bytes) : Prop where
  conjunction : t.declares Scope.conjunction = false
  sums : ∀ token ∈ tokens, ∀ values ∈ t.expand (splitMark token).2 k,
    ∀ value ∈ values.tail, hasMark Byte.plus value = true

instance (t : DefinitionTable) (k : Int) (tokens : List Bytes) : Decidable (t.KeepsSums k tokens) :=
  decidable_of_iff (t.declares Scope.conjunction = false ∧ ∀ token ∈ tokens,
      ∀ values ∈ t.expand (splitMark token).2 k, ∀ value ∈ values.tail,
        hasMark Byte.plus value = true)
    ⟨fun h => ⟨h.1, h.2⟩, fun h => ⟨h.conjunction, h.sums⟩⟩

variable {t : DefinitionTable} {k : Int} {tokens : List Bytes} {token : Bytes}

theorem stands_tidyMark (token : Bytes) : Stands token [tidyMark token] := by
  refine ⟨⟨_, [], rfl, by simp⟩, fun hplus => ?_, ?_⟩
  · exact List.forall_mem_singleton.2 (hasMark_tidyMark hplus)
  · rintro rfl
    rfl

theorem KeepsSums.stands (h : t.KeepsSums k tokens) (htoken : token ∈ tokens) {part : List Bytes}
    (hpart : t.substituteToken k token = some part) : Stands token part := by
  unfold substituteToken at hpart
  simp only at hpart
  split at hpart
  · next hdeclares =>
    have hne : token ≠ Scope.conjunction := by
      rintro rfl
      exact absurd hdeclares (by simp [h.conjunction, show (splitMark Scope.conjunction).2 =
        Scope.conjunction from rfl])
    cases hexpand : t.expand (splitMark token).2 k with
    | none =>
      rw [hexpand] at hpart
      cases hpart
    | some values =>
      rw [hexpand] at hpart
      cases values with
      | nil =>
        obtain rfl := Option.some.inj hpart
        exact stands_tidyMark token
      | cons first rest =>
        obtain rfl := Option.some.inj hpart
        have hrest : ∀ term ∈ rest.map tidyMark, hasMark Byte.plus term = true := by
          intro term hterm
          obtain ⟨value, hvalue, rfl⟩ := List.mem_map.1 hterm
          exact hasMark_tidyMark (h.sums token htoken _ hexpand value hvalue)
        refine ⟨⟨_, _, rfl, hrest⟩, fun hplus => ?_, fun heq => absurd heq hne⟩
        exact List.forall_mem_cons.2 ⟨hasMark_of_splitMark (hasMark_plus_iff.1 hplus), hrest⟩
  · obtain rfl := Option.some.inj hpart
    exact stands_tidyMark token

end DefinitionTable

namespace Scope

open Argument

variable {n : Nat} {tokens args : List Bytes}

theorem IsTriple.flatMap {f : Bytes → List Bytes} (h : IsTriple tokens)
    (hf : ∀ token ∈ tokens, Stands token (f token)) : IsTriple (tokens.flatMap f) := by
  obtain ⟨address, operator, value, rfl, haddress, hoperator, hvalue⟩ := h
  obtain ⟨hfront, hlast⟩ := List.forall_mem_append.1 hf
  obtain ⟨hfirst, hmiddle⟩ := List.forall_mem_append.1 hfront
  refine ⟨_, _, _, ?_, haddress.flatMap hfirst, hoperator.flatMap hmiddle, hvalue.flatMap hlast⟩
  rw [List.flatMap_append, List.flatMap_append]

theorem Clausal.flatMap {f : Bytes → List Bytes} (h : Clausal n tokens)
    (hf : ∀ token ∈ tokens, Stands token (f token)) : Clausal n (tokens.flatMap f) := by
  induction h with
  | last h => exact .last (h.flatMap hf)
  | more h _ ih =>
    obtain ⟨hfirst, hrest⟩ := List.forall_mem_append.1 hf
    obtain ⟨hconjunction, hrest⟩ := List.forall_mem_cons.1 hrest
    rw [List.flatMap_append, List.flatMap_cons, hconjunction.conjunction rfl]
    exact .more (h.flatMap hfirst) (ih hrest)

/-- Replacing names that stand for sums keeps the clauses of an If. -/
theorem Clausal.substitute {t : DefinitionTable} {k : Int} {parts : List (List Bytes)}
    (h : Clausal n args) (hsums : t.KeepsSums k args)
    (hparts : args.mapM (t.substituteToken k) = some parts) : Clausal n parts.flatten := by
  obtain ⟨hflatten, hsome⟩ := flatten_of_mapM hparts
  rw [hflatten]
  refine h.flatMap fun token htoken => ?_
  obtain ⟨part, hpart⟩ := hsome token htoken
  rw [hpart]
  exact hsums.stands htoken hpart

end Scope

/-! ## Reading three sums -/

namespace Argument

/-- No integer has a plus sign in front. -/
theorem integerValue_plus {token : Bytes} (h : hasMark Byte.plus token = true) (v : Word) :
    integerValue token ≠ .ok v := by
  obtain ⟨s, rfl⟩ := List.head?_eq_some_iff.1 (beq_iff_eq.1 h)
  intro hvalue
  have hform := (of_literal_eq_ok hvalue).1
  have hnone := Literal.isFloat_marked (.inl rfl) s
  simp [Literal.isFloat, hform] at hnone

end Argument

namespace Condition

open Argument

/-- Whether a clause spells a condition and nothing else: its address with plus terms, its operator
with the mark of its width, and its number with plus terms. -/
def Spells (clause : List Bytes) (k : Condition) : Prop :=
  ∃ address operator value, clause = address ++ operator :: value ∧
    Argument.address address = .ok (k.address, []) ∧
    Comparison.ofOperator? operator.dropLast = some k.comparison ∧
    operator.getLast?.bind widthOfMark? = some k.width ∧
    Argument.integer value = .ok (k.value, [])

end Condition

namespace Argument

variable {value : Bytes → Except Fault Word} {v : Word} {first : Bytes} {terms rest : List Bytes}

/-- What is left after a sum are the tokens after its plus terms. -/
theorem sumReader_rest (h : sumReader value (first :: terms) = .ok (v, rest)) :
    rest = (plusTerms terms).2 := by
  obtain ⟨first, -, h⟩ := bind_eq_ok.1 h
  obtain ⟨more, -, h⟩ := bind_eq_ok.1 h
  exact (Prod.mk.inj (pure_eq_ok.1 h)).2.symm

theorem sumReader_first (h : sumReader value (first :: terms) = .ok (v, rest)) :
    ∃ w, value first = .ok w := by
  obtain ⟨w, hw, -⟩ := bind_eq_ok.1 h
  exact ⟨w, hw⟩

/-- A sum is read alone as it is read in front of a token that is no plus term. -/
theorem sumReader_alone {next : Bytes} (hterms : ∀ term ∈ terms, hasMark Byte.plus term = true)
    (hnext : hasMark Byte.plus next = false)
    (h : sumReader value (first :: (terms ++ next :: rest)) = .ok (v, next :: rest)) :
    sumReader value (first :: terms) = .ok (v, []) := by
  have hsplit : plusTerms (terms ++ next :: rest) = (terms.map List.tail, next :: rest) := by
    rw [plusTerms_append hterms, plusTerms_cons hnext, List.append_nil]
  obtain ⟨w, hw, h⟩ := bind_eq_ok.1 h
  obtain ⟨sum, hsum, h⟩ := bind_eq_ok.1 h
  rw [hsplit] at hsum h
  refine bind_eq_ok.2 ⟨w, hw, bind_eq_ok.2 ⟨sum, ?_, ?_⟩⟩
  · rw [plusTerms_of_plus hterms]
    exact hsum
  · rw [plusTerms_of_plus hterms]
    exact congrArg (fun pair => Except.ok (pair.1, ([] : List Bytes))) (pure_eq_ok.1 h)

end Argument

namespace Scope

open Argument

variable {n : Nat} {tokens args tail : List Bytes} {k : Condition}

/-- Whether tokens after a clause start with `&&`, if there are any. -/
def Follows (tail : List Bytes) : Prop := tail = [] ∨ ∃ rest, tail = conjunction :: rest

theorem Follows.firstClause (h : Follows tail) : firstClause tail = [] := by
  rcases h with rfl | ⟨rest, rfl⟩
  · rfl
  · simp [Argument.firstClause]

theorem firstClause_plus {terms : List Bytes} (h : ∀ term ∈ terms, hasMark Byte.plus term = true)
    (rest : List Bytes) : firstClause (terms ++ rest) = terms ++ firstClause rest := by
  refine List.takeWhile_append_of_pos fun term hterm => ?_
  simpa using ne_conjunction_of_hasMark (h term hterm)

theorem conjunction_not_mem {first : Bytes} {terms : List Bytes} (hfirst : first ≠ conjunction)
    (hterms : ∀ term ∈ terms, hasMark Byte.plus term = true) : conjunction ∉ first :: terms := by
  intro hmem
  rcases List.mem_cons.1 hmem with heq | hmem
  · exact hfirst heq.symm
  · exact ne_conjunction_of_hasMark (hterms _ hmem) rfl

/-- The number that ends a clause starts with one token of its own. -/
theorem integer_firstClause {value rest : List Bytes} {v : Word} (hvalue : IsSum value)
    (htail : Follows tail) (h : Argument.integer (firstClause (value ++ tail)) = .ok (v, rest)) :
    conjunction ∉ value ∧ Argument.integer value = .ok (v, []) := by
  obtain ⟨first, terms, rfl, hterms⟩ := hvalue
  have hfirst : first ≠ conjunction := by
    rintro rfl
    simp [Argument.firstClause, Argument.integer, sumReader] at h
  have hwhole : firstClause (first :: terms ++ tail) = first :: terms := by
    rw [List.cons_append, firstClause_cons hfirst, firstClause_plus hterms, htail.firstClause,
      List.append_nil]
  rw [hwhole] at h
  have hrest : rest = [] := by
    have hleft := sumReader_rest h
    rwa [plusTerms_of_plus hterms] at hleft
  exact ⟨conjunction_not_mem hfirst hterms, hrest ▸ h⟩

/-- The operator of a clause is no plus term: as one it would be a term of the address, and the
number would lack its first token. -/
theorem operator_unmarked {first operator op : Bytes} {terms more value rest after : List Bytes}
    {v w : Word} (hterms : ∀ term ∈ terms, hasMark Byte.plus term = true)
    (hmore : ∀ term ∈ more, hasMark Byte.plus term = true) (hvalue : IsSum value)
    (htail : Follows tail)
    (haddress : Argument.address
      (first :: (terms ++ operator :: (more ++ firstClause (value ++ tail)))) = .ok (v, op :: rest))
    (hinteger : Argument.integer rest = .ok (w, after)) : hasMark Byte.plus operator = false := by
  rw [Bool.eq_false_iff]
  intro hplus
  have hall : ∀ term ∈ terms ++ operator :: more, hasMark Byte.plus term = true :=
    List.forall_mem_append.2 ⟨hterms, List.forall_mem_cons.2 ⟨hplus, hmore⟩⟩
  have hleft := sumReader_rest haddress
  rw [← List.cons_append, ← List.append_assoc, plusTerms_append hall] at hleft
  obtain ⟨x, xs, rfl, hxs⟩ := hvalue
  by_cases hx : x = conjunction
  · rw [hx] at hleft
    simp [Argument.firstClause, plusTerms] at hleft
  rw [List.cons_append, firstClause_cons hx, firstClause_plus hxs, htail.firstClause,
    List.append_nil] at hleft
  by_cases hxplus : hasMark Byte.plus x = true
  · rw [plusTerms_of_plus (List.forall_mem_cons.2 ⟨hxplus, hxs⟩)] at hleft
    cases hleft
  · rw [plusTerms_cons (Bool.eq_false_iff.2 hxplus)] at hleft
    obtain ⟨rfl, rfl⟩ := List.cons.inj hleft
    cases rest with
    | nil => cases hinteger
    | cons term rest =>
      obtain ⟨w, hw⟩ := sumReader_first hinteger
      exact integerValue_plus (hxs term List.mem_cons_self) w hw

/-- A condition that is read from three sums takes all of their tokens. -/
theorem IsTriple.spells (h : IsTriple tokens) (htail : Follows tail)
    (hread : Condition.read (firstClause (tokens ++ tail)) = .ok k) :
    conjunction ∉ tokens ∧ Condition.Spells tokens k := by
  obtain ⟨address, operator, value, rfl, ⟨a, as, rfl, has⟩, ⟨o, os, rfl, hos⟩, hvalue⟩ := h
  obtain ⟨op, rest, after, haddress, hcomparison, hinteger, hwidth⟩ := Condition.read_eq_ok hread
  have hshape :
      a :: as ++ o :: os ++ value ++ tail = a :: (as ++ o :: (os ++ (value ++ tail))) := by
    simp
  rw [hshape] at haddress
  have ha : a ≠ conjunction := by
    rintro rfl
    simp [Argument.firstClause, Argument.address, sumReader] at haddress
  rw [firstClause_cons ha, firstClause_plus has] at haddress
  have ho : o ≠ conjunction := by
    rintro rfl
    have hleft := sumReader_rest haddress
    have hnothing : firstClause (conjunction :: (os ++ (value ++ tail))) = [] := by
      simp [Argument.firstClause]
    rw [hnothing, List.append_nil, plusTerms_of_plus has] at hleft
    cases hleft
  rw [firstClause_cons ho, firstClause_plus hos] at haddress
  have hnoplus := operator_unmarked has hos hvalue htail haddress hinteger
  have hleft := sumReader_rest haddress
  rw [plusTerms_append has, plusTerms_cons hnoplus] at hleft
  obtain ⟨rfl, rfl⟩ := List.cons.inj hleft
  cases os with
  | cons term os =>
    obtain ⟨w, hw⟩ := sumReader_first hinteger
    exact absurd hw (integerValue_plus (hos term List.mem_cons_self) w)
  | nil =>
    rw [List.nil_append] at hinteger haddress
    obtain ⟨hfree, hnumber⟩ := integer_firstClause hvalue htail hinteger
    refine ⟨?_, a :: as, op, value, by simp, sumReader_alone has hnoplus haddress, hcomparison,
      hwidth, hnumber⟩
    intro hmem
    rcases List.mem_append.1 hmem with hmem | hmem
    · rcases List.mem_append.1 hmem with hmem | hmem
      · exact conjunction_not_mem ha has hmem
      · exact ho (List.mem_singleton.1 hmem).symm
    · exact hfree hmem

theorem splitOn_of_not_mem (h : conjunction ∉ tokens) : tokens.splitOn conjunction = [tokens] := by
  have hcount : tokens.count conjunction = 0 := List.count_eq_zero.2 h
  rw [splitOn_eq_clauses, hcount]
  simp only [List.range_zero, List.map_nil, List.cons.injEq, and_true]
  refine List.takeWhile_eq_self_iff.2 fun token htoken => ?_
  rw [bne_iff_ne]
  rintro rfl
  exact h htoken

theorem splitOn_append (h : conjunction ∉ tokens) (rest : List Bytes) :
    (tokens ++ conjunction :: rest).splitOn conjunction = tokens :: rest.splitOn conjunction := by
  induction tokens with
  | nil => simp [List.splitOn_cons_eq_if_modifyHead]
  | cons token tokens ih =>
    obtain ⟨hne, hrest⟩ := not_or.1 (List.mem_cons.not.1 h)
    rw [List.cons_append, List.splitOn_cons_eq_if_modifyHead, if_neg (by simpa using Ne.symm hne),
      ih hrest]
    rfl

/-- If the clauses up to the last one that is counted are read, they are all the clauses there are,
and each spells its condition. -/
theorem Clausal.spells {conditions : List Condition} (h : Clausal n args)
    (hread : List.Forall₂ (fun clause k => Condition.read clause = .ok k)
      ((args.splitOn conjunction).take (n + 1)) conditions) :
    List.Forall₂ Condition.Spells (args.splitOn conjunction) conditions := by
  induction h generalizing conditions with
  | @last tokens h =>
    rw [splitOn_eq_clauses, List.take_succ_cons, List.take_zero] at hread
    cases hread with
    | cons hfirst hnil =>
      cases hnil
      obtain ⟨hfree, hspells⟩ := h.spells (.inl rfl) (by rwa [List.append_nil])
      rw [splitOn_of_not_mem hfree]
      exact .cons hspells .nil
  | @more n tokens rest h _ ih =>
    have hfirst : ∃ k, Condition.read (firstClause (tokens ++ conjunction :: rest)) = .ok k := by
      rw [splitOn_eq_clauses, List.take_succ_cons] at hread
      cases hread with
      | cons hfirst _ => exact ⟨_, hfirst⟩
    obtain ⟨k, hk⟩ := hfirst
    obtain ⟨hfree, -⟩ := h.spells (.inr ⟨rest, rfl⟩) hk
    rw [splitOn_append hfree] at hread ⊢
    rw [List.take_succ_cons] at hread
    cases hread with
    | cons hclause hothers =>
      have halone := Condition.read_firstClause hclause
      rw [← List.append_nil tokens] at halone
      exact .cons (h.spells (.inl rfl) halone).2 (ih hothers)

theorem Clausal.le_count (h : Clausal n args) : n ≤ args.count conjunction := by
  induction h with
  | last _ => exact Nat.zero_le _
  | more _ _ ih =>
    rw [List.count_append, List.count_cons_self]
    omega

/-- The clauses of an If, as they are numbered for reading, spell the conditions read from them. -/
theorem Clausal.spells_clauses {conditions : List Condition} (h : Clausal n args)
    (hfirst : Condition.read args = .ok k)
    (hmore : List.Forall₂ (fun i k => Condition.read (clause args i) = .ok k) (List.range n)
      conditions) :
    List.Forall₂ Condition.Spells (args.splitOn conjunction) (k :: conditions) := by
  refine h.spells ?_
  have htake : (args.splitOn conjunction).take (n + 1) =
      firstClause args :: (List.range n).map (clause args) := by
    rw [splitOn_eq_clauses, List.take_succ_cons, ← List.map_take, List.take_range,
      Nat.min_eq_left h.le_count]
  rw [htake]
  exact .cons (Condition.read_firstClause hfirst) (List.forall₂_map_left_iff.2 hmore)

end Scope

end CheatScript
