import CheatScript.Proofs.CallArguments
import CheatScript.Proofs.DefinitionOrder
import CheatScript.Proofs.TrimmedText

/-!
# Proofs: arguments after names are replaced

Once the names in the arguments of a command are replaced, no argument names a variable that stands
for something, so a second replacement only takes off blanks after marks. The first replacement has
done so already, but for one place: the first token that a name without a mark stands for is taken
over as it is. So nothing is left to do exactly where no such token has blanks after its mark.
-/

namespace CheatScript

open Argument

/-! ## Marks -/

/-- Whether a `+` or `,` stands in front of a token. -/
def isMarked (token : Bytes) : Bool := hasMark Byte.plus token || hasMark Byte.comma token

/-- Whether blanks stand right after the mark of a token. -/
def isLoose (token : Bytes) : Bool := isMarked token && Space.trimStart token.tail != token.tail

section Marks

variable {token mark : Bytes} {c : UInt8}

theorem isMarked_cons (s : Bytes) : isMarked (c :: s) = true ↔ c = Byte.plus ∨ c = Byte.comma := by
  simp [isMarked, hasMark]

theorem splitMark_unmarked (h : isMarked token = false) : splitMark token = ([], token) := by
  cases token with
  | nil => rfl
  | cons c s =>
    have hc : ¬ (c = Byte.plus ∨ c = Byte.comma) := by
      rw [← isMarked_cons s, h]
      exact Bool.false_ne_true
    simp [splitMark, hc]

theorem splitMark_marked (h : isMarked token = true) :
    ∃ c s, token = c :: s ∧ isMarked [c] = true ∧ splitMark token = ([c], Space.trimStart s) := by
  cases token with
  | nil => cases h
  | cons c s =>
    have hc := (isMarked_cons s).1 h
    exact ⟨c, s, rfl, (isMarked_cons []).2 hc, by simp [splitMark, hc]⟩

theorem trimStart_of_isMarked (h : isMarked token = true) : Space.trimStart token = token := by
  refine Space.trimStart_of_head fun a ha => ?_
  obtain ⟨c, s, rfl, hc, -⟩ := splitMark_marked h
  obtain rfl : c = a := by simpa using ha
  rcases (isMarked_cons []).1 hc with rfl | rfl <;> decide

theorem tidyMark_eq_self_iff : tidyMark token = token ↔ isLoose token = false := by
  rw [tidyMark_eq]
  cases h : isMarked token with
  | false => simp [splitMark_unmarked h, isLoose, h]
  | true =>
    obtain ⟨c, s, rfl, -, hsplit⟩ := splitMark_marked h
    simp [hsplit, isLoose, h]

theorem map_tidyMark_eq_self_iff {tokens : List Bytes} :
    tokens.map tidyMark = tokens ↔ ∀ token ∈ tokens, isLoose token = false := by
  induction tokens with
  | nil => simp
  | cons token tokens ih =>
    rw [List.map_cons, List.cons.injEq, tidyMark_eq_self_iff, ih, List.forall_mem_cons]

theorem splitMark_tidyMark (token : Bytes) : splitMark (tidyMark token) = splitMark token := by
  rw [tidyMark_eq]
  cases h : isMarked token with
  | false => rw [splitMark_unmarked h, List.nil_append, splitMark_unmarked h]
  | true =>
    obtain ⟨c, s, rfl, hc, hsplit⟩ := splitMark_marked h
    have hc' := (isMarked_cons []).1 hc
    rw [hsplit, List.singleton_append]
    simp [splitMark, hc', Space.trimStart_trimStart]

theorem isLoose_tidyMark (token : Bytes) : isLoose (tidyMark token) = false := by
  rw [← tidyMark_eq_self_iff, tidyMark_eq, splitMark_tidyMark, ← tidyMark_eq]

/-- A mark in front of a token without white space in front makes the whole token a name. -/
theorem splitMark_append (h : isMarked mark = true) (hmark : mark.length = 1) {token : Bytes}
    (htoken : Space.trimStart token = token) : splitMark (mark ++ token) = (mark, token) := by
  obtain ⟨c, s, rfl, hc, -⟩ := splitMark_marked h
  obtain rfl : s = [] := by simpa using hmark
  have hc' := (isMarked_cons []).1 hc
  simp [splitMark, hc', htoken]

theorem mark_cases (token : Bytes) : (splitMark token).1 = [] ∧ (splitMark token).2 = token ∨
    isMarked (splitMark token).1 = true ∧ (splitMark token).1.length = 1 := by
  cases h : isMarked token with
  | false => exact .inl (by simp [splitMark_unmarked h])
  | true =>
    obtain ⟨c, s, -, hc, hsplit⟩ := splitMark_marked h
    exact .inr (by simp [hsplit, hc])

end Marks

/-! ## Names that stand for nothing -/

namespace DefinitionTable

variable {t : DefinitionTable} {k : Int} {active : List Bytes} {name token mark : Bytes}

/-- Whether a name stands for nothing, seen from a position. -/
def Idle (t : DefinitionTable) (k : Int) (name : Bytes) : Prop :=
  ∀ d, t.find? name k = some d → d.values = []

theorem idle_of_not_declares (h : t.declares name = false) : t.Idle k name := by
  intro d hfind
  rw [declares_of_find? hfind] at h
  cases h

theorem resolve_eq_nil_iff : t.resolve k active name = some [] ↔ name ∉ active ∧ t.Idle k name := by
  by_cases hactive : name ∈ active
  · simp [resolve_of_mem hactive, hactive]
  cases hseen : t.find? name k with
  | none => simp [resolve_unseen hactive hseen, hactive, Idle, hseen]
  | some d =>
    have hidle : t.Idle k name ↔ d.values = [] := by simp [Idle, hseen]
    rw [resolve_seen hactive hseen, hidle]
    refine ⟨fun h => ⟨hactive, ?_⟩, fun h => by simp [h.2]⟩
    obtain ⟨parts, hparts, hnil⟩ := Option.map_eq_some_iff.1 h
    -- every value leaves a token
    cases hvalues : d.values with
    | nil => rfl
    | cons value values =>
      rw [hvalues, List.mapM_cons] at hparts
      obtain ⟨first, hfirst, hrest⟩ := Option.bind_eq_some_iff.1 hparts
      obtain ⟨rest, -, hrest⟩ := Option.bind_eq_some_iff.1 hrest
      obtain rfl := Option.some.inj hrest
      exact absurd (List.append_eq_nil_iff.1 hnil).1 (replaceValue_ne_nil hfirst)

theorem expand_eq_nil_iff : t.expand name k = some [] ↔ t.Idle k name := by
  rw [expand_eq_resolve, resolve_eq_nil_iff]
  simp

/-! ## Expansions -/

/-- Whether no name of a table starts with a mark, and no value with white space. -/
structure Plain (t : DefinitionTable) : Prop where
  names : ∀ name, t.declares name = true → isMarked name = false
  values : ∀ name, ∀ d ∈ t.definitions name, ∀ value ∈ d.values, Space.trimStart value = value

theorem plain_ofList {ds : List Definition}
    (h : ∀ d ∈ ds, isMarked d.name = false ∧ ∀ value ∈ d.values, Space.trimStart value = value) :
    (ofList ds).Plain := by
  refine ⟨fun name hdeclares => ?_, fun name d hd => ?_⟩
  · obtain ⟨d, hd, rfl⟩ := declares_ofList.1 hdeclares
    exact (h d hd).1
  · have hmem := (arranges_definitions ds name).mem_iff.1 hd
    exact (h d (List.mem_filter.1 hmem).1).2

namespace Plain

/-- Whether a token has no white space in front, and the name in it stands for nothing. -/
def Settled (t : DefinitionTable) (k : Int) (token : Bytes) : Prop :=
  Space.trimStart token = token ∧ t.Idle k (splitMark token).2

/-- A token that takes over a mark stays settled. Behind the mark it is a name as a whole, and a
name has no mark. -/
theorem settled_append (ht : t.Plain) {arg : Bytes} (h : Settled t k token) :
    Settled t k ((splitMark arg).1 ++ token) := by
  rcases mark_cases arg with ⟨hnil, -⟩ | ⟨hmark, hlength⟩
  · rwa [hnil, List.nil_append]
  · have hsplit := splitMark_append hmark hlength h.1
    refine ⟨trimStart_of_isMarked ?_, ?_⟩
    · obtain ⟨c, s, heq, hc, -⟩ := splitMark_marked hmark
      rw [heq, List.cons_append, isMarked_cons]
      exact (isMarked_cons []).1 hc
    · rw [hsplit]
      cases hmarked : isMarked token with
      | false => simpa [splitMark_unmarked hmarked] using h.2
      | true =>
        refine idle_of_not_declares (Bool.eq_false_iff.2 fun hdeclares => ?_)
        rw [ht.names token hdeclares] at hmarked
        cases hmarked

theorem settled_replaceValue (ht : t.Plain) {value : Bytes} (hvalue : Space.trimStart value = value)
    {tokens? : Option (List Bytes)} {part : List Bytes}
    (hpart : t.replaceValue value tokens? = some part)
    (htokens : ∀ tokens ∈ tokens?, (tokens = [] → t.Idle k (splitMark value).2) ∧
      ∀ token ∈ tokens, Settled t k token) : ∀ token ∈ part, Settled t k token := by
  unfold replaceValue at hpart
  split at hpart
  · split at hpart
    · cases hpart
    · obtain rfl := Option.some.inj hpart
      exact List.forall_mem_singleton.2 ⟨hvalue, (htokens [] rfl).1 rfl⟩
    · rename_i tokens hne
      obtain rfl := Option.some.inj hpart
      cases tokens with
      | nil => exact absurd rfl hne
      | cons first rest =>
        obtain ⟨hfirst, hrest⟩ := List.forall_mem_cons.1 (htokens _ rfl).2
        exact List.forall_mem_cons.2 ⟨ht.settled_append hfirst, hrest⟩
  · rename_i hdeclares
    obtain rfl := Option.some.inj hpart
    exact List.forall_mem_singleton.2 ⟨hvalue, idle_of_not_declares (Bool.eq_false_iff.2 hdeclares)⟩

/-- By the recursion of the expansion: every token of an expansion is settled. -/
theorem settled_resolve (ht : t.Plain) {tokens : List Bytes}
    (h : t.resolve k active name = some tokens) : ∀ token ∈ tokens, Settled t k token := by
  induction active, name using resolve.induct t k generalizing tokens with
  | case1 active name hmem =>
    rw [resolve_of_mem hmem] at h
    cases h
  | case2 active name hactive hnone =>
    rw [resolve_unseen hactive hnone] at h
    obtain rfl := Option.some.inj h
    simp
  | case3 active name hactive d hseen ih =>
    rw [resolve_seen hactive hseen] at h
    obtain ⟨parts, hparts, rfl⟩ := Option.map_eq_some_iff.1 h
    obtain ⟨hflatten, hall⟩ := Outcome.flatten_of_mapM hparts
    intro token htoken
    rw [hflatten] at htoken
    obtain ⟨value, hvalue, htoken⟩ := List.mem_flatMap.1 htoken
    obtain ⟨part, hpart⟩ := hall value hvalue
    rw [hpart, Option.getD_some] at htoken
    have htight := ht.values name d (mem_definitions_of_find? hseen) value hvalue
    refine ht.settled_replaceValue htight hpart (fun tokens htokens => ⟨?_, ih _ htokens⟩)
      token htoken
    rintro rfl
    exact (resolve_eq_nil_iff.1 htokens).2

end Plain

/-! ## Substitution -/

section Substitution

variable {arg : Bytes} {part : List Bytes} {c c' : Command}

/-- The tokens for one argument by what its name stands for. -/
theorem substituteToken_eq_some (h : t.substituteToken k arg = some part) :
    t.Idle k (splitMark arg).2 ∧ part = [tidyMark arg] ∨
      ∃ first rest, t.expand (splitMark arg).2 k = some (first :: rest) ∧
        part = ((splitMark arg).1 ++ first) :: rest.map tidyMark := by
  unfold substituteToken at h
  simp only at h
  split at h
  · split at h
    · cases h
    · next hexpand => exact .inl ⟨expand_eq_nil_iff.1 hexpand, (Option.some.inj h).symm⟩
    · next first rest hexpand => exact .inr ⟨first, rest, hexpand, (Option.some.inj h).symm⟩
  · next hdeclares =>
    exact .inl ⟨idle_of_not_declares (Bool.eq_false_iff.2 hdeclares), (Option.some.inj h).symm⟩

theorem substituteToken_of_idle (h : t.Idle k (splitMark arg).2) :
    t.substituteToken k arg = some [tidyMark arg] := by
  unfold substituteToken
  simp only [expand_eq_nil_iff.2 h, ite_self]

theorem Plain.idle_substituteToken (ht : t.Plain) (h : t.substituteToken k arg = some part) :
    ∀ token ∈ part, t.Idle k (splitMark token).2 := by
  rcases substituteToken_eq_some h with ⟨hidle, rfl⟩ | ⟨first, rest, hexpand, rfl⟩
  · rw [List.forall_mem_singleton, splitMark_tidyMark]
    exact hidle
  · rw [expand_eq_resolve] at hexpand
    obtain ⟨hfirst, hrest⟩ := List.forall_mem_cons.1 (ht.settled_resolve hexpand)
    refine List.forall_mem_cons.2 ⟨(ht.settled_append hfirst).2, ?_⟩
    intro token htoken
    obtain ⟨value, hvalue, rfl⟩ := List.mem_map.1 htoken
    rw [splitMark_tidyMark]
    exact (hrest value hvalue).2

/-- Whether an argument, without a mark, names a variable whose first token has blanks after its
mark. -/
def opensLoose (t : DefinitionTable) (k : Int) (arg : Bytes) : Bool :=
  ((t.expand arg k).bind List.head?).any isLoose

theorem Plain.not_isLoose_substituteToken (ht : t.Plain) (h : t.substituteToken k arg = some part) :
    (∀ token ∈ part, isLoose token = false) ↔ t.opensLoose k arg = false := by
  have hmap (rest : List Bytes) : ∀ token ∈ rest.map tidyMark, isLoose token = false := by
    intro token htoken
    obtain ⟨value, -, rfl⟩ := List.mem_map.1 htoken
    exact isLoose_tidyMark value
  rcases mark_cases arg with ⟨hmark, hbare⟩ | ⟨hmark, hlength⟩
  · rcases substituteToken_eq_some h with ⟨hidle, rfl⟩ | ⟨first, rest, hexpand, rfl⟩
    · rw [hbare, ← expand_eq_nil_iff] at hidle
      simp [opensLoose, hidle, isLoose_tidyMark]
    · rw [hbare] at hexpand
      rw [hmark, List.nil_append, List.forall_mem_cons]
      simp [opensLoose, hexpand, isLoose_tidyMark]
  · -- a marked argument is no name, and its mark takes the place of the first token's
    have hname : t.expand arg k = some [] := by
      refine expand_eq_nil_iff.2 (idle_of_not_declares (Bool.eq_false_iff.2 fun hdeclares => ?_))
      rw [splitMark_unmarked (ht.names arg hdeclares)] at hmark
      cases hmark
    have hopens : t.opensLoose k arg = false := by simp [opensLoose, hname]
    refine iff_of_true ?_ hopens
    rcases substituteToken_eq_some h with ⟨-, rfl⟩ | ⟨first, rest, hexpand, rfl⟩
    · exact List.forall_mem_singleton.2 (isLoose_tidyMark arg)
    · rw [expand_eq_resolve] at hexpand
      have hfirst := (ht.settled_resolve hexpand first List.mem_cons_self).1
      refine List.forall_mem_cons.2 ⟨?_, hmap rest⟩
      rw [← tidyMark_eq_self_iff, tidyMark_eq, splitMark_append hmark hlength hfirst]

theorem substitute_eq_ok (h : t.substitute c = .ok c') :
    ∃ parts, c.args.mapM (t.substituteToken c.position) = some parts ∧
      c' = { c with args := parts.flatten } := by
  unfold substitute at h
  split at h
  · cases h
  · next parts hparts => exact ⟨parts, hparts, (Except.ok.inj h).symm⟩

/-- Where no argument names anything, only the blanks after the marks go. -/
theorem substitute_of_idle (h : ∀ token ∈ c.args, t.Idle c.position (splitMark token).2) :
    t.substitute c = .ok { c with args := c.args.map tidyMark } := by
  have hparts : c.args.mapM (t.substituteToken c.position) = some (c.args.map ([tidyMark ·])) :=
    Outcome.mapM_eq_some_map fun token htoken => substituteToken_of_idle (h token htoken)
  rw [substitute, hparts]
  simp only [← List.flatMap_def, ← List.map_eq_flatMap]

end Substitution

/-- **Names are replaced once and for all.** After a replacement no argument names a variable that
stands for something. No argument has blanks after its mark, and a second replacement changes
nothing, exactly if no argument was a name whose first token has blanks after its mark. -/
theorem substitute_settles_iff {t : DefinitionTable} {c c' : Command} (ht : t.Plain)
    (h : t.substitute c = .ok c') :
    (∀ token ∈ c'.args, t.expand (splitMark token).2 c.position = some []) ∧
      ((∀ token ∈ c'.args, isLoose token = false) ↔ ∀ arg ∈ c.args,
        t.opensLoose c.position arg = false) ∧
      (t.substitute c' = .ok c' ↔ ∀ arg ∈ c.args, t.opensLoose c.position arg = false) := by
  obtain ⟨parts, hparts, rfl⟩ := substitute_eq_ok h
  obtain ⟨hflatten, hall⟩ := Outcome.flatten_of_mapM hparts
  have hmem {P : Bytes → Prop} : (∀ token ∈ parts.flatten, P token) ↔
      ∀ arg ∈ c.args, ∀ part ∈ t.substituteToken c.position arg, ∀ token ∈ part, P token := by
    rw [hflatten, List.forall_mem_flatMap]
    refine forall₂_congr fun arg harg => ?_
    obtain ⟨part, hpart⟩ := hall arg harg
    simp [hpart]
  have hidle : ∀ token ∈ parts.flatten, t.Idle c.position (splitMark token).2 :=
    hmem.2 fun arg _ part hpart => ht.idle_substituteToken hpart
  have htight : (∀ token ∈ parts.flatten, isLoose token = false) ↔
      ∀ arg ∈ c.args, t.opensLoose c.position arg = false := by
    rw [hmem]
    refine forall₂_congr fun arg harg => ?_
    obtain ⟨part, hpart⟩ := hall arg harg
    rw [← ht.not_isLoose_substituteToken hpart, hpart]
    simp
  refine ⟨fun token htoken => expand_eq_nil_iff.2 (hidle token htoken), htight, ?_⟩
  rw [← htight, substitute_of_idle hidle, ← map_tidyMark_eq_self_iff]
  simp

/-- Of the values of `p` the second has blanks after its mark, and so has the argument that names
`x`; the name `late` is not seen yet. -/
theorem substitute_settles_offset :
    let t := ofList [⟨ascii "x", [ascii "5"], 0⟩, ⟨ascii "p", [ascii "0x100", ascii "+ 4"], 1⟩,
      ⟨ascii "late", [ascii "1"], 9⟩]
    let c := { Command.ofLine (ascii "Write32 p + x late") with position := 3 }
    let c' := { c with args := [ascii "0x100", ascii "+4", ascii "+5", ascii "late"] }
    t.substitute c = .ok c' ∧ t.substitute c' = .ok c' := by
  intro t c c'
  have ht : t.Plain := plain_ofList (by decide)
  have h : t.substitute c = .ok c' := by rfl
  exact ⟨h, (substitute_settles_iff ht h).2.2.2 (by decide)⟩

/-- The first value of `p` keeps the blank after its mark, until names are replaced a second
time. -/
theorem substitute_keeps_blank :
    let t := ofList [⟨ascii "p", [ascii "+ 4"], 0⟩]
    let c := { Command.ofLine (ascii "Write32 0x100 p 5") with position := 1 }
    let c' := { c with args := [ascii "0x100", ascii "+ 4", ascii "5"] }
    t.Plain ∧ t.substitute c = .ok c' ∧ isLoose (ascii "+ 4") = true ∧
    t.substitute c' ≠ .ok c' := by
  intro t c c'
  have hagain :
    t.substitute c' = .ok { c with args := [ascii "0x100", ascii "+4", ascii "5"] } := by rfl
  refine ⟨plain_ofList (by decide), by rfl, by decide, ?_⟩
  rw [hagain]
  intro heq
  have hargs := congrArg Command.args (Except.ok.inj heq)
  exact absurd hargs (by decide)

end DefinitionTable

end CheatScript
