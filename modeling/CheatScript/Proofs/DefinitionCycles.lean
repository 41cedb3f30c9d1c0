import CheatScript.Proofs.DefinitionLookup
import CheatScript.Proofs.Outcome
import Mathlib.Logic.Relation

/-!
# Proofs: cycles of definitions

Seen from a position, the definitions of a table form a graph: a name leads to the names among its
values. Expansion keeps the names on its way from the start, but not those it is done with, so it
may expand a name more than once. It fails exactly where the start leads to a name that leads back
to itself.
-/

namespace CheatScript.DefinitionTable

open Relation

variable {t : DefinitionTable} {k : Int} {active : List Bytes} {name : Bytes} {d : Definition}

/-- Whether the definition of a name that a position sees has another name that it sees among its
values, with or without a mark in front. -/
def Leads (t : DefinitionTable) (k : Int) (a b : Bytes) : Prop :=
  ∃ d, t.find? a k = some d ∧ (∃ token ∈ d.values, (splitMark token).2 = b) ∧ (t.find? b k).isSome

theorem not_leads_of_unseen (hnone : t.find? name k = none) (b : Bytes) : ¬ t.Leads k name b := by
  rintro ⟨d, hd, -⟩
  rw [hnone] at hd
  cases hd

/-- A name that is not on the way fails if it leads to one that fails. -/
theorem resolve_eq_none_step (h : OnTheWay t k active) (hactive : name ∉ active)
    (hseen : t.find? name k = some d) : t.resolve k active name = none ↔
      ∃ b, t.Leads k name b ∧ t.resolve k (active ++ [name]) b = none := by
  have hnext := h.append hactive hseen
  rw [resolve_seen hactive hseen, Option.map_eq_none_iff, Outcome.mapM_eq_none_iff]
  constructor
  · rintro ⟨token, htoken, hnone⟩
    obtain ⟨-, hnone⟩ := replaceValue_eq_none_iff.1 hnone
    refine ⟨(splitMark token).2, ⟨d, hseen, ⟨token, htoken, rfl⟩, ?_⟩, hnone⟩
    -- a name that is not seen stands for itself
    rw [Option.isSome_iff_ne_none]
    intro hunseen
    rw [resolve_unseen (hnext.unseen_not_mem hunseen) hunseen] at hnone
    cases hnone
  · rintro ⟨b, ⟨d', hseen', ⟨token, htoken, rfl⟩, hb⟩, hnone⟩
    obtain rfl := Option.some.inj (hseen.symm.trans hseen')
    obtain ⟨found, hfound⟩ := Option.isSome_iff_exists.1 hb
    exact ⟨token, htoken, replaceValue_eq_none_iff.2 ⟨declares_of_find? hfound, hnone⟩⟩

/-- Expansion fails where a name leads to one on the way or to one that leads back to itself. -/
theorem resolve_eq_none_iff (h : OnTheWay t k active) (name : Bytes) :
    t.resolve k active name = none ↔
      ∃ m, ReflTransGen (t.Leads k) name m ∧ (m ∈ active ∨ TransGen (t.Leads k) m m) := by
  induction active, name using resolve.induct t k with
  | case1 active name hmem =>
    exact ⟨fun _ => ⟨name, .refl, .inl hmem⟩, fun _ => resolve_of_mem hmem⟩
  | case2 active name hactive hnone =>
    -- the name leads nowhere
    have hself {m : Bytes} (hreach : ReflTransGen (t.Leads k) name m) : m = name := by
      rcases ReflTransGen.cases_head hreach with heq | ⟨b, hb, -⟩
      · exact heq.symm
      · exact absurd hb (not_leads_of_unseen hnone b)
    have hcycle : ¬ TransGen (t.Leads k) name name := by
      intro hcycle
      obtain ⟨b, hb, -⟩ := TransGen.head'_iff.1 hcycle
      exact not_leads_of_unseen hnone b hb
    rw [resolve_unseen hactive hnone]
    constructor
    · intro hfail
      cases hfail
    · rintro ⟨m, hreach, hend⟩
      obtain rfl := hself hreach
      exact absurd hend (not_or.2 ⟨hactive, hcycle⟩)
  | case3 active name hactive d hseen ih =>
    rw [resolve_eq_none_step h hactive hseen]
    constructor
    · rintro ⟨b, hb, hfail⟩
      obtain ⟨m, hreach, hend⟩ := (ih b (h.append hactive hseen)).1 hfail
      rcases hend with hmem | hcycle
      · rcases List.mem_append.1 hmem with hmem | hmem
        · exact ⟨m, .head hb hreach, .inl hmem⟩
        · -- the way comes back to the name itself
          obtain rfl := List.mem_singleton.1 hmem
          exact ⟨m, .refl, .inr (.head' hb hreach)⟩
      · exact ⟨m, .head hb hreach, .inr hcycle⟩
    · rintro ⟨m, hreach, hend⟩
      obtain ⟨b, hb, m, hreach, hend⟩ : ∃ b, t.Leads k name b ∧ ∃ m, ReflTransGen (t.Leads k) b m ∧
          (m ∈ active ++ [name] ∨ TransGen (t.Leads k) m m) := by
        rcases ReflTransGen.cases_head hreach with rfl | ⟨b, hb, hreach⟩
        · obtain ⟨b, hb, hback⟩ := TransGen.head'_iff.1 (hend.resolve_left hactive)
          exact ⟨b, hb, name, hback, .inl (by simp)⟩
        · exact ⟨b, hb, m, hreach, hend.imp_left (List.mem_append_left _)⟩
      exact ⟨b, hb, (ih b (h.append hactive hseen)).2 ⟨m, hreach, hend⟩⟩

/-- **Cycles are found exactly.** Expansion is a recursion that ends for every table, name and
position, and it fails if and only if a cycle can be reached from the name. -/
theorem expand_eq_none_iff_cycle (t : DefinitionTable) (name : Bytes) (k : Int) :
    t.expand name k = t.resolve k [] name ∧
      (t.expand name k = none ↔
        ∃ m, ReflTransGen (t.Leads k) name m ∧ TransGen (t.Leads k) m m) := by
  refine ⟨expand_eq_resolve t name k, ?_⟩
  rw [expand_eq_resolve, resolve_eq_none_iff .nil]
  simp

/-- Two names that share a third one form no cycle until the third leads back. -/
example :
    let t := ofList [⟨ascii "a", [ascii "b", ascii "+ c"], 0⟩, ⟨ascii "b", [ascii "d"], 1⟩,
      ⟨ascii "c", [ascii "d"], 2⟩, ⟨ascii "d", [ascii "1"], 3⟩, ⟨ascii "d", [ascii ",a"], 9⟩]
    t.expand (ascii "a") 8 = some [ascii "1", ascii "+1"] ∧ t.expand (ascii "a") 9 = none := by
  decide

end CheatScript.DefinitionTable
