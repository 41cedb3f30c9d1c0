import CheatScript.Journal
import Mathlib.Data.List.Forall2
import Mathlib.Logic.Relation

/-!
# Proofs: results that can fail

How a computation that can fail comes to a value or to a failure, step by step. The readers and the
passes of the compiler are chains of such computations, and some of the passes are loops.
-/

namespace CheatScript

namespace Outcome

variable {ε α β : Type}

/-- Two computations in a row give a value if both do. -/
theorem bind_eq_ok {x : Except ε α} {f : α → Except ε β} {b : β} :
    (x >>= f) = .ok b ↔ ∃ a, x = .ok a ∧ f a = .ok b := by
  cases x with
  | error e => simp [bind, Except.bind]
  | ok a => simp [bind, Except.bind]

/-- Two computations in a row fail if the first one does, or the second one after it. -/
theorem bind_eq_error {x : Except ε α} {f : α → Except ε β} {e : ε} :
    (x >>= f) = .error e ↔ x = .error e ∨ ∃ a, x = .ok a ∧ f a = .error e := by
  cases x with
  | error e => simp [bind, Except.bind]
  | ok a => simp [bind, Except.bind]

theorem bind_pure_eq_error {x : Except ε α} {f : α → β} {e : ε} :
    (x >>= fun a => pure (f a)) = .error e ↔ x = .error e := by
  cases x with
  | error e => simp [bind, Except.bind]
  | ok a => simp [bind, Except.bind, pure, Except.pure]

theorem pure_eq_ok {a b : α} : (pure a : Except ε α) = .ok b ↔ a = b := by
  simp [pure, Except.pure]

/-- A list of computations gives the list of their values. -/
theorem mapM_eq_ok {f : α → Except ε β} {l : List α} {bs : List β} :
    l.mapM f = .ok bs ↔ List.Forall₂ (fun a b => f a = .ok b) l bs := by
  induction l generalizing bs with
  | nil => cases bs <;> simp [pure, Except.pure]
  | cons a l ih =>
    rw [List.mapM_cons, bind_eq_ok]
    constructor
    · rintro ⟨b, hb, h⟩
      obtain ⟨bs', hbs, h⟩ := bind_eq_ok.1 h
      obtain rfl := pure_eq_ok.1 h
      exact .cons hb (ih.1 hbs)
    · intro h
      cases h with
      | cons hb hbs => exact ⟨_, hb, bind_eq_ok.2 ⟨_, ih.2 hbs, rfl⟩⟩

/-- In two lists that match entry by entry, every entry of the second has its partner in the
first. -/
theorem exists_of_mem_right {r : α → β → Prop} {l : List α} {bs : List β} (h : List.Forall₂ r l bs)
    {b : β} (hb : b ∈ bs) : ∃ a ∈ l, r a b := by
  induction h with
  | nil => cases hb
  | cons hfirst _ ih =>
    rcases List.mem_cons.1 hb with rfl | hmem
    · exact ⟨_, List.mem_cons_self, hfirst⟩
    · obtain ⟨a, ha, hab⟩ := ih hmem
      exact ⟨a, List.mem_cons_of_mem _ ha, hab⟩

theorem exists_of_mem_left {r : α → β → Prop} {l : List α} {bs : List β} (h : List.Forall₂ r l bs)
    {a : α} (ha : a ∈ l) : ∃ b ∈ bs, r a b :=
  exists_of_mem_right (r := flip r) h.flip ha

/-- Two lists that match a third one entry by entry match each other. -/
theorem forall₂_comp {γ : Type} {r : α → β → Prop} {q : β → γ → Prop} {p : α → γ → Prop}
    {l : List α} {bs : List β} {cs : List γ} (h : List.Forall₂ r l bs) (h' : List.Forall₂ q bs cs)
    (hcomp : ∀ a b c, r a b → q b c → p a c) : List.Forall₂ p l cs := by
  induction h generalizing cs with
  | nil =>
    cases h'
    exact .nil
  | cons hfirst _ ih =>
    cases h' with
    | cons hfirst' hrest => exact .cons (hcomp _ _ _ hfirst hfirst') (ih hrest)

theorem exists_of_mem_mapM {f : α → Except ε β} {l : List α} {bs : List β} {b : β}
    (h : l.mapM f = .ok bs) (hb : b ∈ bs) : ∃ a ∈ l, f a = .ok b :=
  exists_of_mem_right (mapM_eq_ok.1 h) hb

theorem exists_of_mapM_eq_error {f : α → Except ε β} {l : List α} {e : ε}
    (h : l.mapM f = .error e) : ∃ a ∈ l, f a = .error e := by
  induction l with
  | nil => cases h
  | cons a l ih =>
    rw [List.mapM_cons] at h
    rcases bind_eq_error.1 h with hfirst | ⟨b, -, hrest⟩
    · exact ⟨a, List.mem_cons_self, hfirst⟩
    · rcases bind_eq_error.1 hrest with hlater | ⟨bs, -, hpure⟩
      · obtain ⟨a', ha', hfa⟩ := ih hlater
        exact ⟨a', List.mem_cons_of_mem _ ha', hfa⟩
      · cases hpure

theorem mapM_eq_some_map {f : α → Option β} {g : α → β} {l : List α}
    (h : ∀ a ∈ l, f a = some (g a)) : l.mapM f = some (l.map g) := by
  induction l with
  | nil => rfl
  | cons a l ih =>
    obtain ⟨ha, hl⟩ := List.forall_mem_cons.1 h
    rw [List.mapM_cons, ha, ih hl]
    rfl

theorem mapM_eq_none_iff {f : α → Option β} {l : List α} :
    l.mapM f = none ↔ ∃ a ∈ l, f a = none := by
  induction l with
  | nil => simp
  | cons a l ih =>
    rw [List.mapM_cons, List.exists_mem_cons_iff, ← ih]
    cases f a with
    | none => simp
    | some b => cases l.mapM f <;> simp

/-- Parts that are there for every element are put together in order. -/
theorem flatten_of_mapM {f : α → Option (List β)} {l : List α} {parts : List (List β)}
    (h : l.mapM f = some parts) :
    parts.flatten = l.flatMap (fun a => (f a).getD []) ∧ ∀ a ∈ l, ∃ part, f a = some part := by
  induction l generalizing parts with
  | nil =>
    obtain rfl := Option.some.inj h
    exact ⟨rfl, by simp⟩
  | cons a l ih =>
    rw [List.mapM_cons] at h
    obtain ⟨part, ha, h⟩ := Option.bind_eq_some_iff.1 h
    obtain ⟨rest, hl, h⟩ := Option.bind_eq_some_iff.1 h
    obtain rfl := Option.some.inj h
    obtain ⟨hflatten, hall⟩ := ih hl
    refine ⟨?_, List.forall_mem_cons.2 ⟨⟨part, ha⟩, hall⟩⟩
    rw [List.flatten_cons, List.flatMap_cons, hflatten, ha]
    rfl

end Outcome

/-! ## Loops -/

namespace Loop

variable {σ ε : Type} {turn : σ → Option (Except ε σ)} {start a b : σ}

/-- Whether a loop comes from one state to another. A turn gives the next state or ends with a
failure; where there is no turn, the loop is done. -/
abbrev Run (turn : σ → Option (Except ε σ)) : σ → σ → Prop :=
  Relation.ReflTransGen fun now next => turn now = some (.ok next)

/-- A loop that comes to a state without a next one has no infinite run, because its turns are
determined by the state. -/
theorem acc_of_run (h : Run turn start a) (ha : ∀ next, turn a ≠ some (.ok next)) :
    Acc (fun next now => turn now = some (.ok next)) start := by
  induction h using Relation.ReflTransGen.head_induction_on with
  | refl => exact ⟨_, fun next hnext => absurd hnext (ha next)⟩
  | head hturn _ ih =>
    refine ⟨_, fun next hnext => ?_⟩
    obtain rfl := Except.ok.inj (Option.some.inj (hturn.symm.trans hnext))
    exact ih

/-- The state in which a loop stops is the only one. -/
theorem run_unique (ha : Run turn start a) (hb : Run turn start b)
    (hstop : ∀ next, turn a ≠ some (.ok next)) (hstop' : ∀ next, turn b ≠ some (.ok next)) :
    a = b := by
  have hunique : Relator.RightUnique fun now next => turn now = some (.ok next) := by
    intro now next next' h h'
    exact Except.ok.inj (Option.some.inj (h.symm.trans h'))
  rcases Relation.ReflTransGen.total_of_right_unique hunique ha hb with h | h
  · rcases Relation.ReflTransGen.cases_head h with heq | ⟨next, hnext, -⟩
    · exact heq
    · exact absurd hnext (hstop next)
  · rcases Relation.ReflTransGen.cases_head h with heq | ⟨next, hnext, -⟩
    · exact heq.symm
    · exact absurd hnext (hstop' next)

/-- What holds at the start of a loop and is kept by its turns holds as long as it runs. -/
theorem run_invariant {P : σ → Prop}
    (hstep : ∀ now next, P now → turn now = some (.ok next) → P next) (hstart : P start)
    (h : Run turn start a) : P a := by
  induction h with
  | refl => exact hstart
  | tail _ hturn ih => exact hstep _ _ ih hturn

/-- What a loop comes to: the state in which it is done, or the failure of its last turn. A loop
that goes on for ever comes to nothing. -/
inductive Ends (turn : σ → Option (Except ε σ)) (start : σ) : Except ε σ → Prop
  /-- No turn is left. -/
  | done {last : σ} (hrun : Run turn start last) (hdone : turn last = none) :
    Ends turn start (.ok last)
  /-- A turn fails. -/
  | failed {last : σ} {e : ε} (hrun : Run turn start last) (hfail : turn last = some (.error e)) :
      Ends turn start (.error e)

/-- A loop comes to one thing at most. -/
theorem Ends.unique {r r' : Except ε σ} (h : Ends turn start r) (h' : Ends turn start r') :
    r = r' := by
  cases h with
  | done hrun hdone => cases h' with
    | done hrun' hdone' => rw [run_unique hrun hrun' (by simp [hdone]) (by simp [hdone'])]
    | failed hrun' hfail =>
      rw [run_unique hrun hrun' (by simp [hdone]) (by simp [hfail]), hfail] at hdone
      cases hdone
  | failed hrun hfail => cases h' with
    | done hrun' hdone =>
      rw [run_unique hrun hrun' (by simp [hfail]) (by simp [hdone]), hdone] at hfail
      cases hfail
    | failed hrun' hfail' =>
      rw [run_unique hrun hrun' (by simp [hfail]) (by simp [hfail']), hfail'] at hfail
      cases hfail
      rfl

/-- A loop comes to what it comes to after its first turn. -/
theorem Ends.head {next : σ} {r : Except ε σ} (hturn : turn start = some (.ok next))
    (h : Ends turn next r) : Ends turn start r := by
  cases h with
  | done hrun hdone => exact .done (hrun.head hturn) hdone
  | failed hrun hfail => exact .failed (hrun.head hturn) hfail

/-- What holds at the start of a loop and is kept by its turns holds at its end. -/
theorem Ends.invariant {P : σ → Prop} {Q : ε → Prop} {r : Except ε σ}
    (hstep : ∀ now next, P now → turn now = some (.ok next) → P next)
    (hfail : ∀ now e, P now → turn now = some (.error e) → Q e) (hstart : P start)
    (h : Ends turn start r) : (∀ last, r = .ok last → P last) ∧ ∀ e, r = .error e → Q e := by
  cases h with
  | done hlast _ =>
    refine ⟨?_, ?_⟩
    · rintro _ ⟨⟩
      exact run_invariant hstep hstart hlast
    · rintro _ ⟨⟩
  | failed hlast hturn =>
    refine ⟨?_, ?_⟩
    · rintro _ ⟨⟩
    · rintro _ ⟨⟩
      exact hfail _ _ (run_invariant hstep hstart hlast) hturn

/-- A loop that always has a next turn comes to nothing. -/
theorem not_ends {P : σ → Prop}
    (hstep : ∀ now, P now → ∃ next, turn now = some (.ok next) ∧ P next) (hstart : P start)
    (r : Except ε σ) : ¬ Ends turn start r := by
  have hkept : ∀ now next, P now → turn now = some (.ok next) → P next := by
    intro now next hnow hturn
    obtain ⟨next', hnext, hP⟩ := hstep now hnow
    obtain rfl := Except.ok.inj (Option.some.inj (hturn.symm.trans hnext))
    exact hP
  intro h
  cases h with
  | done hrun hdone =>
    obtain ⟨next, hnext, -⟩ := hstep _ (run_invariant hkept hstart hrun)
    cases hdone.symm.trans hnext
  | failed hrun hfail =>
    obtain ⟨next, hnext, -⟩ := hstep _ (run_invariant hkept hstart hrun)
    cases hfail.symm.trans hnext

end Loop

/-! ## Results in a row

A pass that is a loop is described by what it comes to, and it may come to nothing. -/

namespace Outcome

variable {ε α β : Type} {first : Except ε α → Prop} {next : α → Except ε β → Prop}

/-- What two passes in a row come to: the failure of the first, or what the second comes to after
it. -/
def Then (first : Except ε α → Prop) (next : α → Except ε β → Prop) (r : Except ε β) : Prop :=
  (∃ e, first (.error e) ∧ r = .error e) ∨ ∃ a, first (.ok a) ∧ next a r

theorem Then.unique {r r' : Except ε β} (hfirst : ∀ x y, first x → first y → x = y)
    (hnext : ∀ a x y, next a x → next a y → x = y) (h : Then first next r)
    (h' : Then first next r') : r = r' := by
  rcases h with ⟨e, he, rfl⟩ | ⟨a, ha, hr⟩
  · rcases h' with ⟨e', he', rfl⟩ | ⟨a, ha, -⟩
    · obtain rfl := Except.error.inj (hfirst _ _ he he')
      rfl
    · cases hfirst _ _ he ha
  · rcases h' with ⟨e', he', -⟩ | ⟨a', ha', hr'⟩
    · cases hfirst _ _ ha he'
    · obtain rfl := Except.ok.inj (hfirst _ _ ha ha')
      exact hnext a _ _ hr hr'

theorem then_ok_iff {b : β} : Then first next (.ok b) ↔ ∃ a, first (.ok a) ∧ next a (.ok b) := by
  constructor
  · rintro (⟨e, -, he⟩ | h)
    · cases he
    · exact h
  · exact .inr

/-- A pass that is a function comes to its result. -/
theorem then_eq_error {x : Except ε α} {e : ε} (hx : x = .error e) (r : Except ε β) :
    Then (· = x) next r ↔ r = .error e := by
  subst hx
  constructor
  · rintro (⟨e', he, rfl⟩ | ⟨a, ha, -⟩)
    · rw [Except.error.inj he]
    · cases ha
  · rintro rfl
    exact .inl ⟨e, rfl, rfl⟩

theorem then_eq_ok {x : Except ε α} {a : α} (hx : x = .ok a) (r : Except ε β) :
    Then (· = x) next r ↔ next a r := by
  subst hx
  constructor
  · rintro (⟨e, he, -⟩ | ⟨b, hb, h⟩)
    · cases he
    · obtain rfl := Except.ok.inj hb
      exact h
  · intro h
    exact .inr ⟨a, rfl, h⟩

end Outcome

/-! ## Blame and stages -/

/-- Results that agree: the same failure, or related values. -/
inductive Agree {α β : Type} (R : α → β → Prop) : Except Failure α → Except Failure β → Prop
  | ok {a : α} {b : β} (h : R a b) : Agree R (.ok a) (.ok b)
  | error (f : Failure) : Agree R (.error f) (.error f)

theorem Agree.of_error_left {α β : Type} {R : α → β → Prop} {f : Failure} {y : Except Failure β}
    (h : Agree R (.error f) y) : y = .error f := by
  cases h
  rfl

theorem Agree.of_ok_left {α β : Type} {R : α → β → Prop} {a : α} {y : Except Failure β}
    (h : Agree R (.ok a) y) : ∃ b, y = .ok b ∧ R a b := by
  cases h with
  | ok hab => exact ⟨_, rfl, hab⟩

theorem Agree.map {α β γ δ : Type} {R : α → β → Prop} {S : γ → δ → Prop} {x : Except Failure α}
    {y : Except Failure β} {f : α → γ} {g : β → δ} (h : Agree R x y)
    (hmap : ∀ a b, R a b → S (f a) (g b)) : Agree S (x.map f) (y.map g) := by
  cases h with
  | ok hab => exact .ok (hmap _ _ hab)
  | error e => exact .error e

theorem Agree.bind {α β γ δ : Type} {R : α → β → Prop} {S : γ → δ → Prop} {x : Except Failure α}
    {y : Except Failure β} {f : α → Except Failure γ} {g : β → Except Failure δ} (h : Agree R x y)
    (hnext : ∀ a b, R a b → Agree S (f a) (g b)) : Agree S (x >>= f) (y >>= g) := by
  cases h with
  | ok hab => exact hnext _ _ hab
  | error e => exact .error e

theorem Agree.of_eq {α : Type} {x y : Except Failure α} (h : x = y) : Agree (· = ·) x y := by
  subst h
  cases x with
  | ok a => exact .ok rfl
  | error e => exact .error e

theorem Agree.mapM {α β γ : Type} {R : β → γ → Prop} {f : α → Except Failure β}
    {g : α → Except Failure γ} (l : List α) (h : ∀ a ∈ l, Agree R (f a) (g a)) :
    Agree (List.Forall₂ R) (l.mapM f) (l.mapM g) := by
  induction l with
  | nil => exact .ok .nil
  | cons a l ih =>
    obtain ⟨ha, hl⟩ := List.forall_mem_cons.1 h
    rw [List.mapM_cons, List.mapM_cons]
    refine ha.bind fun b c hbc => (ih hl).bind fun bs cs hrest => ?_
    exact .ok (.cons hbc hrest)

theorem Command.blame_eq_ok {α : Type} {c : Command} {r : Except Fault α} {a : α} :
    c.blame r = .ok a ↔ r = .ok a := by
  cases r <;> simp [Command.blame]

/-- The result of two stages in a row is that of the computations in them. -/
theorem Stage.bind_result {α β : Type} (s : Stage α) (f : α → Stage β) :
    (s >>= f).result = s.result >>= fun a => (f a).result := by
  obtain ⟨journal, result⟩ := s
  cases result <;> rfl

theorem Agree.bind_stage {α β γ δ : Type} {R : α → β → Prop} {S : γ → δ → Prop} {x : Stage α}
    {y : Stage β} {f : α → Stage γ} {g : β → Stage δ} (h : Agree R x.result y.result)
    (hnext : ∀ a b, R a b → Agree S (f a).result (g b).result) :
    Agree S (x >>= f).result (y >>= g).result := by
  rw [Stage.bind_result, Stage.bind_result]
  exact h.bind hnext

/-- Two stages in a row give a value if both do. -/
theorem Stage.bind_result_eq_ok {α β : Type} {s : Stage α} {f : α → Stage β} {b : β} :
    (s >>= f).result = .ok b ↔ ∃ a, s.result = .ok a ∧ (f a).result = .ok b := by
  rw [Stage.bind_result, Outcome.bind_eq_ok]

/-- Two stages in a row fail if the first one does, or the second one after it. -/
theorem Stage.bind_result_eq_error {α β : Type} {s : Stage α} {f : α → Stage β} {e : Failure} :
    (s >>= f).result = .error e ↔
      s.result = .error e ∨ ∃ a, s.result = .ok a ∧ (f a).result = .error e := by
  rw [Stage.bind_result, Outcome.bind_eq_error]

theorem Stage.pure_result_eq_ok {α : Type} {a b : α} :
    (pure a : Stage α).result = .ok b ↔ a = b := by
  simp [pure, Stage.give]

/-! ## What is given and who is blamed -/

/-- Whether a computation gives something good or else blames a command with a property. -/
def Yields {α : Type} (good : α → Prop) (blamed : Command → Prop) (r : Except Failure α) : Prop :=
  (∀ a, r = .ok a → good a) ∧ ∀ f, r = .error f → blamed f.command

/-- Whether a computation gives commands with a property or else blames one. -/
abbrev YieldsAll (S : Command → Prop) (r : Except Failure (List Command)) : Prop :=
  Yields (fun out => ∀ c ∈ out, S c) S r

namespace Yields

variable {α β : Type} {good : α → Prop} {good' : β → Prop} {blamed : Command → Prop} {c : Command}

theorem ok {a : α} (h : good a) : Yields good blamed (.ok a) := by
  refine ⟨?_, ?_⟩
  · rintro _ ⟨⟩
    exact h
  · rintro _ ⟨⟩

theorem refuse {kind : Fault} (h : blamed c) : Yields good blamed (c.refuse kind) := by
  refine ⟨?_, ?_⟩
  · rintro _ ⟨⟩
  · rintro _ ⟨⟩
    exact h

theorem blame {r : Except Fault α} (h : blamed c) (hgood : ∀ a, r = .ok a → good a) :
    Yields good blamed (c.blame r) := by
  cases r with
  | ok a => exact ok (hgood a rfl)
  | error kind => exact refuse h

theorem bind {x : Except Failure α} {f : α → Except Failure β} (hx : Yields good blamed x)
    (hf : ∀ a, good a → Yields good' blamed (f a)) : Yields good' blamed (x >>= f) := by
  cases x with
  | ok a => exact hf a (hx.1 a rfl)
  | error failure => exact ⟨by rintro _ ⟨⟩, by rintro _ ⟨⟩; exact hx.2 failure rfl⟩

theorem of_then {first : Except Failure α → Prop} {next : α → Except Failure β → Prop}
    {r : Except Failure β} (hfirst : ∀ x, first x → Yields good blamed x)
    (hnext : ∀ a, good a → ∀ y, next a y → Yields good' blamed y) (h : Outcome.Then first next r) :
    Yields good' blamed r := by
  rcases h with ⟨e, he, rfl⟩ | ⟨a, ha, hr⟩
  · exact ⟨by rintro _ ⟨⟩, by rintro _ ⟨⟩; exact (hfirst _ he).2 e rfl⟩
  · exact hnext a ((hfirst _ ha).1 a rfl) r hr

theorem map {x : Except Failure α} {f : α → β} (hx : Yields good blamed x)
    (hf : ∀ a, good a → good' (f a)) : Yields good' blamed (x.map f) := by
  cases x with
  | ok a => exact ok (hf a (hx.1 a rfl))
  | error failure => exact ⟨by rintro _ ⟨⟩, by rintro _ ⟨⟩; exact hx.2 failure rfl⟩

theorem bind_stage {s : Stage α} {f : α → Stage β} (hs : Yields good blamed s.result)
    (hf : ∀ a, good a → Yields good' blamed (f a).result) :
    Yields good' blamed (s >>= f).result := by
  rw [Stage.bind_result]
  exact hs.bind hf

theorem note {e : Event} {s : Stage α} (h : Yields good blamed s.result) :
    Yields good blamed (Stage.note e >>= fun _ => s).result := h

theorem mapM {f : α → Except Failure β} {l : List α} (h : ∀ a ∈ l, Yields good' blamed (f a)) :
    Yields (fun bs => ∀ b ∈ bs, good' b) blamed (l.mapM f) := by
  induction l with
  | nil => exact ok (by simp)
  | cons a l ih =>
    obtain ⟨ha, hl⟩ := List.forall_mem_cons.1 h
    rw [List.mapM_cons]
    refine ha.bind fun b hb => (ih hl).bind fun bs hbs => ?_
    exact ok (List.forall_mem_cons.2 ⟨hb, hbs⟩)

/-- What agrees with a result gives something related to what is given, and blames the same
command. -/
theorem of_agree {R : α → β → Prop} {x : Except Failure α} {y : Except Failure β}
    (hx : Yields good blamed x) (h : Agree R x y) :
    Yields (fun b => ∃ a, R a b ∧ good a) blamed y := by
  cases h with
  | ok hab => exact ok ⟨_, hab, hx.1 _ rfl⟩
  | error e => exact ⟨by rintro _ ⟨⟩, by rintro _ ⟨⟩; exact hx.2 e rfl⟩

/-- What the turns of a loop keep holds of what the loop comes to. -/
theorem of_ends {turn : α → Option (Except Failure α)} {start : α} {r : Except Failure α}
    (hturn : ∀ now x, good now → turn now = some x → Yields good blamed x) (hstart : good start)
    (h : Loop.Ends turn start r) : Yields good blamed r :=
  h.invariant (Q := fun f : Failure => blamed f.command)
    (fun _ _ hnow hok => (hturn _ _ hnow hok).1 _ rfl)
    (fun _ _ hnow herror => (hturn _ _ hnow herror).2 _ rfl) hstart

theorem foldlM {f : β → α → Except Failure β} {l : List α} {b : β} (hb : good' b)
    (h : ∀ b, good' b → ∀ a ∈ l, Yields good' blamed (f b a)) :
    Yields good' blamed (l.foldlM f b) := by
  induction l generalizing b with
  | nil => exact ok hb
  | cons a l ih =>
    rw [List.foldlM_cons]
    refine (h b hb a List.mem_cons_self).bind fun next hnext => ?_
    exact ih hnext fun b hb a ha => h b hb a (List.mem_cons_of_mem _ ha)

end Yields

end CheatScript
