import CheatScript.Compile
import CheatScript.Proofs.DefinitionLookup
import CheatScript.Proofs.Outcome
import Mathlib.Data.Finset.Card

/-!
# Proofs: definitions take effect in order

A script can be read from left to right with an environment of the definitions met so far: a `Set`
changes the environment, every other command is rewritten with the environment at that point. The
compiler instead collects all definitions of the script in one table first and looks names up by
position. Both readings agree, in the commands they give and in the command they blame for a cycle,
so a definition has no effect on a command before it.
-/

namespace CheatScript

/-! ## Reading with an environment -/

/-- What the names defined so far stand for. A later definition of a name stands in front of an
earlier one, so looking a name up finds the latest. -/
abbrev Environment := List (Bytes × List Bytes)

namespace Environment

/-- One more name on the way leaves fewer names that may still come. -/
theorem card_unresolved_lt {env : Environment} {active : List Bytes} {name : Bytes}
    {values : List Bytes} (hactive : name ∉ active) (hbound : env.lookup name = some values) :
    ((env.map Prod.fst).toFinset \ (name :: active).toFinset).card <
      ((env.map Prod.fst).toFinset \ active.toFinset).card := by
  obtain ⟨l₁, l₂, hsplit, -⟩ := List.lookup_eq_some_iff.1 hbound
  have hname : name ∈ env.map Prod.fst := by
    rw [hsplit]
    simp
  exact DefinitionTable.card_rest_lt hname hactive (by simp)

/-- The environment after a definition. -/
def define (env : Environment) (c : Command) : Environment := match c.args with
  | [] => env
  | name :: values => (name, values) :: env

/-- The tokens a name stands for; none if a name on the way leads back to one of `active`. -/
def resolve (env : Environment) (active : List Bytes) (name : Bytes) : Option (List Bytes) :=
  if name ∈ active then none
  else match _hbound : env.lookup name with
    | none => some []
    | some values =>
      (values.mapM fun token =>
        let (mark, bare) := splitMark token
        match env.lookup bare with
        | none => some [token]
        | some _ => (resolve env (name :: active) bare).map (markFirst mark)).map List.flatten
termination_by ((env.map Prod.fst).toFinset \ active.toFinset).card
decreasing_by exact card_unresolved_lt ‹name ∉ active› ‹env.lookup name = some values›

theorem resolve_of_mem {env : Environment} {active : List Bytes} {name : Bytes}
    (h : name ∈ active) : env.resolve active name = none := by
  rw [resolve, if_pos h]

theorem resolve_undefined {env : Environment} {active : List Bytes} {name : Bytes}
    (h : name ∉ active) (hnone : env.lookup name = none) : env.resolve active name = some [] := by
  rw [resolve, if_neg h]
  split
  · rfl
  · simp_all

theorem resolve_defined {env : Environment} {active : List Bytes} {name : Bytes}
    {values : List Bytes} (h : name ∉ active) (hsome : env.lookup name = some values) :
    env.resolve active name = (values.mapM fun token => match env.lookup (splitMark token).2 with
      | none => some [token]
      | some _ => (env.resolve (name :: active) (splitMark token).2).map
          (markFirst (splitMark token).1)).map List.flatten := by
  rw [resolve, if_neg h]
  split
  · simp_all
  · simp_all

/-- The tokens that take the place of one argument; none for a cycle. -/
def substituteToken (env : Environment) (token : Bytes) : Option (List Bytes) :=
  let (mark, bare) := splitMark token
  match env.lookup bare with
  | none => some [tidyMark token]
  | some _ => (env.resolve [] bare).map fun tokens => match tokens with
    | [] => []
    | first :: rest => (mark ++ first) :: rest.map tidyMark

/-- The command with every argument that names a variable replaced by its values. -/
def substitute (env : Environment) (c : Command) : Except Failure Command :=
  match c.args.mapM env.substituteToken with
  | none => .error ⟨.setStackOverflow, c⟩
  | some args => .ok { c with args := args.flatten }

/-- Reads commands from left to right: a definition changes the environment and goes away, every
other command is rewritten in the environment it meets; the first cycle ends the reading. -/
def interpret (env : Environment) : List Command → Except Failure (List Command)
  | [] => .ok []
  | c :: cmds =>
    if c.name = ascii "SET" then interpret (env.define c) cmds
    else do
      let c ← env.substitute c
      let cmds ← interpret env cmds
      return c :: cmds

/-- The environment that reading commands leaves behind. -/
def after (env : Environment) (cmds : List Command) : Environment :=
  cmds.foldl (fun env c => if c.name = ascii "SET" then env.define c else env) env

end Environment

/-! ## A table and an environment that agree -/

/-- A position of a script sees in the table what the environment holds, and no name stands for
nothing. -/
structure Sees (t : DefinitionTable) (k : Int) (env : Environment) : Prop where
  lookup_eq : ∀ name, env.lookup name = (t.find? name k).map (·.values)
  values_ne_nil : ∀ name values, env.lookup name = some values → values ≠ []

namespace Sees

variable {t : DefinitionTable} {k : Int} {env : Environment}

theorem lookup_eq_none (h : Sees t k env) {name : Bytes} (hnone : t.find? name k = none) :
    env.lookup name = none := by
  rw [h.lookup_eq, hnone]
  rfl

theorem lookup_eq_some (h : Sees t k env) {name : Bytes} {d : Definition}
    (hsome : t.find? name k = some d) : env.lookup name = some d.values := by
  rw [h.lookup_eq, hsome]
  rfl

theorem find?_values_ne_nil (h : Sees t k env) (name : Bytes) (d : Definition)
    (hsome : t.find? name k = some d) : d.values ≠ [] :=
  h.values_ne_nil name d.values (h.lookup_eq_some hsome)

/-- One value token: a name that is declared, but only later, stands for itself. -/
theorem value_eq (h : Sees t k env) {active path : List Bytes} (token : Bytes)
    (hway : DefinitionTable.OnTheWay t k active)
    (hbare : t.resolve k active (splitMark token).2 = env.resolve path (splitMark token).2) :
    t.replaceValue token (t.resolve k active (splitMark token).2) =
      match env.lookup (splitMark token).2 with
      | none => some [token]
      | some _ => (env.resolve path (splitMark token).2).map (markFirst (splitMark token).1) := by
  unfold DefinitionTable.replaceValue
  cases hfind : t.find? (splitMark token).2 k with
  | none =>
    rw [h.lookup_eq_none hfind, DefinitionTable.resolve_unseen (hway.unseen_not_mem hfind) hfind]
    simp
  | some d =>
    rw [h.lookup_eq_some hfind, DefinitionTable.declares_of_find? hfind, hbare]
    cases hres : env.resolve path (splitMark token).2 with
    | none => rfl
    | some tokens =>
      have hne := DefinitionTable.resolve_ne_nil h.find?_values_ne_nil (hbare.trans hres) hfind
      obtain ⟨first, rest, rfl⟩ := List.exists_cons_of_ne_nil hne
      rfl

/-- The names on the way are kept in another order by the two. -/
theorem resolve_eq (h : Sees t k env) {active path : List Bytes} (name : Bytes)
    (hsame : ∀ n, n ∈ path ↔ n ∈ active) (hway : DefinitionTable.OnTheWay t k active) :
    t.resolve k active name = env.resolve path name := by
  induction active, name using DefinitionTable.resolve.induct t k generalizing path with
  | case1 active name hactive =>
    rw [DefinitionTable.resolve_of_mem hactive, Environment.resolve_of_mem ((hsame name).2 hactive)]
  | case2 active name hactive hfind =>
    rw [DefinitionTable.resolve_unseen hactive hfind,
      Environment.resolve_undefined ((hsame name).not.2 hactive) (h.lookup_eq_none hfind)]
  | case3 active name hactive d hfind ih =>
    have hnext := hway.append hactive hfind
    rw [DefinitionTable.resolve_seen hactive hfind,
      Environment.resolve_defined ((hsame name).not.2 hactive) (h.lookup_eq_some hfind)]
    congr 2
    funext token
    exact h.value_eq token hnext (ih _ (by simp [hsame, or_comm]) hnext)

/-- A command is rewritten alike. -/
theorem substitute_eq {c : Command} (h : Sees t c.position env) :
    t.substitute c = env.substitute c := by
  have htoken : t.substituteToken c.position = env.substituteToken := by
    funext token
    have hbare := h.resolve_eq (splitMark token).2 (fun n => Iff.rfl) .nil
    unfold DefinitionTable.substituteToken Environment.substituteToken
    simp only [DefinitionTable.expand_eq_resolve]
    cases hfind : t.find? (splitMark token).2 c.position with
    | none =>
      simp only [h.lookup_eq_none hfind, DefinitionTable.resolve_unseen List.not_mem_nil hfind]
      simp
    | some d =>
      simp only [h.lookup_eq_some hfind, DefinitionTable.declares_of_find? hfind, if_true, hbare]
      cases hres : env.resolve [] (splitMark token).2 with
      | none => rfl
      | some tokens =>
        have hne := DefinitionTable.resolve_ne_nil h.find?_values_ne_nil (hbare.trans hres) hfind
        obtain ⟨first, rest, rfl⟩ := List.exists_cons_of_ne_nil hne
        rfl
  have hargs : c.args.mapM (t.substituteToken c.position) = c.args.mapM env.substituteToken := by
    rw [htoken]
  cases hnew : c.args.mapM env.substituteToken with
  | none => simp only [DefinitionTable.substitute, Environment.substitute, hargs, hnew]
  | some args => simp only [DefinitionTable.substitute, Environment.substitute, hargs, hnew]

end Sees

/-! ## The definitions of a script -/

/-- The definition a `Set` with a name makes. -/
def Definition.ofSet (c : Command) : Definition := ⟨c.args.headD [], c.args.tail, c.position⟩

/-- The definitions of a list of commands, in order. -/
def Definition.allOf (cmds : List Command) : List Definition :=
  (cmds.filter (·.name == ascii "SET")).map Definition.ofSet

/-- Every `Set` has a name and at least one value. -/
def SetsComplete (cmds : List Command) : Prop :=
  ∀ c ∈ cmds, c.name = ascii "SET" → 2 ≤ c.args.length

namespace Definition

theorem allOf_append (earlier later : List Command) :
    allOf (earlier ++ later) = allOf earlier ++ allOf later := by
  simp [allOf]

theorem allOf_set {c : Command} (h : c.name = ascii "SET") : allOf [c] = [ofSet c] := by
  simp [allOf, h]

theorem allOf_other {c : Command} (h : c.name ≠ ascii "SET") : allOf [c] = [] := by
  simp [allOf, h]

theorem mem_allOf {cmds : List Command} {d : Definition} :
    d ∈ allOf cmds ↔ ∃ c ∈ cmds, c.name = ascii "SET" ∧ ofSet c = d := by
  simp [allOf, and_assoc]

theorem pairwise_allOf {cmds : List Command}
    (h : cmds.Pairwise (fun c c' => c.position < c'.position)) :
    (allOf cmds).Pairwise (fun d e => d.position < e.position) :=
  List.pairwise_map.2 (h.filter _)

end Definition

theorem DefinitionTable.collect_eq {cmds : List Command} (h : SetsComplete cmds) :
    DefinitionTable.collect cmds =
      .ok (DefinitionTable.ofList (Definition.allOf cmds),
        cmds.filter (·.name != ascii "SET")) := by
  have hsets : (cmds.filter (·.name == ascii "SET")).mapM DefinitionTable.ofCommand =
      .ok (Definition.allOf cmds) := by
    refine Outcome.mapM_eq_ok.2 (List.forall₂_map_right_iff.2 (List.forall₂_same.2 ?_))
    intro c hc
    obtain ⟨hmem, hname⟩ := List.mem_filter.1 hc
    have hlen := h c hmem (by simpa using hname)
    unfold DefinitionTable.ofCommand Definition.ofSet
    match hargs : c.args with
    | [] | [_] => simp [hargs] at hlen
    | name :: value :: values => rfl
  unfold DefinitionTable.collect
  rw [hsets]
  rfl

namespace Environment

theorem after_append_singleton (cmds : List Command) (c : Command) :
    after [] (cmds ++ [c]) =
      if c.name = ascii "SET" then (after [] cmds).define c else after [] cmds := by
  simp [after]

/-- After a list of commands a name stands for what its last definition says. -/
theorem lookup_after {cmds : List Command} (h : SetsComplete cmds) (name : Bytes) :
    (after [] cmds).lookup name =
      ((Definition.allOf cmds).filter (fun d => decide (name = d.name))).getLast?.map
      (·.values) := by
  induction cmds using List.reverseRecOn with
  | nil => rfl
  | append_singleton cmds c ih =>
    have ih := ih (fun c' hc' => h c' (List.mem_append_left _ hc'))
    rw [after_append_singleton, Definition.allOf_append, List.filter_append]
    by_cases hset : c.name = ascii "SET"
    · have hlen := h c (by simp) hset
      rw [if_pos hset, Definition.allOf_set hset]
      match hargs : c.args with
      | [] => simp [hargs] at hlen
      | key :: values =>
        by_cases hkey : name = key
        · simp [define, Definition.ofSet, hargs, hkey]
        · simp [define, Definition.ofSet, hargs, hkey, List.lookup_cons,
            beq_eq_false_iff_ne.2 hkey, ih]
    · rw [if_neg hset, Definition.allOf_other hset, ih]
      simp

end Environment

/-- The definitions not after a command that is none itself are those of the commands before it. -/
theorem Definition.filter_allOf {earlier later : List Command} {c : Command}
    (hpos : (earlier ++ c :: later).Pairwise (fun c c' => c.position < c'.position))
    (hc : c.name ≠ ascii "SET") :
    (Definition.allOf (earlier ++ c :: later)).filter (fun d => decide (d.position ≤ c.position)) =
      Definition.allOf earlier := by
  obtain ⟨-, htail, hbefore⟩ := List.pairwise_append.1 hpos
  have hafter := (List.pairwise_cons.1 htail).1
  have hkept : (Definition.allOf earlier).filter (fun d => decide (d.position ≤ c.position)) =
      Definition.allOf earlier := by
    refine List.filter_eq_self.2 fun d hd => ?_
    obtain ⟨c', hc', -, rfl⟩ := Definition.mem_allOf.1 hd
    exact decide_eq_true (Int.le_of_lt (hbefore c' hc' c List.mem_cons_self))
  have hdropped : (Definition.allOf later).filter (fun d => decide (d.position ≤ c.position)) =
      [] := by
    refine List.filter_eq_nil_iff.2 fun d hd hle => ?_
    obtain ⟨c', hc', -, rfl⟩ := Definition.mem_allOf.1 hd
    have hlt := hafter c' hc'
    have hle' : c'.position ≤ c.position := of_decide_eq_true hle
    omega
  rw [Definition.allOf_append, ← List.singleton_append, Definition.allOf_append,
    Definition.allOf_other hc, List.nil_append, List.filter_append, hkept, hdropped,
    List.append_nil]

/-- A command sees in the table of the whole script what the commands before it define. -/
theorem sees_after {earlier later : List Command} {c : Command}
    (hpos : (earlier ++ c :: later).Pairwise (fun c c' => c.position < c'.position))
    (hsets : SetsComplete (earlier ++ c :: later)) (hc : c.name ≠ ascii "SET") :
    Sees (DefinitionTable.ofList (Definition.allOf (earlier ++ c :: later))) c.position
      (Environment.after [] earlier) := by
  have hsorted := Definition.pairwise_allOf hpos
  have hearlier : SetsComplete earlier := fun c' hc' => hsets c' (List.mem_append_left _ hc')
  constructor
  · intro name
    have hordered : (Definition.allOf (earlier ++ c :: later)).Pairwise
        (fun d e => d.name = e.name → d.position ≤ e.position) := by
      refine hsorted.imp ?_
      intro d e hlt _
      exact Int.le_of_lt hlt
    have hdefs := DefinitionTable.definitions_ofList hordered name
    rw [DefinitionTable.find?_eq_getLast? (by rw [hdefs]; exact hsorted.filter _), hdefs,
      List.filter_comm, Definition.filter_allOf hpos hc, Environment.lookup_after hearlier]
  · intro name values hlookup
    rw [Environment.lookup_after hearlier] at hlookup
    obtain ⟨d, hd, rfl⟩ := Option.map_eq_some_iff.1 hlookup
    obtain ⟨c', hc', hset, rfl⟩ := Definition.mem_allOf.1
      (List.mem_of_mem_filter (List.mem_of_getLast? hd))
    have hlen := hearlier c' hc' hset
    intro hempty
    have hzero : c'.args.length - 1 = 0 := by
      rw [← List.length_tail]
      exact congrArg List.length hempty
    omega

/-! ## Both readings agree -/

namespace Environment

theorem interpret_set {env : Environment} {c : Command} (cmds : List Command)
    (h : c.name = ascii "SET") : env.interpret (c :: cmds) = (env.define c).interpret cmds := by
  rw [interpret, if_pos h]

theorem interpret_other {env : Environment} {c : Command} (cmds : List Command)
    (h : c.name ≠ ascii "SET") :
    env.interpret (c :: cmds) = do
      let c ← env.substitute c
      let cmds ← env.interpret cmds
      return c :: cmds := by
  rw [interpret, if_neg h]

/-- Reading a list in two parts: the second part starts in the environment the first one leaves. -/
theorem interpret_append (env : Environment) (earlier later : List Command) :
    env.interpret (earlier ++ later) = do
      let done ← env.interpret earlier
      let rest ← (env.after earlier).interpret later
      return done ++ rest := by
  induction earlier generalizing env with
  | nil =>
    show env.interpret later = (env.interpret later >>= fun rest => pure rest)
    exact (bind_pure _).symm
  | cons c earlier ih =>
    by_cases hset : c.name = ascii "SET"
    · rw [List.cons_append, interpret_set _ hset, interpret_set _ hset, ih]
      simp [after, hset]
    · rw [List.cons_append, interpret_other _ hset, interpret_other _ hset, ih]
      simp [after, hset]

/-- The commands after a part already read come out of the table as they come out of the environment
that part leaves. -/
theorem interpret_after {cmds : List Command}
    (hpos : cmds.Pairwise (fun c c' => c.position < c'.position)) (hsets : SetsComplete cmds)
    (earlier later : List Command) (hsplit : cmds = earlier ++ later) :
    (DefinitionTable.ofList (Definition.allOf cmds)).substituteAll
      (later.filter (·.name != ascii "SET")) = (after [] earlier).interpret later := by
  induction later generalizing earlier with
  | nil => rfl
  | cons c later ih =>
    have ih := ih (earlier ++ [c]) (by simp [hsplit])
    rw [after_append_singleton] at ih
    by_cases hset : c.name = ascii "SET"
    · rw [if_pos hset] at ih
      rw [interpret_set _ hset, ← ih]
      simp [hset]
    · rw [if_neg hset] at ih
      subst hsplit
      have hsub := (sees_after hpos hsets hset).substitute_eq
      rw [interpret_other _ hset, ← ih, ← hsub]
      simp [DefinitionTable.substituteAll, hset]

end Environment

theorem Compile.defineAll_result {cmds : List Command}
    (hpos : cmds.Pairwise (fun c c' => c.position < c'.position)) (hsets : SetsComplete cmds) :
    (Compile.defineAll cmds).result.map Prod.snd = Environment.interpret [] cmds := by
  have hread : (DefinitionTable.ofList (Definition.allOf cmds)).substituteAll
      (cmds.filter (·.name != ascii "SET")) = Environment.interpret [] cmds :=
    Environment.interpret_after hpos hsets [] cmds rfl
  unfold Compile.defineAll
  rw [DefinitionTable.collect_eq hsets, ← hread]
  simp only [bind, Stage.andThen, Stage.ofResult, Stage.note]
  cases (DefinitionTable.ofList (Definition.allOf cmds)).substituteAll
      (cmds.filter (·.name != ascii "SET")) with
  | error f => rfl
  | ok done => rfl

/-- In a list of commands that stand at their own positions and whose `Set`s are complete, working
in the definitions gives what reading from left to right gives: the same commands, or the same
failure on the same command. What comes of the commands up to some point does not depend on what
follows: neither a failure there nor the commands that come out. -/
theorem Compile.defineAll_eq_interpret (cmds : List Command)
    (hpos : ∀ (i : Nat) (c : Command), cmds[i]? = some c → c.position = i)
    (hsets : ∀ c ∈ cmds, c.name = ascii "SET" → 2 ≤ c.args.length) :
    (Compile.defineAll cmds).result.map Prod.snd = Environment.interpret [] cmds ∧
      ∀ earlier later, cmds = earlier ++ later →
        (∀ f, (Compile.defineAll earlier).result.map Prod.snd = .error f →
          (Compile.defineAll cmds).result.map Prod.snd = .error f) ∧
        ∀ done all, (Compile.defineAll earlier).result.map Prod.snd = .ok done →
          (Compile.defineAll cmds).result.map Prod.snd = .ok all → done <+: all := by
  have hgrow : cmds.Pairwise (fun c c' => c.position < c'.position) := by
    refine List.pairwise_iff_getElem.2 fun i j hi hj hij => ?_
    rw [hpos i _ (List.getElem?_eq_getElem hi), hpos j _ (List.getElem?_eq_getElem hj)]
    exact_mod_cast hij
  refine ⟨defineAll_result hgrow hsets, fun earlier later hsplit => ?_⟩
  have hwhole := defineAll_result hgrow hsets
  subst hsplit
  have hpart := defineAll_result (List.pairwise_append.1 hgrow).1
    (fun c hc => hsets c (List.mem_append_left _ hc))
  rw [hwhole, hpart, Environment.interpret_append]
  refine ⟨fun f hf => ?_, fun done all hdone hall => ?_⟩
  · rw [hf]
    rfl
  · obtain ⟨done', hdone', hall⟩ := Outcome.bind_eq_ok.1 hall
    obtain ⟨rest, -, hall⟩ := Outcome.bind_eq_ok.1 hall
    obtain rfl := Except.ok.inj (hdone.symm.trans hdone')
    obtain rfl := Outcome.pure_eq_ok.1 hall
    exact List.prefix_append _ rest

/-- `A` is used, defined again and used once more, the second time also by way of `B`. -/
def shadowing : List Command :=
  [⟨[], ascii "SET", [ascii "A", ascii "1"], 0, [], []⟩,
    ⟨[], ascii "CODE", [ascii "A", ascii ",B"], 1, [], []⟩,
    ⟨[], ascii "SET", [ascii "B", ascii "A", ascii "7"], 2, [], []⟩,
    ⟨[], ascii "SET", [ascii "A", ascii "2"], 3, [], []⟩,
    ⟨[], ascii "CODE", [ascii "A", ascii ",B"], 4, [], []⟩]

theorem defineAll_shadowing : (Compile.defineAll shadowing).result.map Prod.snd =
    .ok [⟨[], ascii "CODE", [ascii "1", ascii ",B"], 1, [], []⟩,
      ⟨[], ascii "CODE", [ascii "2", ascii ",2", ascii "7"], 4, [], []⟩] := by
  rfl

theorem Compile.defineAll_eq_interpret_shadowing :
    Environment.interpret [] shadowing =
      .ok [⟨[], ascii "CODE", [ascii "1", ascii ",B"], 1, [], []⟩,
        ⟨[], ascii "CODE", [ascii "2", ascii ",2", ascii "7"], 4, [], []⟩] := by
  have hpos : ∀ (i : Nat) (c : Command), shadowing[i]? = some c → c.position = i := by
    intro i c hc
    match i with
    | 0 | 1 | 2 | 3 | 4 => cases hc; rfl
    | i + 5 => cases hc
  have hsets : ∀ c ∈ shadowing, c.name = ascii "SET" → 2 ≤ c.args.length := by decide
  rw [← (Compile.defineAll_eq_interpret shadowing hpos hsets).1]
  exact defineAll_shadowing

end CheatScript
