import CheatScript.Proofs.AccessAddresses
import CheatScript.Proofs.CodeLines
import CheatScript.Proofs.ConditionTokens
import CheatScript.Proofs.Passes
import CheatScript.Proofs.ScopeMeaning

/-!
# Proofs: no condition is dropped

An If is accepted by the form of its line, its clauses are counted in its line, and its conditions
are read from its arguments after all names have been replaced. The three agree for a line that
starts with its form and whose names stand for sums: every clause gives one condition, in order, and
no token is left over. A form that starts later in the line is accepted too, and then the clauses
before it or after it are lost.
-/

namespace CheatScript

open Outcome

variable {files : FileTree} {cmds : List Command} {c : Command}

/-! ## Arguments through the passes -/

/-- Whether a command, if it is an If whose line starts with its form, has clauses for arguments, as
many as its line. -/
def Command.HasClauses (c : Command) : Prop :=
  c.name = ascii "IF" → Condition.Grammar.fits c.text = true →
    Scope.Clausal (Scope.extraClauses c) c.args

theorem hasClauses_of_mem_commands {path : Bytes} {lines : List Bytes}
    (h : c ∈ Source.commands path lines) : c.HasClauses := by
  obtain ⟨⟨line, i⟩, -, hc⟩ := List.mem_filterMap.1 h
  simp only at hc
  split at hc
  · cases hc
  · obtain rfl := Option.some.inj hc
    intro _ hfits
    exact Condition.Grammar.clausal_ofLine hfits

theorem hasClauses_of_mem_commandsOf {path content : Bytes}
    (h : c ∈ Include.commandsOf path content) : c.HasClauses := by
  unfold Include.commandsOf at h
  simp only at h
  split at h
  · obtain ⟨own, -, hsymbol⟩ := List.mem_filterMap.1 h
    unfold Include.symbol? at hsymbol
    split at hsymbol
    · cases hsymbol
    · split at hsymbol
      · cases hsymbol
      · obtain rfl := Option.some.inj hsymbol
        intro hname
        cases hname
  · exact hasClauses_of_mem_commands h

theorem includesKeep_hasClauses : IncludesKeep files Command.HasClauses := by
  intro c path content _ _ d hd
  obtain ⟨own, hown, rfl⟩ := List.mem_map.1 hd
  have hclauses := hasClauses_of_mem_commandsOf hown
  exact hclauses

theorem DefinitionTable.substitute_hasClauses {t : DefinitionTable} {b : Command}
    (hc : c.HasClauses)
    (hsums : c.name = ascii "IF" → t.KeepsSums c.position c.args) (h : t.substitute c = .ok b) :
    b.HasClauses := by
  unfold DefinitionTable.substitute at h
  split at h
  · cases h
  · next parts hparts =>
    obtain rfl := Except.ok.inj h
    intro hname hfits
    exact (hc hname hfits).substitute (hsums hname) hparts

namespace Call

variable {functions : List Function} {call : Command} {body main out : List Command}

/-- The commands met while the calls of a list are worked in. -/
inductive Opened (functions : List Function) (main : List Command) : Command → Prop
  | main {c : Command} (hc : c ∈ main) : Opened functions main c
  | inside {call b : Command} {body : List Command} (hcall : Opened functions main call)
      (hname : call.name = ascii "CALL") (hopen : open? functions call = .ok body) (hb : b ∈ body) :
      Opened functions main b

/-- Whether the parameters that Ifs name stand for sums in every call that is worked in. -/
def PassesSums (functions : List Function) (main : List Command) : Prop :=
  ∀ call, Opened functions main call → call.name = ascii "CALL" → ∀ f args,
    resolve functions call = .ok (f, args) → ∀ c ∈ f.body, c.name = ascii "IF" →
      (bindings f.parameters args).KeepsSums 0 c.args

theorem substituteList_other {t : DefinitionTable} {b : Command} (h : substituteList t c = .ok b)
    (hname : b.name = ascii "IF") : b = c := by
  have hsame := (substituteList_eq_ok h).1
  have hcall : c.name ≠ ascii "CALL" := by
    intro hcall
    rw [hsame, hcall] at hname
    cases hname
  rw [substituteList_of_ne hcall] at h
  exact (Except.ok.inj h).symm

theorem inline_hasClauses (hbodies : Function.BodiesAre Command.HasClauses functions)
    (hsums : ∀ f args, resolve functions call = .ok (f, args) → ∀ c ∈ f.body, c.name = ascii "IF" →
      (bindings f.parameters args).KeepsSums 0 c.args)
    (h : inline functions call = .ok body) : ∀ b ∈ body, b.HasClauses := by
  unfold inline at h
  obtain ⟨⟨f, args⟩, hblame, h⟩ := bind_eq_ok.1 h
  have hresolve := Command.blame_eq_ok.1 hblame
  have hf := (resolve_eq_ok hresolve).1
  have hbody : ∀ b ∈ bodyOf f call, b.HasClauses := by
    intro b hb
    obtain ⟨c, hc, rfl⟩ := List.mem_map.1 hb
    exact hbodies f hf c hc
  simp only at h
  split at h
  · obtain rfl := pure_eq_ok.1 h
    exact hbody
  · obtain ⟨named, hnamed, hlists⟩ := bind_eq_ok.1 h
    intro b hb hname hfits
    obtain ⟨b₂, hb₂, hlist⟩ := exists_of_mem_mapM hlists hb
    obtain ⟨b₁, hb₁, hsub⟩ := exists_of_mem_mapM hnamed hb₂
    obtain rfl := substituteList_other hlist hname
    refine DefinitionTable.substitute_hasClauses (hbody b₁ hb₁) ?_ hsub hname hfits
    intro hname₁
    obtain ⟨c, hc, rfl⟩ := List.mem_map.1 hb₁
    exact hsums f args hresolve c hc hname₁

/-- What holds of the commands outside functions and passes from a call to what it brings in holds
of every command that is left. -/
theorem expandWithin_opened {P : Command → Prop} {depth : Nat}
    (hopen : ∀ call body, P call → call.name = ascii "CALL" → open? functions call = .ok body →
      ∀ b ∈ body, P b)
    (hmain : ∀ c ∈ main, P c) (h : expandWithin functions depth main = .ok out) : ∀ c ∈ out,
        P c := by
  induction depth generalizing main out with
  | zero =>
    unfold expandWithin at h
    split at h
    · cases h
    · obtain rfl := Except.ok.inj h
      exact hmain
  | succ depth ih =>
    unfold expandWithin at h
    obtain ⟨parts, hparts, h⟩ := bind_eq_ok.1 h
    obtain rfl := pure_eq_ok.1 h
    intro c hc
    obtain ⟨part, hpart, hc⟩ := List.mem_flatten.1 hc
    obtain ⟨own, hown, hpart⟩ := exists_of_mem_mapM hparts hpart
    split at hpart
    · next hcall =>
      obtain ⟨body, hbody, hpart⟩ := bind_eq_ok.1 hpart
      exact ih (hopen own body (hmain own hown) hcall hbody) hpart c hc
    · obtain rfl := pure_eq_ok.1 hpart
      rw [List.mem_singleton.1 hc]
      exact hmain own hown

theorem expand_hasClauses (hbodies : Function.BodiesAre Command.HasClauses functions)
    (hmain : ∀ c ∈ main, c.HasClauses) (hsums : PassesSums functions main)
    (h : expand functions main = .ok out) : ∀ c ∈ out, c.HasClauses := by
  obtain ⟨flat, hflat, h⟩ := bind_eq_ok.1 h
  obtain rfl := pure_eq_ok.1 h
  have hall : ∀ c ∈ flat, Opened functions main c ∧ c.HasClauses := by
    refine expandWithin_opened ?_ (fun c hc => ⟨.main hc, hmain c hc⟩) hflat
    rintro call body ⟨hopened, -⟩ hcall hopen b hb
    refine ⟨.inside hopened hcall hopen hb, ?_⟩
    exact inline_hasClauses hbodies (hsums call hopened hcall) (open?_eq_ok hopen).1 b hb
  intro c hc
  obtain ⟨⟨own, i⟩, hown, rfl⟩ := List.mem_map.1 hc
  exact (hall own (List.fst_mem_of_mem_zipIdx hown)).2

end Call

/-! ## Rendering -/

namespace Assembly

theorem produced_if {t : DefinitionTable} (hname : c.name = ascii "IF") : produced t c = [c] := by
  have hlabel : isLabel c.name = false := by rw [hname]; rfl
  have hforms : PassesForms c := by
    refine ⟨fun hshort => ?_, ?_, fun hjalr => ?_, ?_⟩
    · rw [hname] at hshort
      exact absurd hshort (by decide)
    · rw [hname]
      decide
    · rw [hname] at hjalr
      cases hjalr
    · rw [hname]
      decide
  have haccess : ¬ (c.name ∈ Instruction.loadStores ∧ c.name ≠ ascii "JALR") := by
    rw [hname]
    decide
  have hself : (instructionsOf t c).toOption.getD [] = [c] := by
    rw [hforms.instructionsOf_eq, if_neg haccess]
    rfl
  obtain ⟨text, name, args, position, trace, callers⟩ := c
  cases args with
  | nil => rwa [produced, producedIn, if_neg (by rw [hlabel]; exact Bool.false_ne_true)]
  | cons a args => rwa [produced, producedIn, if_neg (by rw [hlabel]; exact Bool.false_ne_true)]

/-- An If is no line of assembler. -/
theorem ne_if_of_words {t : DefinitionTable} {base : Word} {lines : List Command}
    {words : List Word}
    (h : (assemble t base lines).words = .ok words) (hc : c ∈ lines) : c.name ≠ ascii "IF" := by
  intro hname
  obtain ⟨pre, post, rfl⟩ := List.append_of_mem hc
  obtain ⟨labels, before, code, after, -, -, -, hcode⟩ := words_line h
  rw [produced_if hname] at hcode
  obtain ⟨w, -, hencode⟩ := hcode 0 c rfl
  have hunknown : Instruction.find? c.name = none := by rw [hname]; rfl
  rw [encode, readInstruction, hunknown] at hencode
  cases hencode

end Assembly

theorem Verb.ofName?_eq_openIf {name : Bytes} (h : ofName? name = some .openIf) :
    name = ascii "IF" := by
  have hnames : ∀ pair ∈ names, pair.2 = .openIf → pair.1 = ascii "IF" := by decide
  obtain ⟨before, after, hsplit, -⟩ := List.lookup_eq_some_iff.1 h
  exact hnames (name, .openIf) (by rw [hsplit]; simp) rfl

/-- Only an If opens a scope, under the condition that its arguments start with. -/
theorem Statement.ofCommand_openIf [TextEncoder] {e : TextEncoding} {k : Condition}
    (h : ofCommand e c = .ok (.openIf k)) :
    c.name = ascii "IF" ∧ Condition.read c.args = .ok k := by
  unfold ofCommand at h
  split at h
  · next verb hverb =>
    have hstatement := Command.blame_eq_ok.1 h
    cases verb with
    | openIf =>
      obtain ⟨k', hcondition, hk⟩ := bind_eq_ok.1 hstatement
      obtain rfl := Statement.openIf.inj (pure_eq_ok.1 hk)
      refine ⟨Verb.ofName?_eq_openIf hverb, ?_⟩
      unfold conditionOf at hcondition
      split at hcondition
      · cases hcondition
      · exact hcondition
    | closeIf => cases pure_eq_ok.1 hstatement
    | _ =>
      obtain ⟨_, -, hother⟩ := bind_eq_ok.1 hstatement
      cases pure_eq_ok.1 hother
  · cases h

theorem Statement.ofCommand_if [TextEncoder] {e : TextEncoding} {s : Statement}
    (hname : c.name = ascii "IF") (h : ofCommand e c = .ok s) : ∃ k, s = .openIf k := by
  have hverb : Verb.ofName? c.name = some .openIf := by rw [hname]; rfl
  rw [ofCommand, hverb] at h
  obtain ⟨k, -, hk⟩ := bind_eq_ok.1 (Command.blame_eq_ok.1 h)
  exact ⟨k, (pure_eq_ok.1 hk).symm⟩

/-- The command and the condition of a piece that opens a scope. -/
def Piece.test? : Piece → Option (Command × Condition)
  | .test c k => some (c, k)
  | _ => none

/-- The Ifs of a list open its scopes in order, each under its first condition. -/
theorem renderFrom_tests [TextEncoder] {t : DefinitionTable} {e : TextEncoding}
    {scope : Option AsmScope}
    {pieces : List Piece} (h : (renderFrom t e scope cmds).result = .ok pieces) :
    (∀ s ∈ scope, ∀ line ∈ s.lines, line.name ≠ ascii "IF") ∧
      (pieces.filterMap Piece.test?).map Prod.fst = cmds.filter (·.name == ascii "IF") ∧
      ∀ test ∈ pieces.filterMap Piece.test?, Condition.read test.1.args = .ok test.2 := by
  induction cmds generalizing e scope pieces with
  | nil =>
    cases scope with
    | none =>
      obtain rfl := Except.ok.inj h
      exact ⟨by simp, rfl, by simp⟩
    | some s => cases h
  | cons c cmds ih =>
    cases scope with
    | some s =>
      unfold renderFrom at h
      split at h
      · next hend =>
        obtain ⟨codes, hcodes, h⟩ := Stage.bind_result_eq_ok.1 h
        obtain ⟨others, hothers, h⟩ := Stage.bind_result_eq_ok.1 h
        obtain rfl := Stage.pure_result_eq_ok.1 h
        obtain ⟨words, hwords, -⟩ := AsmScope.close_eq_ok hcodes
        refine ⟨?_, ?_⟩
        · rintro s' ⟨⟩ line hline
          exact Assembly.ne_if_of_words hwords hline
        · rw [List.filter_cons_of_neg (by rw [hend]; decide)]
          exact (ih hothers).2
      · obtain ⟨hlines, htests⟩ := ih h
        obtain ⟨hearlier, hlast⟩ := List.forall_mem_append.1 (hlines _ rfl)
        refine ⟨?_, ?_⟩
        · rintro s' ⟨⟩
          exact hearlier
        · rw [List.filter_cons_of_neg (by simpa using hlast c List.mem_cons_self)]
          exact htests
    | none =>
      refine ⟨by simp, ?_⟩
      unfold renderFrom at h
      split at h
      · next hstart =>
        obtain ⟨s, -, h⟩ := Stage.bind_result_eq_ok.1 h
        rw [List.filter_cons_of_neg (by rw [hstart]; decide)]
        exact (ih h).2
      · obtain ⟨statement, hof, h⟩ := Stage.bind_result_eq_ok.1 h
        by_cases hname : c.name = ascii "IF"
        · obtain ⟨k, rfl⟩ := Statement.ofCommand_if hname hof
          obtain ⟨others, hothers, h⟩ := Stage.bind_result_eq_ok.1 h
          obtain rfl := Stage.pure_result_eq_ok.1 h
          obtain ⟨-, hcommands, hread⟩ := ih hothers
          rw [List.filter_cons_of_pos (by simpa using hname), ← hcommands]
          exact ⟨rfl, List.forall_mem_cons.2 ⟨(Statement.ofCommand_openIf hof).2, hread⟩⟩
        · rw [List.filter_cons_of_neg (by simpa using hname)]
          cases statement with
          | encoding e' => exact (ih h).2
          | openIf k => exact absurd (Statement.ofCommand_openIf hof).1 hname
          | emit f =>
            obtain ⟨others, hothers, h⟩ := Stage.bind_result_eq_ok.1 h
            obtain rfl := Stage.pure_result_eq_ok.1 h
            exact (ih hothers).2
          | closeIf =>
            obtain ⟨others, hothers, h⟩ := Stage.bind_result_eq_ok.1 h
            obtain rfl := Stage.pure_result_eq_ok.1 h
            exact (ih hothers).2

/-! ## Nesting -/

/-- The condition of a piece that opens a scope. -/
def Piece.condition? (p : Piece) : Option Condition := p.test?.map Prod.snd

namespace Scope

theorem conditions_tests (tests : List OpenTest) :
    (tests.map OpenTest.piece).filterMap Piece.condition? = tests.map Prod.snd := by
  induction tests with
  | nil => rfl
  | cons test tests ih =>
    rw [List.map_cons, List.map_cons, ← ih]
    rfl

/-- Nesting emits one condition for each clause, in order. -/
theorem nestFrom_conditions {extra : List Nat} {pieces out : List Piece}
    (htests : ∀ test ∈ pieces.filterMap Piece.test?,
      Clausal (extraClauses test.1) test.1.args ∧ Condition.read test.1.args = .ok test.2)
    (h : nestFrom extra pieces = .ok out) :
    List.Forall₂ Condition.Spells
      ((pieces.filterMap Piece.test?).flatMap fun test => test.1.args.splitOn conjunction)
      (out.filterMap Piece.condition?) := by
  induction pieces generalizing extra out with
  | nil =>
    obtain rfl := Except.ok.inj h
    exact .nil
  | cons p rest ih =>
    cases p with
    | test c k =>
      obtain ⟨hfirst, hrest⟩ := List.forall_mem_cons.1 htests
      obtain ⟨tests, out', hmore, hout, rfl⟩ := nestFrom_test h
      have hspells := hfirst.1.spells_clauses hfirst.2 (List.forall₂_map_right_iff.2 hmore)
      rw [List.filterMap_append, conditions_tests]
      exact List.rel_append hspells (ih hrest hout)
    | close =>
      obtain ⟨out', hout, rfl⟩ := nestFrom_close h
      have hcloses (n : Nat) : (List.replicate n Piece.close).filterMap Piece.condition? = [] := by
        induction n with
        | zero => rfl
        | succ n ih => exact ih
      rw [List.filterMap_append, hcloses, List.nil_append]
      exact ih htests hout
    | output c f =>
      obtain ⟨out', hout, rfl⟩ := nestFrom_output h
      have hrest := ih htests hout
      exact hrest

end Scope

/-! ## Compilation -/

namespace Compile

/-- Whether the lines of Ifs are what their conditions are read from: every If line starts with its
form, and the parameters and variables that Ifs name stand for sums. -/
structure ConditionsPlain (files : FileTree) (cmds : List Command) : Prop where
  form : ∀ {t : DefinitionTable} {flat : List Command},
    (flatten files cmds).result = .ok (t, flat) →
    ∀ c ∈ flat, c.name = ascii "IF" → Condition.Grammar.fits c.text = true
  parameters : ∀ {included main : List Command} {functions : List Function},
    (Include.expand files cmds).result = .ok included →
    (Function.extract included).result = .ok (functions, main) → Call.PassesSums functions main
  definitions : ∀ {included main called rest : List Command} {functions : List Function}
      {t : DefinitionTable}, (Include.expand files cmds).result = .ok included →
    (Function.extract included).result = .ok (functions, main) →
    Call.expand functions main = .ok called → DefinitionTable.collect called = .ok (t, rest) →
    ∀ c ∈ rest, c.name = ascii "IF" → t.KeepsSums c.position c.args

/-- The Ifs of the flat list have clauses for arguments. -/
theorem flatten_hasClauses {t : DefinitionTable} {flat : List Command}
    (hcmds : ∀ c ∈ cmds, c.HasClauses) (hplain : ConditionsPlain files cmds)
    (h : (flatten files cmds).result = .ok (t, flat)) : ∀ c ∈ flat, c.HasClauses := by
  obtain ⟨included, hinclude, h⟩ := Stage.bind_result_eq_ok.1 h
  obtain ⟨⟨functions, main⟩, hextract, h⟩ := Stage.bind_result_eq_ok.1 h
  obtain ⟨called, hcall, h⟩ := Stage.bind_result_eq_ok.1 h
  obtain ⟨⟨t', flat'⟩, hdefine, h⟩ := Stage.bind_result_eq_ok.1 h
  obtain ⟨_, -, h⟩ := Stage.bind_result_eq_ok.1 h
  obtain ⟨rfl, rfl⟩ := Prod.mk.inj (Stage.pure_result_eq_ok.1 h)
  obtain ⟨⟨table, rest⟩, hcollect, hdefine⟩ := Stage.bind_result_eq_ok.1 hdefine
  obtain ⟨_, -, hdefine⟩ := Stage.bind_result_eq_ok.1 hdefine
  obtain ⟨substituted, hsubstitute, hdefine⟩ := Stage.bind_result_eq_ok.1 hdefine
  obtain ⟨rfl, rfl⟩ := Prod.mk.inj (Stage.pure_result_eq_ok.1 hdefine)
  have hincluded := (Include.expand_yields includesKeep_hasClauses hcmds).1 included hinclude
  obtain ⟨hbodies, hmain⟩ := (Function.extract_yields hincluded).1 _ hextract
  have hcalled := Call.expand_hasClauses hbodies hmain (hplain.parameters hinclude hextract) hcall
  have hrest := (DefinitionTable.collect_yields hcalled).1 _ hcollect
  have hsums := hplain.definitions hinclude hextract hcall hcollect
  intro b hb
  obtain ⟨c, hc, hsub⟩ := exists_of_mem_mapM hsubstitute hb
  exact DefinitionTable.substitute_hasClauses (hrest c hc) (hsums c hc) hsub

theorem packed_of_lines [TextEncoder] {form : OutputForm} {path out : Bytes} {source : List Bytes}
    (h : (lines files form path source).result = .ok out) :
    ∃ codes, (packed files (Source.commands path (Source.cleanUp source))).result = .ok codes := by
  unfold lines at h
  split at h
  · next hnone =>
    have hinclude : Include.expand files [] = pure [] := by
      unfold Include.expand
      cases files.files.length <;> rfl
    refine ⟨[], ?_⟩
    rw [hnone, packed, flatten, hinclude]
    rfl
  · obtain ⟨codes, hcodes, -⟩ := Stage.bind_result_eq_ok.1 h
    exact ⟨codes, hcodes⟩

/-- **No condition is dropped.** If a script compiles whose If lines start with their form and name
only sums, the arguments of every If after substitution are clauses with one `&&` between them, and
before scopes are split there is one condition for each clause of the flat list, in order. Each
clause spells its condition and has no token besides. -/
theorem conditions_kept [TextEncoder] (files : FileTree) (form : OutputForm) (path : Bytes)
    (source : List Bytes)
    (out : Bytes) (hcompiles : (lines files form path source).result = .ok out)
    (hplain : ConditionsPlain files (Source.commands path (Source.cleanUp source))) :
    ∃ t flat pieces nested,
      (flatten files (Source.commands path (Source.cleanUp source))).result = .ok (t, flat) ∧
      (render t flat).result = .ok pieces ∧ Scope.nest pieces = .ok nested ∧
      List.Forall₂ Condition.Spells
        ((flat.filter (·.name == ascii "IF")).flatMap fun c => c.args.splitOn Scope.conjunction)
        (nested.filterMap Piece.condition?) := by
  have hcmds : ∀ c ∈ Source.commands path (Source.cleanUp source), c.HasClauses :=
    fun c hc => hasClauses_of_mem_commands hc
  obtain ⟨codes, hpacked⟩ := packed_of_lines hcompiles
  obtain ⟨⟨t, flat⟩, hflatten, hpacked⟩ := Stage.bind_result_eq_ok.1 hpacked
  obtain ⟨pieces, hrender, hpack⟩ := Stage.bind_result_eq_ok.1 hpacked
  obtain ⟨-, nested, parts, hnest, -, -⟩ := Scope.pack_eq_ok hpack
  refine ⟨t, flat, pieces, nested, hflatten, hrender, hnest, ?_⟩
  obtain ⟨-, hcommands, hread⟩ := renderFrom_tests hrender
  have hclausal : ∀ test ∈ pieces.filterMap Piece.test?,
      Scope.Clausal (Scope.extraClauses test.1) test.1.args ∧
        Condition.read test.1.args = .ok test.2 := by
    intro test htest
    have hmem : test.1 ∈ flat.filter (·.name == ascii "IF") :=
      hcommands ▸ List.mem_map_of_mem htest
    obtain ⟨hflat, hname⟩ := List.mem_filter.1 hmem
    have hname : test.1.name = ascii "IF" := beq_iff_eq.1 hname
    refine ⟨?_, hread test htest⟩
    exact flatten_hasClauses hcmds hplain hflatten test.1 hflat hname
      (hplain.form hflatten test.1 hflat hname)
  have hspells := Scope.nestFrom_conditions hclausal hnest
  rwa [← hcommands, List.flatMap_map]

/-- A script with an If in a function. Its clauses name a variable that stands for a sum, a
parameter that is given a sum, and a variable that is defined after the function. -/
def guardLines : List Bytes :=
  ["Set base 0x100 + 0x10", "Function Guard(value)", "If base =: value && flags !. 1",
    "Write32 0x300 5", "EndIf", "EndFunction", "Set flags 0x204", "Call Guard(5+1)"].map ascii

def guardOutput : Bytes := ascii "E0020006 00000110\nE1010001 10000204\n20000300 00000005"

def noFiles : FileTree := ⟨[], [], []⟩

def guardCommands : List Command := Source.commands (ascii "main.txt") (Source.cleanUp guardLines)

def guardFunction : Function := ⟨ascii "Guard", [ascii "value"], (guardCommands.drop 2).take 3⟩

def guardMain : List Command := guardCommands.take 1 ++ guardCommands.drop 6

theorem passesSums_guard : Call.PassesSums [guardFunction] guardMain := by
  intro call hopened hcall f args hresolve c hc hname
  have hmain : call ∈ guardMain := by
    cases hopened with
    | main hmain => exact hmain
    | inside _ _ hopen hb =>
      -- the function calls nothing
      obtain ⟨g, hg, -, hbody⟩ := Call.inline_eq_ok (Call.open?_eq_ok hopen).1
      obtain rfl := List.mem_singleton.1 hg
      obtain ⟨own, hown, hbrought⟩ := hbody call hb
      have hnames : ∀ c ∈ guardFunction.body, c.name ≠ ascii "CALL" := by decide
      exact absurd (hbrought.name ▸ hcall) (hnames own hown)
  have hcheck : guardMain.all (fun call => (Call.resolve [guardFunction] call).toOption.all
      fun r => r.1.body.all fun c =>
        decide ((Call.bindings r.1.parameters r.2).KeepsSums 0 c.args)) = true := rfl
  have hsums := List.all_eq_true.1 hcheck call hmain
  rw [hresolve] at hsums
  exact of_decide_eq_true (List.all_eq_true.1 hsums c hc)

set_option maxRecDepth 8000 in
theorem conditionsPlain_guard : ConditionsPlain noFiles guardCommands := by
  have hincluded : (Include.expand noFiles guardCommands).result = .ok guardCommands := rfl
  have hextracted : (Function.extract guardCommands).result = .ok ([guardFunction], guardMain) :=
    rfl
  refine ⟨?_, ?_, ?_⟩
  · intro t flat hflatten c hc hname
    have hcheck : (flatten noFiles guardCommands).result.toOption.all (fun out => out.2.all fun c =>
        decide (c.name = ascii "IF" → Condition.Grammar.fits c.text = true)) = true := rfl
    rw [hflatten] at hcheck
    exact of_decide_eq_true (List.all_eq_true.1 hcheck c hc) hname
  · intro included main functions hinclude hextract
    obtain rfl := Except.ok.inj (hincluded.symm.trans hinclude)
    obtain ⟨rfl, rfl⟩ := Prod.mk.inj (Except.ok.inj (hextracted.symm.trans hextract))
    exact passesSums_guard
  · intro included main called rest functions t hinclude hextract hcall hcollect c hc hname
    obtain rfl := Except.ok.inj (hincluded.symm.trans hinclude)
    obtain ⟨rfl, rfl⟩ := Prod.mk.inj (Except.ok.inj (hextracted.symm.trans hextract))
    have hcheck : (Call.expand [guardFunction] guardMain >>= DefinitionTable.collect).toOption.all
        (fun out => out.2.all fun c =>
          decide (c.name = ascii "IF" → out.1.KeepsSums c.position c.args)) = true := rfl
    rw [hcall] at hcheck
    have hcheck : (DefinitionTable.collect called).toOption.all (fun out => out.2.all fun c =>
        decide (c.name = ascii "IF" → out.1.KeepsSums c.position c.args)) = true := hcheck
    rw [hcollect] at hcheck
    exact of_decide_eq_true (List.all_eq_true.1 hcheck c hc) hname

set_option maxRecDepth 8000 in
theorem conditions_kept_guard :
    (lines noFiles ⟨.e, false⟩ (ascii "main.txt") guardLines).result = .ok guardOutput ∧
    ConditionsPlain noFiles guardCommands ∧
    ∃ t flat pieces nested, (flatten noFiles guardCommands).result = .ok (t, flat) ∧
      (render t flat).result = .ok pieces ∧ Scope.nest pieces = .ok nested ∧
      List.Forall₂ Condition.Spells
        ((flat.filter (·.name == ascii "IF")).flatMap fun c => c.args.splitOn Scope.conjunction)
        (nested.filterMap Piece.condition?) :=
  ⟨rfl, conditionsPlain_guard,
    conditions_kept noFiles ⟨.e, false⟩ (ascii "main.txt") guardLines guardOutput rfl
      conditionsPlain_guard⟩

/-- Whether tokens can be the clause of a condition: an address, an operator and a number. -/
def spellable (clause : List Bytes) : Bool :=
  (List.range clause.length).any fun n =>
    (Argument.address (clause.take n)).toOption.any (·.2.isEmpty) &&
      clause[n]?.any (fun operator => (Comparison.ofOperator? operator.dropLast).isSome) &&
      (Argument.integer (clause.drop (n + 1))).toOption.any (·.2.isEmpty)

theorem spellable_of_spells {clause : List Bytes} {k : Condition} (h : Condition.Spells clause k) :
    spellable clause = true := by
  obtain ⟨address, operator, value, rfl, haddress, hoperator, -, hvalue⟩ := h
  refine List.any_eq_true.2 ⟨address.length, by simp, ?_⟩
  have hdrop : (address ++ operator :: value).drop (address.length + 1) = value := by
    rw [List.drop_length_add_append]
    rfl
  rw [List.take_left, List.getElem?_append_right (Nat.le_refl _), Nat.sub_self, hdrop,
    haddress, hvalue]
  simp [hoperator, Except.toOption]

/-- A line with two forms of an If. -/
def doubledLines : List Bytes :=
  ["If 0x100 =: 1 If 0x200 =: 2", "Write32 0x300 5", "EndIf"].map ascii

set_option maxRecDepth 8000 in
/-- A form that starts later in the line is accepted, and the condition in it is lost: the tokens of
the flattened If are those of a clause and others left over, and they are no clause as a whole. -/
theorem conditions_lost :
    (lines noFiles ⟨.e, false⟩ (ascii "main.txt") doubledLines).result =
      .ok (ascii "E0010001 00000100\n20000300 00000005") ∧
    ∃ t flat c k spelled left, (flatten noFiles
        (Source.commands (ascii "main.txt") (Source.cleanUp doubledLines))).result = .ok (t, flat) ∧
      c ∈ flat ∧ c.name = ascii "IF" ∧ c.args.splitOn Scope.conjunction = [spelled ++ left] ∧
      left ≠ [] ∧ Condition.Spells spelled k ∧ ∀ other,
          ¬ Condition.Spells (spelled ++ left) other := by
  refine ⟨rfl, _, _, _, ⟨0x100, .equal, .half, 1⟩, ["0x100", "=:", "1"].map ascii,
    ["If", "0x200", "=:", "2"].map ascii, rfl, List.mem_cons_self, rfl, rfl, by decide, ?_, ?_⟩
  · exact ⟨[ascii "0x100"], ascii "=:", [ascii "1"], rfl, rfl, rfl, rfl, rfl⟩
  · intro other hspells
    cases spellable_of_spells hspells

end Compile

end CheatScript
