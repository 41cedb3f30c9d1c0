import CheatScript.Compiler
import CheatScript.Proofs.AssemblerRuns
import Mathlib.Data.List.Induction

/-!
# Proofs: scripts compiled one after the other

A compiler changes what it holds while it works on a script, and a script that fails leaves it half
filled. What it gives for a script is still what compiling the script on its own gives, because each
task of the compiler does to its parts what the journal of the same stage tells, and starts from
empty parts.
-/

namespace CheatScript.Compiler

variable {α β γ δ : Type} {c : Compiler} {tree : FileTree}

/-! ## Tasks and stages -/

/-- What a task came to on the compiler `c` is what a stage tells: the same failure or a related
value, with the files and the listing of the journal added to those of the compiler. -/
structure Mirrors (R : α → ScriptState → β → Prop) (c : Compiler)
    (out : Except Failure α × Compiler) (p : Stage β) : Prop where
  agree : Agree (fun a b => R a out.2.toScriptState b) out.1 p.result
  files : out.2.files = (p.journal.filterMap Event.file?).foldl addPath c.files
  listing : out.2.listing = c.listing ++ c.assembler.kept p.journal.listing
  options : out.2.options = c.options
  listingMode : out.2.assembler.listingMode = c.assembler.listingMode

variable {R : α → ScriptState → β → Prop} {S : γ → ScriptState → δ → Prop}

/-- The same value, with the script state as it was. -/
def Same (k : ScriptState) (a : α) (s : ScriptState) (b : α) : Prop := a = b ∧ s = k

/-- The same value, whatever the script state is. -/
def Alike (a : α) (_ : ScriptState) (b : α) : Prop := a = b

namespace Mirrors

theorem of_agree {r : Except Failure α} {r' : Except Failure β}
    (h : Agree (fun a b => R a c.toScriptState b) r r') :
    Mirrors R c (Task.ofResult r c) (Stage.ofResult r') := by
  have hlisting : c.listing = c.listing ++ c.assembler.kept [] := by
    rw [Assembler.kept_nil, List.append_nil]
  exact ⟨h, rfl, hlisting, rfl, rfl⟩

theorem give {a : α} {b : β} (h : R a c.toScriptState b) :
    Mirrors R c ((pure a : Task Compiler α) c) (pure b) :=
  of_agree (.ok h)

theorem ofResult (r : Except Failure α) :
    Mirrors (Same c.toScriptState) c (Task.ofResult r c) (Stage.ofResult r) := by
  refine of_agree ?_
  cases r with
  | error f => exact .error f
  | ok a => exact .ok ⟨rfl, rfl⟩

theorem refused {r : Except Failure α} {r' : Except Failure β} {f : Failure}
    (h : r = .error f) (h' : r' = .error f) :
    Mirrors R c (Task.ofResult r c) (Stage.ofResult r') := by
  rw [h, h']
  exact of_agree (.error f)

theorem bind {x : Task Compiler α} {p : Stage β} {next : α → Task Compiler γ} {rest : β → Stage δ}
    (hx : Mirrors R c (x c) p)
    (hnext : ∀ a b d, R a d.toScriptState b → d.options = c.options →
      Mirrors S d (next a d) (rest b)) :
    Mirrors S c ((x >>= next) c) (p >>= rest) := by
  obtain ⟨hagree, hfiles, hlisting, hoptions, hmode⟩ := hx
  generalize hout : x c = out at hagree hfiles hlisting hoptions hmode
  obtain ⟨result, d⟩ := out
  obtain ⟨journal, result'⟩ := p
  cases hagree with
  | error f =>
    rw [Task.bind_of_error hout]
    exact ⟨.error f, hfiles, hlisting, hoptions, hmode⟩
  | @ok a b hab =>
    rw [Task.bind_of_ok hout]
    obtain ⟨hagree', hfiles', hlisting', hoptions', hmode'⟩ := hnext a b d hab hoptions
    have hjournal : ((⟨journal, .ok b⟩ : Stage β) >>= rest).journal =
      journal ++ (rest b).journal := rfl
    refine ⟨hagree', ?_, ?_, hoptions'.trans hoptions, hmode'.trans hmode⟩
    · rw [hjournal, List.filterMap_append, List.foldl_append, hfiles', hfiles]
    · rw [hjournal, Journal.listing, List.flatMap_append, Assembler.kept_append, hlisting',
        hlisting, Assembler.kept_congr hmode, List.append_assoc]
      rfl

/-- An event that the listing does not show. If it is about a file, the compiler has noted the
file. -/
theorem noted {e : Event} {d : Compiler} {out : Except Failure α × Compiler} {p : Stage β}
    (h : Mirrors R d out p) (hd : d = { c with files := e.file?.toList.foldl addPath c.files })
    (hlisting : e.listing = []) : Mirrors R c out (Stage.note e >>= fun _ => p) := by
  subst hd
  have hjournal : (Stage.note e >>= fun _ => p).journal = e :: p.journal := rfl
  have hpaths : (e :: p.journal).filterMap Event.file? =
      e.file?.toList ++ p.journal.filterMap Event.file? := by
    cases hfile : e.file? with
    | none => rw [List.filterMap_cons_none hfile, Option.toList_none, List.nil_append]
    | some path => rw [List.filterMap_cons_some hfile, Option.toList_some, List.singleton_append]
  refine ⟨h.agree, ?_, ?_, h.options, h.listingMode⟩
  · rw [hjournal, hpaths, List.foldl_append]
    exact h.files
  · rw [hjournal, Journal.listing, List.flatMap_cons, hlisting]
    exact h.listing

/-- A change of the script state. -/
theorem change {d : Compiler} {out : Except Failure α × Compiler} {p : Stage β}
    (h : Mirrors R d out p)
    (hd : { d with toScriptState := c.toScriptState } = c) : Mirrors R c out p := by
  rw [← hd]
  exact ⟨h.agree, h.files, h.listing, h.options, h.listingMode⟩

end Mirrors

/-! ## Includes -/

/-- Opening an Include, and then what `next` does with the commands of its file. -/
theorem openInclude_mirrors {cmd : Command} {next : List Command → Task Compiler γ}
    {rest : List Command → Stage δ}
    (h : ∀ cmds d, d.toScriptState = c.toScriptState → Mirrors S d (next cmds d) (rest cmds)) :
    Mirrors S c ((openInclude tree cmd >>= next) c)
      (Stage.ofResult (cmd.blame (Include.open? tree cmd)) >>= fun file =>
        Stage.note (.included file.1) >>= fun _ =>
          rest ((Include.commandsOf file.1 file.2).map (·.broughtBy cmd))) := by
  cases hopen : cmd.blame (Include.open? tree cmd) with
  | error f =>
    have hout : openInclude tree cmd c = (.error f, c) := by
      rw [openInclude, hopen]
      rfl
    rw [Task.bind_of_error hout]
    exact Mirrors.of_agree (.error f)
  | ok file =>
    obtain ⟨path, content⟩ := file
    have hout : openInclude tree cmd c =
        (.ok ((Include.commandsOf path content).map (·.broughtBy cmd)), c.addFile path) := by
      rw [openInclude, hopen]
      rfl
    rw [Task.bind_of_ok hout]
    exact (h _ (c.addFile path) rfl).noted rfl rfl

theorem expandList_mirrors {nested : List Command → Bool → Task Compiler Include.Expansion}
    {nested' : List Command → Bool → Stage Include.Expansion}
    (hnested : ∀ cmds inside c,
      Mirrors (Same c.toScriptState) c (nested cmds inside c) (nested' cmds inside))
    (cmds : List Command) (inside : Bool) (c : Compiler) :
    Mirrors (Same c.toScriptState) c (expandList tree nested cmds inside c)
      (Include.expandList tree nested' cmds inside) := by
  induction cmds generalizing inside c with
  | nil => exact .give ⟨rfl, rfl⟩
  | cons cmd cmds ih =>
    -- the three cases in which the command stays in its place
    have hstays (inside' : Bool) : Mirrors (Same c.toScriptState) c
        ((expandList tree nested cmds inside' >>= fun x =>
          (pure (cmd :: x.1, x.2) : Task Compiler Include.Expansion)) c)
        (Include.expandList tree nested' cmds inside' >>= fun x => pure (cmd :: x.1, x.2)) := by
      refine (ih inside' c).bind fun a b d hab _ => ?_
      obtain ⟨rfl, hd⟩ := hab
      exact .give ⟨rfl, hd⟩
    rw [expandList, Include.expandList]
    by_cases hfunction : cmd.name = ascii "FUNCTION"
    · rw [if_pos hfunction, if_pos hfunction]
      exact hstays true
    rw [if_neg hfunction, if_neg hfunction]
    by_cases hend : cmd.name = ascii "ENDFUNCTION"
    · rw [if_pos hend, if_pos hend]
      exact hstays false
    rw [if_neg hend, if_neg hend]
    by_cases hinclude : (cmd.name = ascii "INCLUDE" && !inside) = true
    · rw [if_pos hinclude, if_pos hinclude]
      have hfile (opened : List Command) (d : Compiler) (hd : d.toScriptState = c.toScriptState) :
          Mirrors (Same c.toScriptState) d
            ((nested opened inside >>= fun x => expandList tree nested cmds x.2 >>= fun y =>
              (pure (x.1 ++ y.1, y.2) : Task Compiler Include.Expansion)) d)
            (nested' opened inside >>= fun x => Include.expandList tree nested' cmds x.2 >>=
              fun y => pure (x.1 ++ y.1, y.2)) := by
        rw [← hd]
        refine (hnested opened inside d).bind fun x b e hab _ => ?_
        obtain ⟨rfl, he⟩ := hab
        refine (ih x.2 e).bind fun y b g hab _ => ?_
        obtain ⟨rfl, hg⟩ := hab
        exact .give ⟨rfl, hg.trans he⟩
      exact openInclude_mirrors hfile
    · rw [if_neg hinclude, if_neg hinclude]
      exact hstays inside

theorem expandWithin_mirrors (depth : Nat) (cmds : List Command) (inside : Bool) (c : Compiler) :
    Mirrors (Same c.toScriptState) c (expandWithin tree depth cmds inside c)
      (Include.expandWithin tree depth cmds inside) := by
  induction depth generalizing cmds inside c with
  | zero =>
    have hleft (cmds : List Command) (inside : Bool) (c : Compiler) :
        Mirrors (Same c.toScriptState) c
        ((pure (cmds, inside) : Task Compiler Include.Expansion) c) (pure (cmds, inside)) :=
      .give ⟨rfl, rfl⟩
    exact expandList_mirrors hleft cmds inside c
  | succ depth ih => exact expandList_mirrors ih cmds inside c

theorem expandIncludes_mirrors (cmds : List Command) (c : Compiler) :
    Mirrors (Same c.toScriptState) c (expandIncludes tree cmds c) (Include.expand tree cmds) := by
  refine (expandWithin_mirrors _ cmds false c).bind fun a b d hab _ => ?_
  obtain ⟨rfl, hd⟩ := hab
  exact .give ⟨rfl, hd⟩

/-! ## Functions -/

/-- The commands outside functions, with the functions in the script state and the rest of it as in
`k`. -/
def Extracted (k : ScriptState) (rest : List Command) (s : ScriptState)
    (out : List Function × List Command) : Prop :=
  out = (s.functions, rest) ∧ s = { k with functions := s.functions }

theorem addToBody_functions {functions : List Function} {f : Function}
    (h : c.functions = functions ++ [f]) (cmd : Command) :
    (c.addToBody cmd).functions = functions ++ [{ f with body := f.body ++ [cmd] }] := by
  simp [addToBody, h]

theorem start_closed {functions : List Function} {cmd : Command} {cmds : List Command}
    {f : Function} (h : cmd.blame (Function.start functions cmd cmds) = .ok f) :
    cmds.any (·.name == ascii "ENDFUNCTION") = true := by
  have hstart := Command.blame_eq_ok.1 h
  unfold Function.start at hstart
  split at hstart
  · assumption
  · cases hstart

/-- The induction keeps two facts: outside a definition the functions found are those of the
compiler; inside one, the last function of the compiler is the one that is open, and its end is
still to come. -/
theorem extractFrom_mirrors (cmds : List Command) (c : Compiler) :
    Mirrors (Extracted c.toScriptState) c (extractFrom false cmds c)
        (Function.extractFrom c.functions none cmds) ∧
      ∀ functions f, c.functions = functions ++ [f] →
        cmds.any (·.name == ascii "ENDFUNCTION") = true →
        Mirrors (Extracted c.toScriptState) c (extractFrom true cmds c)
          (Function.extractFrom functions (some f) cmds) := by
  induction cmds generalizing c with
  | nil => exact ⟨.give ⟨rfl, rfl⟩, fun _ _ _ hend => by cases hend⟩
  | cons cmd cmds ih =>
    refine ⟨?_, fun functions f hopen hclosed => ?_⟩
    · rw [extractFrom, Function.extractFrom]
      by_cases hend : cmd.name = ascii "ENDFUNCTION"
      · rw [if_pos hend, if_pos hend]
        exact .refused rfl rfl
      rw [if_neg hend, if_neg hend]
      by_cases hfunction : cmd.name = ascii "FUNCTION"
      · rw [if_pos hfunction, if_pos hfunction]
        rw [Task.read_bind]
        cases hstart : cmd.blame (Function.start c.functions cmd cmds) with
        | error f => exact .of_agree (.error f)
        | ok f =>
          have hmirrors := (ih (c.addFunction f)).2 c.functions f rfl (start_closed hstart)
          exact hmirrors.change rfl
      · rw [if_neg hfunction, if_neg hfunction]
        refine (ih c).1.bind fun rest out d hab _ => ?_
        obtain ⟨rfl, hd⟩ := hab
        exact .give ⟨rfl, hd⟩
    · rw [extractFrom, Function.extractFrom]
      by_cases hend : cmd.name = ascii "ENDFUNCTION"
      · rw [if_pos hend, if_pos hend, ← hopen]
        exact (ih c).1.noted rfl rfl
      rw [if_neg hend, if_neg hend]
      by_cases hfunction : cmd.name = ascii "FUNCTION"
      · rw [if_pos hfunction, if_pos hfunction]
        exact .refused rfl rfl
      rw [if_neg hfunction, if_neg hfunction]
      by_cases hinclude : cmd.name = ascii "INCLUDE"
      · rw [if_pos hinclude, if_pos hinclude]
        exact .refused rfl rfl
      rw [if_neg hinclude, if_neg hinclude]
      have hrest : cmds.any (·.name == ascii "ENDFUNCTION") = true := by
        simpa [hend] using hclosed
      have hmirrors := (ih (c.addToBody cmd)).2 functions _ (addToBody_functions hopen cmd) hrest
      exact hmirrors.change rfl

/-! ## Variables -/

/-- The commands that are no definitions, with the definitions in the script state and the rest of
it as in `k`. -/
def Collected (k : ScriptState) (rest : List Command) (s : ScriptState)
    (out : DefinitionTable × List Command) : Prop :=
  out = (s.definitions, rest) ∧ s = { k with definitions := s.definitions }

/-- The definitions of a list of commands added to a table, and the other commands. -/
def collectInto (t : DefinitionTable) (cmds : List Command) :
    Except Failure (DefinitionTable × List Command) := do
  let sets ← (cmds.filter (·.name == ascii "SET")).mapM DefinitionTable.ofCommand
  return (sets.foldl DefinitionTable.add t, cmds.filter (·.name != ascii "SET"))

theorem collectInto_set {cmd : Command} (h : cmd.name = ascii "SET") (t : DefinitionTable)
    (cmds : List Command) :
    collectInto t (cmd :: cmds) = DefinitionTable.ofCommand cmd >>= fun d =>
      collectInto (t.add d) cmds := by
  simp [collectInto, h]

theorem collectInto_other {cmd : Command} (h : cmd.name ≠ ascii "SET") (t : DefinitionTable)
    (cmds : List Command) :
    collectInto t (cmd :: cmds) = collectInto t cmds >>= fun out => pure (out.1, cmd :: out.2) := by
  simp [collectInto, h]

theorem ofResult_bind (r : Except Failure β) (rest : β → Except Failure δ) :
    Stage.ofResult (r >>= rest) = Stage.ofResult r >>= fun b => Stage.ofResult (rest b) := by
  cases r with
  | error f => rfl
  | ok b => rfl

theorem collect_mirrors (cmds : List Command) (c : Compiler) :
    Mirrors (Collected c.toScriptState) c (collect cmds c)
      (Stage.ofResult (collectInto c.definitions cmds)) := by
  induction cmds generalizing c with
  | nil => exact .give ⟨rfl, rfl⟩
  | cons cmd cmds ih =>
    rw [collect]
    by_cases hset : cmd.name = ascii "SET"
    · rw [if_pos hset, collectInto_set hset, ofResult_bind]
      refine (Mirrors.ofResult _).bind fun d b c₁ hab _ => ?_
      obtain ⟨rfl, h₁⟩ := hab
      rw [← h₁]
      exact (ih (c₁.addDefinition d)).change rfl
    · rw [if_neg hset, collectInto_other hset, ofResult_bind]
      refine (ih c).bind fun rest out d hab _ => ?_
      obtain ⟨rfl, hd⟩ := hab
      exact .give ⟨rfl, hd⟩

theorem defineAll_mirrors (cmds : List Command) (h : c.definitions = {}) :
    Mirrors (Collected c.toScriptState) c (defineAll cmds c) (Compile.defineAll cmds) := by
  have hcollect : DefinitionTable.collect cmds = collectInto c.definitions cmds := by
    rw [h]
    rfl
  rw [defineAll, Compile.defineAll, hcollect]
  refine (collect_mirrors cmds c).bind fun rest out d hab _ => ?_
  obtain ⟨rfl, hd⟩ := hab
  refine Mirrors.noted ?_ rfl rfl
  rw [Task.read_bind, ← Task.bind_give (Task.ofResult (d.definitions.substituteAll rest))]
  refine (Mirrors.ofResult _).bind fun cmds b e hab _ => ?_
  obtain ⟨rfl, he⟩ := hab
  refine .give ⟨?_, ?_⟩
  · rw [he]
  · rw [he]
    exact hd

theorem flatten_mirrors (cmds : List Command) (h : c.toScriptState = {}) :
    Mirrors (fun cmds s out => out = (s.definitions, cmds) ∧ s.encoding = .utf8) c
      (flatten tree cmds c) (Compile.flatten tree cmds) := by
  rw [flatten, Compile.flatten]
  refine (expandIncludes_mirrors cmds c).bind fun cmds b c₁ hab _ => ?_
  obtain ⟨rfl, h₁⟩ := hab
  have hextract : Function.extract cmds = Function.extractFrom c₁.functions none cmds := by
    rw [Function.extract, h₁, h]
  rw [hextract]
  refine (extractFrom_mirrors cmds c₁).1.bind fun rest out c₂ hab _ => ?_
  obtain ⟨rfl, h₂⟩ := hab
  have hcalls : Mirrors (Same c₂.toScriptState) c₂ (expandCalls rest c₂)
      (Stage.ofResult (Call.expand c₂.functions rest)) := by
    rw [expandCalls, Task.read_bind]
    exact .ofResult _
  refine hcalls.bind fun cmds b c₃ hab _ => ?_
  obtain ⟨rfl, h₃⟩ := hab
  have hempty : c₃.definitions = {} ∧ c₃.encoding = .utf8 := by
    rw [h₃, h₂, h₁, h]
    exact ⟨rfl, rfl⟩
  rw [← Task.bind_give (defineAll cmds)]
  refine (defineAll_mirrors cmds hempty.1).bind fun cmds out c₄ hab _ => ?_
  obtain ⟨rfl, h₄⟩ := hab
  refine Mirrors.noted (.give ⟨rfl, ?_⟩) rfl rfl
  rw [h₄]
  exact hempty.2

/-! ## Rendering -/

theorem close_mirrors (s : AsmScope) (cmd : Command) (c : Compiler) :
    Mirrors (Same c.toScriptState) c (close s cmd c) (AsmScope.close c.definitions s cmd) := by
  rw [close, AsmScope.close]
  by_cases hargs : cmd.args.isEmpty = true
  · rw [if_pos hargs, if_pos hargs]
    set outcome := Assembly.assemble c.definitions s.place s.lines
    show Mirrors _ c _ (Stage.ofResult outcome.words >>= fun words =>
      Stage.note (.assembled outcome.listing) >>= fun _ => pure (Code.ofWords s.place words))
    obtain ⟨hwords, hlisting, hmode⟩ :=
      Assembler.assemble_eq c.definitions s.place s.lines c.assembler
    generalize hout : Assembler.assemble c.definitions s.place s.lines c.assembler = out
      at hwords hlisting hmode
    obtain ⟨words, a⟩ := out
    have hassemble : assemble s.place s.lines c = (words, { c with assembler := a }) := by
      rw [assemble, hout]
    rw [show outcome.words = words from hwords.symm]
    cases words with
    | error f =>
      rw [Task.bind_of_error hassemble]
      refine ⟨.error f, rfl, ?_, rfl, hmode⟩
      show c.listing = c.listing ++ c.assembler.kept []
      rw [Assembler.kept_nil, List.append_nil]
    | ok words =>
      rw [Task.bind_of_ok hassemble]
      refine ⟨.ok ⟨rfl, rfl⟩, rfl, ?_, rfl, hmode⟩
      show c.listing ++ a.listing = c.listing ++ c.assembler.kept (outcome.listing ++ [])
      rw [List.append_nil, ← show a.listing = _ from hlisting]
  · rw [if_neg hargs, if_neg hargs]
    exact .refused rfl rfl

/-- The pieces are the same, whatever encoding the script state is left with. -/
theorem renderFrom_mirrors [TextEncoder] (scope : Option AsmScope) (cmds : List Command)
    (c : Compiler) : Mirrors Alike c (renderFrom scope cmds c)
      (CheatScript.renderFrom c.definitions c.encoding scope cmds) := by
  induction cmds generalizing scope c with
  | nil =>
    cases scope with
    | none => exact .give rfl
    | some s => exact .refused rfl rfl
  | cons cmd cmds ih =>
    -- a piece in front of those to come
    have hpiece (piece : Piece) (d : Compiler) (hd : d.toScriptState = c.toScriptState) :
        Mirrors Alike d
          ((renderFrom none cmds >>= fun pieces =>
            (pure (piece :: pieces) : Task Compiler (List Piece))) d)
          (CheatScript.renderFrom c.definitions c.encoding none cmds >>= fun pieces =>
            pure (piece :: pieces)) := by
      rw [← hd]
      refine (ih none d).bind fun pieces pieces' e heq _ => ?_
      obtain rfl : pieces = pieces' := heq
      exact .give rfl
    cases scope with
    | some s =>
      rw [renderFrom, CheatScript.renderFrom]
      by_cases hend : cmd.name = ascii "ASM_END"
      · rw [if_pos hend, if_pos hend]
        refine (close_mirrors s cmd c).bind fun codes b d hab _ => ?_
        obtain ⟨rfl, hd⟩ := hab
        exact hpiece _ d hd
      · rw [if_neg hend, if_neg hend]
        exact ih (some (s.add cmd)) c
    | none =>
      rw [renderFrom, CheatScript.renderFrom]
      by_cases hstart : cmd.name = ascii "ASM_START"
      · rw [if_pos hstart, if_pos hstart]
        refine (Mirrors.ofResult _).bind fun s b d hab _ => ?_
        obtain ⟨rfl, hd⟩ := hab
        rw [← hd]
        exact ih (some s) d
      rw [if_neg hstart, if_neg hstart]
      rw [Task.read_bind]
      refine (Mirrors.ofResult _).bind fun statement b d hab _ => ?_
      obtain ⟨rfl, hd⟩ := hab
      cases statement with
      | encoding e =>
        have hmirrors := ih none { d with encoding := e }
        rw [← hd]
        exact hmirrors.change rfl
      | emit f => exact hpiece _ d hd
      | openIf condition => exact hpiece _ d hd
      | closeIf => exact hpiece _ d hd

/-! ## Scripts -/

theorem packed_mirrors [TextEncoder] (cmds : List Command) (h : c.toScriptState = {}) :
    Mirrors Alike c (packed tree cmds c)
      (Compile.packed tree cmds) := by
  rw [packed, Compile.packed]
  refine (flatten_mirrors cmds h).bind fun cmds out d hab _ => ?_
  obtain ⟨rfl, hencoding⟩ := hab
  have hrender : render d.definitions cmds =
      CheatScript.renderFrom d.definitions d.encoding none cmds := by
    rw [hencoding]
    rfl
  show Mirrors _ d _
    (render d.definitions cmds >>= fun pieces => Stage.ofResult (Scope.pack pieces))
  rw [hrender]
  refine (renderFrom_mirrors none cmds d).bind fun pieces pieces' e heq _ => ?_
  obtain rfl : pieces = pieces' := heq
  refine .of_agree ?_
  cases Scope.pack pieces with
  | error f => exact .error f
  | ok codes => exact .ok rfl

theorem compile_mirrors [TextEncoder] (path : Bytes) (lines : List Bytes)
    (h : c.toScriptState = {}) : Mirrors Alike c (compile tree path lines c)
      (Compile.lines tree c.options.form path lines) := by
  rw [compile, Compile.lines]
  cases Source.commands path (Source.cleanUp lines) with
  | nil => exact .give rfl
  | cons cmd cmds =>
    refine (packed_mirrors (cmd :: cmds) h).bind fun codes codes' d heq hoptions => ?_
    obtain rfl : codes = codes' := heq
    rw [Task.read_bind, hoptions]
    exact .give rfl

/-! ## One script after the other -/

theorem foldl_addPath (paths : List Bytes) : paths.foldl addPath [] = paths.eraseDups := by
  induction paths using List.reverseRecOn with
  | nil => rfl
  | append_singleton paths path ih =>
    rw [List.foldl_append, ih, List.eraseDups_append, List.foldl_cons, List.foldl_nil, addPath]
    by_cases hmem : path ∈ paths
    · have hold : [path].removeAll paths = [] := by simp [List.removeAll, hmem]
      rw [if_pos (List.mem_eraseDups.2 hmem), hold, List.eraseDups_nil, List.append_nil]
    · have hnew : [path].removeAll paths = [path] := by simp [List.removeAll, hmem]
      rw [if_neg (mt List.mem_eraseDups.1 hmem), hnew]
      rfl

/-- Compiling the script of a request on its own. -/
def Request.stage [TextEncoder] (tree : FileTree) (form : OutputForm) :
    Request → Except Refusal (Stage Bytes)
  | .lines path source => .ok (Compile.lines tree form path source)
  | .file path => (Compile.script tree form path).mapError (Refusal.unreadable path)

/-- The answer that compiling a script on its own gives. A script that cannot be read leaves nothing
behind. -/
def Answer.ofStage (listing : Bool) : Except Refusal (Stage Bytes) → Answer
  | .error e => ⟨.error e, [], []⟩
  | .ok s => ⟨s.result.mapError Refusal.faulty, s.journal.files,
      if listing then s.journal.listing else []⟩

/-- What is read off a compiler after it has compiled a script. -/
def Answer.ofRun (out : Except Failure Bytes × Compiler) : Answer :=
  ⟨out.1.mapError Refusal.faulty, out.2.files.mergeSort Bytes.precedes, out.2.listing⟩

/-- What is read off a compiler that started from nothing but its options is the answer of the
stage. -/
theorem Mirrors.ofRun_eq {out : Except Failure Bytes × Compiler} {s : Stage Bytes}
    (h : Mirrors Alike c out s) (hfiles : c.files = [])
    (hlisting : c.listing = []) (hmode : c.assembler.listingMode = c.options.listing) :
    Answer.ofRun out = .ofStage c.options.listing (.ok s) := by
  have hresult : out.1 = s.result := by
    obtain ⟨hagree, -, -, -, -⟩ := h
    generalize out.1 = result, s.result = result' at hagree
    cases hagree with
    | error f => rfl
    | ok heq => rw [heq]
  rw [Answer.ofRun, hresult, h.files, h.listing, hfiles, hlisting, foldl_addPath, List.nil_append,
    Assembler.kept, hmode]
  rfl

/-- The answer to a request is that of compiling its script on its own, whatever the compiler holds
from before. -/
theorem answer_eq [TextEncoder] (tree : FileTree) (r : Request)
    (hmode : c.assembler.listingMode = c.options.listing) :
    (c.answer tree r).1 = .ofStage c.options.listing (r.stage tree c.options.form) ∧
      (c.answer tree r).2.options = c.options ∧
      (c.answer tree r).2.assembler.listingMode = c.assembler.listingMode := by
  cases r with
  | lines path lines =>
    have hcompile : Mirrors Alike c.reset (compile tree path lines c.reset)
        (Compile.lines tree c.options.form path lines) :=
      compile_mirrors path lines rfl
    rw [answer, serve]
    generalize compile tree path lines c.reset = out at hcompile
    exact ⟨hcompile.ofRun_eq rfl rfl hmode, hcompile.options, hcompile.listingMode⟩
  | file path =>
    rw [answer, serve, Request.stage, Compile.script]
    cases tree.read path with
    | error e =>
      refine ⟨?_, rfl, rfl⟩
      show (⟨_, [].mergeSort Bytes.precedes, []⟩ : Answer) = _
      rw [List.mergeSort_nil]
      rfl
    | ok content =>
      have hcompile : Mirrors Alike (c.reset.addFile path)
          (compile tree path (Source.linesOf content) (c.reset.addFile path))
          (Compile.lines tree c.options.form path (Source.linesOf content)) :=
        compile_mirrors path (Source.linesOf content) rfl
      have hread : Mirrors Alike c.reset
          (compile tree path (Source.linesOf content) (c.reset.addFile path))
          (Compile.content tree c.options.form path content) :=
        hcompile.noted rfl rfl
      dsimp only
      generalize compile tree path (Source.linesOf content) (c.reset.addFile path) = out at hread
      exact ⟨hread.ofRun_eq rfl rfl hmode, hread.options, hread.listingMode⟩

theorem answerAll_eq [TextEncoder] {o : CompilerOptions} (requests : List Request)
    (hoptions : c.options = o) (hmode : c.assembler.listingMode = o.listing) :
    c.answerAll tree requests =
      requests.map fun r => .ofStage o.listing (r.stage tree o.form) := by
  induction requests generalizing c with
  | nil => rfl
  | cons r requests ih =>
    subst hoptions
    obtain ⟨hanswer, hoptions, hmode'⟩ := answer_eq tree r hmode
    have hstep : c.answerAll tree (r :: requests) =
      (c.answer tree r).1 :: (c.answer tree r).2.answerAll tree requests := rfl
    rw [hstep, hanswer, ih hoptions (hmode'.trans hmode), List.map_cons]

/-- Nothing is carried from one use to the next. Every answer of a compiler, after any requests and
with any of them failing, is that of a new compiler with the same options, and every report of an
assembler is that of a new one. -/
theorem answerAll_fresh [TextEncoder] (tree : FileTree) (o : CompilerOptions)
    (requests : List Request) (a : Assembler) (jobs : List Assembler.Job) :
    (new o).answerAll tree requests = requests.map (fun r => ((new o).answer tree r).1) ∧
      a.runAll jobs = jobs.map (fun job => (({} : Assembler).run job).1) := by
  refine ⟨?_, ?_⟩
  · rw [answerAll_eq requests rfl rfl]
    refine List.map_congr_left fun r _ => ?_
    exact (answer_eq tree r rfl).1.symm
  · rw [Assembler.runAll_eq]
    refine List.map_congr_left fun job _ => ?_
    exact (Assembler.run_eq {} job).symm

/-- A script that fails leaves its function behind, and the next script can define the function
again. -/
example :
    let header := [ascii "Function F()", ascii "EndFunction"]
    let failing := Request.lines (ascii "a") (header ++ [ascii "EndFunction"])
    let next := Request.lines (ascii "a") (header ++ [ascii "Write32 20100000 1"])
    let tree : FileTree := { here := [], files := [] }
    ((new {}).serve tree failing).2.functions.map (·.name) = [ascii "F"] ∧
      ((new {}).answerAll tree [failing, next]).map (·.result.toOption) =
        [none, some (ascii "20100000 00000001")] := by
  decide

end CheatScript.Compiler
