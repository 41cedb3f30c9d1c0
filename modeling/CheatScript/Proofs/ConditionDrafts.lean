import CheatScript.Proofs.CodeLines
import CheatScript.Proofs.ScopeCapacity
import CheatScript.Proofs.ScopeMeaning
import CheatScript.Proofs.SplitText

/-!
# Proofs: conditions written before their scopes are counted

How many lines a condition skips is known only when all scopes are nested and split. Until then its
line can be carried as a text with `nn` in place of the number, written in the type that is asked
for from the start. This module packs such drafts step by step as texts: clauses are written one by
one, too long scopes are cut in a loop, and at the end every `nn` is replaced by the lines of its
scope. The result is the text of the packed codes, in either type, and a failure is the same.
-/

namespace CheatScript

open Outcome

/-! ## Drafts -/

/-- What a command has been written as so far. -/
inductive Draft
  /-- A condition with `nn` in its text. -/
  | test (command : Command) (text : Bytes)
  /-- The end of a scope. -/
  | close (command : Command)
  /-- Codes and texts, with the number of lines they count for. -/
  | output (command : Command) (text : Bytes) (lines : Nat)
  deriving DecidableEq, Repr

/-- What stands for the number of lines to skip. -/
def placeholder : Bytes := ascii "nn"

/-- The text of a condition, `Daaaaaaa nnctvvvv` or `Etnnvvvv caaaaaaa`, on a line of its own. -/
def Condition.draft (k : Condition) : ConditionType → Bytes
  | .d => ascii "\nD" ++ Hex.fixed 7 k.address.toNat ++ [Byte.space] ++ placeholder
      ++ [Hex.digit k.comparison.code, widthDigit k.width] ++ k.valueDigits
  | .e => ascii "\nE" ++ [widthDigit k.width] ++ placeholder ++ k.valueDigits ++ [Byte.space]
      ++ [Hex.digit k.comparison.code] ++ Hex.fixed 7 k.address.toNat

/-- A text with a number of lines in place of every `nn`. -/
def fillIn (skip : Nat) (s : Bytes) : Bytes := Bytes.replace [(placeholder, Hex.padded 2 skip)] s

namespace Draft

/-- The command of a draft. -/
def command : Draft → Command
  | .test c _ => c
  | .close c => c
  | .output c _ _ => c

/-- The number of lines a draft counts for. -/
def weight : Draft → Nat
  | .test _ _ => 1
  | .close _ => 0
  | .output _ _ n => n

/-- Whether a draft is a condition. -/
def isTest : Draft → Bool
  | .test _ _ => true
  | _ => false

/-- The drafts of a list of commands, under the encoding chosen before them and in the asm scope
that is open. Conditions are written in a type. -/
def renderFrom [TextEncoder] (type : ConditionType) (t : DefinitionTable) :
    TextEncoding → Option AsmScope → List Command → Stage (List Draft)
  | _, none, [] => return []
  | _, some s, [] => Stage.ofResult (s.last.refuse .missAsmEnd)
  | e, some s, c :: cmds =>
    if c.name = ascii "ASM_END" then do
      let codes ← s.close t c
      let drafts ← renderFrom type t e none cmds
      return .output c (Fragment.codes codes).text (Fragment.codes codes).weight :: drafts
    else renderFrom type t e (some (s.add c)) cmds
  | e, none, c :: cmds =>
    if c.name = ascii "ASM_START" then do
      let s ← Stage.ofResult (c.blame (AsmScope.ofCommand c))
      renderFrom type t e (some s) cmds
    else do
      match ← Stage.ofResult (Statement.ofCommand e c) with
      | .encoding e => renderFrom type t e none cmds
      | .emit f =>
        let drafts ← renderFrom type t e none cmds
        return .output c f.text f.weight :: drafts
      | .openIf condition =>
        let drafts ← renderFrom type t e none cmds
        return .test c (condition.draft type) :: drafts
      | .closeIf =>
        let drafts ← renderFrom type t e none cmds
        return .close c :: drafts

/-- The drafts of a script. -/
def render [TextEncoder] (type : ConditionType) (t : DefinitionTable) (cmds : List Command) :
    Stage (List Draft) :=
  renderFrom type t .utf8 none cmds

/-! ## Scopes of drafts -/

/-- The lines up to the end of the scope that is open, if it is closed; `depth` scopes inside it are
open as well. -/
def linesFrom : (depth : Nat) → List Draft → Option Nat
  | _, [] => none
  | 0, .close _ :: _ => some 0
  | depth + 1, .close _ :: rest => linesFrom depth rest
  | depth, .test _ _ :: rest => (linesFrom (depth + 1) rest).map (· + 1)
  | depth, .output _ _ n :: rest => (linesFrom depth rest).map (· + n)

/-- The lines of the scope in front of the given drafts; a scope that is not closed has none. -/
def lines (rest : List Draft) : Nat := (linesFrom 0 rest).getD 0

/-- Refuses the first condition whose scope is not closed. -/
def closed : List Draft → Except Failure Unit
  | [] => .ok ()
  | .test c _ :: rest => if (linesFrom 0 rest).isNone then c.refuse .missEndIf else closed rest
  | _ :: rest => closed rest

/-- The condition of one more clause. -/
def extraTest (type : ConditionType) (c : Command) (n : Nat) : Except Failure Draft :=
  let c := c.withParts c.name (Scope.clause c.args n)
  match Condition.read c.args with
  | .ok condition => .ok (.test c (condition.draft type))
  | .error kind => c.refuse kind

/-- Opens and closes the scopes of further clauses. `extra` has, for each open scope from the
innermost on, the number of scopes its end has to close besides it. -/
def nestFrom (type : ConditionType) : (extra : List Nat) → List Draft → Except Failure (List Draft)
  | _, [] => .ok []
  | extra, .test c s :: rest => do
    let n := Scope.extraClauses c
    let more ← (List.range n).mapM (extraTest type c)
    let rest ← nestFrom type (n :: extra) rest
    return .test c s :: more ++ rest
  | n :: extra, .close c :: rest => do
    let rest ← nestFrom type extra rest
    return List.replicate (n + 1) (.close c) ++ rest
  | extra, d :: rest => do
    let rest ← nestFrom type extra rest
    return d :: rest

/-! ## The loop that cuts scopes -/

/-- What looking through a scope that is too long comes to. -/
inductive Look
  /-- The scope ends. -/
  | ends
  /-- A part is full before the drafts `after`, where the conditions `opened` are open. -/
  | cut (before opened after : List Draft)
  /-- A draft that does not even fit a fresh part. -/
  | stuck (d : Draft)

/-- The look with one more draft in front. -/
def Look.push (d : Draft) : Look → Look
  | .cut before opened after => .cut (d :: before) opened after
  | l => l

/-- The lines in front of a draft. The line of a condition that would be the last one of a part is
counted twice, which moves the condition to the next part. -/
def countedLines (lines : Nat) : Draft → Nat
  | .test _ _ => if lines + 1 = Scope.maxLines then lines + 1 else lines
  | _ => lines

/-- The conditions that are open after a draft, from the outermost on. -/
def openAfter (opened : List Draft) : Draft → List Draft
  | .test c s => opened ++ [.test c s]
  | .close _ => opened.dropLast
  | .output _ _ _ => opened

/-- Looks through a scope from a place on where the conditions `opened` are open and the part has
`lines` lines. A fresh part has to be shorter than the one it follows. -/
def look : (opened : List Draft) → (lines : Nat) → List Draft → Look
  | _, _, [] => .ends
  | opened, lines, d :: rest =>
    if Scope.maxLines < countedLines lines d + d.weight then
      if countedLines lines d ≤ opened.length - 1 then .stuck d else .cut [] opened (d :: rest)
    else match openAfter opened d with
      | [] => .ends
      | o :: opened => (look (o :: opened) (lines + d.weight) rest).push d

/-- The command of an end that a cut makes. It comes from no line. -/
def madeEnd : Command := Command.ofLine (ascii "ENDIF")

/-- Closes all open scopes and opens them again. -/
def reopen (opened : List Draft) : List Draft :=
  List.replicate opened.length (.close madeEnd) ++ opened

/-- The state of the loop: the drafts it has passed and those ahead of it. -/
structure Cutting where
  passed : List Draft
  ahead : List Draft

/-- The drafts to go on with after a look through them. -/
def Look.resume (rest : List Draft) : Look → Except Failure (List Draft)
  | .ends => .ok rest
  | .cut before opened after => .ok (before ++ (reopen opened ++ after))
  | .stuck d => d.command.refuse .ifScopeTooLarge

/-- What follows a condition after one turn of the loop. -/
def cutScope (d : Draft) (rest : List Draft) : Except Failure (List Draft) :=
  if lines rest ≤ Scope.maxLines then .ok rest else (look [d] 0 rest).resume rest

/-- One turn of the loop: it passes a draft. Where that is a condition with a scope that is too
long, the scope is cut, and the loop goes on with the drafts that are there then. -/
def turn (s : Cutting) : Option (Except Failure Cutting) := match s.ahead with
  | [] => none
  | d :: rest =>
    some ((if d.isTest then cutScope d rest else .ok rest).map fun ahead =>
      ⟨s.passed ++ [d], ahead⟩)

/-- What packing drafts comes to. Without a condition nothing is packed. -/
def Packs (type : ConditionType) (drafts : List Draft) : Except Failure (List Draft) → Prop :=
  if drafts.any isTest then
    Then (· = closed drafts) fun _ =>
    Then (· = nestFrom type [] drafts) fun nested =>
    fun r => ∃ x, Loop.Ends turn ⟨[], nested⟩ x ∧ r = x.map Cutting.passed
  else fun r => r = .ok drafts

/-- The texts of packed drafts, with the lines of each scope in place of `nn`. -/
def texts : List Draft → List Bytes
  | [] => []
  | .test _ s :: rest => fillIn (lines rest) s :: texts rest
  | .close _ :: rest => texts rest
  | .output _ s _ :: rest => s :: texts rest

end Draft

/-! ## Filling in -/

/-- Bytes that cannot start the placeholder stay. -/
theorem fillIn_plain {s : Bytes} (skip : Nat) (h : (0x6E : UInt8) ∉ s) (rest : Bytes) :
    fillIn skip (s ++ rest) = s ++ fillIn skip rest := by
  induction s with
  | nil => rfl
  | cons c s ih =>
    obtain ⟨hc, hs⟩ := not_or.1 (mt List.mem_cons.2 h)
    have hafter : Bytes.after? placeholder (c :: (s ++ rest)) = none := if_neg hc
    have hrule : Bytes.rule? [(placeholder, Hex.padded 2 skip)] (c :: (s ++ rest)) = none := by
      rw [Bytes.rule?, Bytes.startsWith, hafter]
      rfl
    rw [List.cons_append, List.cons_append, ← ih hs]
    exact Bytes.edit_keep hrule

/-- The placeholder is replaced in one place if no byte around it can start it. -/
theorem fillIn_append {pre post : Bytes} (skip : Nat) (hpre : (0x6E : UInt8) ∉ pre)
    (hpost : (0x6E : UInt8) ∉ post) :
    fillIn skip (pre ++ (placeholder ++ post)) = pre ++ (Hex.padded 2 skip ++ post) := by
  have hmatch : fillIn skip (placeholder ++ post) = Hex.padded 2 skip ++ fillIn skip post := by
    refine Bytes.edit_match (by decide) ?_
    rfl
  have hrest : fillIn skip post = post := by
    have h := fillIn_plain skip hpost []
    rwa [List.append_nil, show fillIn skip [] = [] from rfl, List.append_nil] at h
  rw [fillIn_plain skip hpre, hmatch, hrest]

/-- A digit in upper case is no letter of the placeholder. -/
theorem Digits.not_mem {n : Nat} {s : Bytes} (h : Digits n s) : (0x6E : UInt8) ∉ s := by
  intro hmem
  have hdigit := h.2 _ hmem
  revert hdigit
  decide

/-- **A filled in condition is the line of the condition.** Its digits are in upper case, so only
the placeholder is replaced. -/
theorem fillIn_draft (type : ConditionType) (k : Condition) (skip : Nat) :
    fillIn skip (k.draft type) = Fragment.linesText [k.line type skip] := by
  have hcode : k.comparison.code < 16 := by cases k.comparison <;> decide
  have hwidth : Digits 1 [Condition.widthDigit k.width] := by
    cases k.width <;> exact .of_all rfl rfl
  have hvalue : Digits 4 k.valueDigits := .fixed 4 _
  have haddress : Digits 7 (Hex.fixed 7 k.address.toNat) := .fixed 7 _
  have hcomparison : Digits 1 [Hex.digit k.comparison.code] :=
    .cons hcode (.of_all rfl rfl)
  cases type with
  | d =>
    have hpre : (0x6E : UInt8) ∉ ascii "\nD" ++ Hex.fixed 7 k.address.toNat ++ [Byte.space] := by
      simp only [List.mem_append, not_or]
      exact ⟨⟨by decide, haddress.not_mem⟩, by decide⟩
    have hpost : (0x6E : UInt8) ∉
        [Hex.digit k.comparison.code] ++ [Condition.widthDigit k.width] ++ k.valueDigits := by
      simp only [List.mem_append, not_or]
      exact ⟨⟨hcomparison.not_mem, hwidth.not_mem⟩, hvalue.not_mem⟩
    have hfill := fillIn_append skip hpre hpost
    have hstart : ascii "\nD" = [Byte.newline, Hex.digit 0xD] := by decide
    rw [hstart] at hfill
    simpa [Condition.draft, Condition.line, Fragment.linesText, CodeLine.text, hstart] using hfill
  | e =>
    have hpre : (0x6E : UInt8) ∉ ascii "\nE" ++ [Condition.widthDigit k.width] := by
      simp only [List.mem_append, not_or]
      exact ⟨by decide, hwidth.not_mem⟩
    have hpost : (0x6E : UInt8) ∉ k.valueDigits ++ [Byte.space] ++ [Hex.digit k.comparison.code] ++
        Hex.fixed 7 k.address.toNat := by
      simp only [List.mem_append, not_or]
      exact ⟨⟨⟨hvalue.not_mem, by decide⟩, hcomparison.not_mem⟩, haddress.not_mem⟩
    have hfill := fillIn_append skip hpre hpost
    have hstart : ascii "\nE" = [Byte.newline, Hex.digit 0xE] := by decide
    rw [hstart] at hfill
    simpa [Condition.draft, Condition.line, Fragment.linesText, CodeLine.text, hstart] using hfill

/-! ## Drafts of pieces -/

namespace Draft

/-- Whether a draft is what a piece is written as in a type. -/
inductive Writes (type : ConditionType) : Piece → Draft → Prop
  | test (c : Command) (k : Condition) : Writes type (.test c k) (.test c (k.draft type))
  | close (c : Command) : Writes type .close (.close c)
  | output (c : Command) (f : Fragment) : Writes type (.output c f) (.output c f.text f.weight)

/-- Whether drafts are what pieces are written as, one by one. -/
abbrev WritesAll (type : ConditionType) : List Piece → List Draft → Prop :=
  List.Forall₂ (Writes type)

section Writing

variable {type : ConditionType} {p : Piece} {d : Draft} {pieces : List Piece} {drafts : List Draft}

theorem Writes.weight_eq (h : Writes type p d) : d.weight = p.weight := by
  cases h <;> rfl

theorem Writes.command_eq {c : Command} (h : Writes type p d) (hc : Scope.commandOf? p = some c) :
    d.command = c := by
  cases h with
  | test c' k => exact Option.some.inj hc
  | close c' => cases hc
  | output c' f => exact Option.some.inj hc

/-- **Rendering in a type writes what rendering gives**, and fails where it does. -/
theorem renderFrom_writes [TextEncoder] (type : ConditionType) (t : DefinitionTable)
    (e : TextEncoding) (scope : Option AsmScope) (cmds : List Command) :
    Agree (WritesAll type) (CheatScript.renderFrom t e scope cmds).result
      (renderFrom type t e scope cmds).result := by
  induction cmds generalizing e scope with
  | nil =>
    cases scope with
    | none => exact .ok .nil
    | some s => exact .error _
  | cons c cmds ih =>
    cases scope with
    | some s =>
      simp only [CheatScript.renderFrom, renderFrom]
      split
      · refine .bind_stage (.of_eq rfl) fun codes _ heq => ?_
        subst heq
        exact (ih e none).bind_stage fun _ _ hrest => .ok (.cons (.output c _) hrest)
      · exact ih e _
    | none =>
      simp only [CheatScript.renderFrom, renderFrom]
      split
      · refine .bind_stage (.of_eq rfl) fun s _ heq => ?_
        subst heq
        exact ih e _
      · refine .bind_stage (.of_eq rfl) fun statement _ heq => ?_
        subst heq
        cases statement with
        | encoding e => exact ih e none
        | emit f => exact (ih e none).bind_stage fun _ _ hrest => .ok (.cons (.output c f) hrest)
        | openIf k => exact (ih e none).bind_stage fun _ _ hrest => .ok (.cons (.test c k) hrest)
        | closeIf => exact (ih e none).bind_stage fun _ _ hrest => .ok (.cons (.close c) hrest)

theorem render_writes [TextEncoder] (type : ConditionType) (t : DefinitionTable)
    (cmds : List Command) :
    Agree (WritesAll type) (CheatScript.render t cmds).result (render type t cmds).result :=
  renderFrom_writes type t .utf8 none cmds

theorem linesFrom_eq (h : WritesAll type pieces drafts) (depth : Nat) :
    linesFrom depth drafts = Scope.weightFrom depth pieces := by
  induction h generalizing depth with
  | nil => rw [linesFrom, Scope.weightFrom]
  | cons hfirst _ ih =>
    cases hfirst with
    | test c k => rw [linesFrom, Scope.weightFrom, ih]
    | close c =>
      cases depth with
      | zero => rw [linesFrom, Scope.weightFrom]
      | succ depth => rw [linesFrom, Scope.weightFrom, ih]
    | output c f => rw [linesFrom, Scope.weightFrom, ih]

theorem lines_eq (h : WritesAll type pieces drafts) : lines drafts = Scope.weight pieces := by
  rw [lines, Scope.weight, linesFrom_eq h]

/-- The condition that is refused is the first one whose scope is not closed. -/
theorem closed_eq (h : WritesAll type pieces drafts) :
    closed drafts = ((Scope.unclosed? pieces).map (Command.refuse · .missEndIf)).getD (.ok ()) := by
  induction h with
  | nil => rfl
  | cons hfirst hrest ih =>
    cases hfirst with
    | test c k =>
      rw [closed, Scope.unclosed?, linesFrom_eq hrest]
      split
      · rfl
      · exact ih
    | close c => exact ih
    | output c f => exact ih

theorem extraTest_writes (type : ConditionType) (c : Command) (n : Nat) :
    Agree (Writes type) (Scope.extraTest c n) (extraTest type c n) := by
  unfold Scope.extraTest extraTest
  cases hread : Condition.read (c.withParts c.name (Scope.clause c.args n)).args with
  | ok k =>
    simp only [hread]
    exact .ok (.test _ k)
  | error kind =>
    simp only [hread]
    exact .error _

theorem writes_replicate (c : Command) (n : Nat) :
    WritesAll type (List.replicate n .close) (List.replicate n (.close c)) := by
  induction n with
  | zero => exact .nil
  | succ n ih => exact .cons (.close c) ih

theorem WritesAll.append {pieces' : List Piece} {drafts' : List Draft}
    (h : WritesAll type pieces drafts) (h' : WritesAll type pieces' drafts') :
    WritesAll type (pieces ++ pieces') (drafts ++ drafts') := List.rel_append h h'

/-- Nested drafts are what nested pieces are written as. -/
theorem nestFrom_writes (h : WritesAll type pieces drafts) (extra : List Nat) :
    Agree (WritesAll type) (Scope.nestFrom extra pieces) (nestFrom type extra drafts) := by
  induction h generalizing extra with
  | nil =>
    rw [Scope.nestFrom, nestFrom]
    exact .ok .nil
  | cons hfirst _ ih =>
    cases hfirst with
    | test c k =>
      rw [Scope.nestFrom, nestFrom]
      refine .bind (.mapM _ fun n _ => extraTest_writes type c n) fun more more' hmore => ?_
      refine (ih _).bind fun rest rest' hrest => .ok ?_
      exact .cons (.test c k) (WritesAll.append hmore hrest)
    | close c =>
      cases extra with
      | nil =>
        rw [Scope.nestFrom, nestFrom]
        · exact (ih _).bind fun rest rest' hrest => .ok (.cons (.close c) hrest)
        all_goals simp
      | cons n extra =>
        rw [Scope.nestFrom, nestFrom]
        exact (ih _).bind fun rest rest' hrest => .ok ((writes_replicate c _).append hrest)
    | output c f =>
      rw [Scope.nestFrom, nestFrom]
      · exact (ih _).bind fun rest rest' hrest => .ok (.cons (.output c f) hrest)
      all_goals simp

/-! ### The loop over drafts -/

theorem openAfter_writes {tests : List Scope.OpenTest} {opened : List Draft}
    (hopen : WritesAll type (tests.map Scope.OpenTest.piece) opened) (h : Writes type p d) :
    WritesAll type ((Scope.openAfter tests p).map Scope.OpenTest.piece) (openAfter opened d) := by
  cases h with
  | test c k =>
    rw [Scope.openAfter, List.map_append, openAfter]
    exact hopen.append (.cons (.test c k) .nil)
  | close c =>
    rw [Scope.openAfter, openAfter, List.map_dropLast, List.dropLast_eq_take, List.dropLast_eq_take,
      hopen.length_eq]
    exact List.forall₂_take _ hopen
  | output c f => exact hopen

theorem countedLines_eq (h : Writes type p d) (n : Nat) :
    countedLines n d = Scope.countedLines n p := by
  cases h <;> rfl

theorem reopen_writes {tests : List Scope.OpenTest} {opened : List Draft}
    (hopen : WritesAll type (tests.map Scope.OpenTest.piece) opened) :
    WritesAll type (Scope.reopen tests) (reopen opened) := by
  have hlength : opened.length = tests.length := by
    rw [← hopen.length_eq, List.length_map]
  rw [Scope.reopen, reopen, hlength]
  exact (writes_replicate _ _).append hopen

/-- Whether a look through drafts comes to what the look through their pieces comes to. -/
inductive Look.Writes (type : ConditionType) : Scope.Look → Look → Prop
  | ends : Look.Writes type .ends .ends
  | cut {before after : List Piece} {tests : List Scope.OpenTest}
      {before' opened after' : List Draft} (hbefore : WritesAll type before before')
      (hopen : WritesAll type (tests.map Scope.OpenTest.piece) opened)
      (hafter : WritesAll type after after') :
      Look.Writes type (.cut before tests after) (.cut before' opened after')
  | stuck {p : Piece} {d : Draft} (h : Draft.Writes type p d) :
    Look.Writes type (.stuck p) (.stuck d)

theorem Look.Writes.push {l : Scope.Look} {l' : Look} (hl : Look.Writes type l l')
    (h : Draft.Writes type p d) : Look.Writes type (l.push p) (l'.push d) := by
  cases hl with
  | ends => exact .ends
  | cut hbefore hopen hafter => exact .cut (.cons h hbefore) hopen hafter
  | stuck hd => exact .stuck hd

/-- Both looks come to the same. -/
theorem look_writes (h : WritesAll type pieces drafts) {tests : List Scope.OpenTest}
    {opened : List Draft} (hopen : WritesAll type (tests.map Scope.OpenTest.piece) opened)
    (n : Nat) : Look.Writes type (Scope.look tests n pieces) (look opened n drafts) := by
  induction h generalizing tests opened n with
  | nil =>
    rw [Scope.look, look]
    exact .ends
  | cons hfirst hrest ih =>
    have hlength : opened.length = tests.length := by
      rw [← hopen.length_eq, List.length_map]
    simp only [Scope.look, look, countedLines_eq hfirst, hfirst.weight_eq, hlength]
    split
    · split
      · exact .stuck hfirst
      · exact .cut .nil hopen (.cons hfirst hrest)
    · have hafter := openAfter_writes hopen hfirst
      revert hafter
      cases Scope.openAfter tests _ with
      | nil =>
        intro hafter
        rw [List.forall₂_nil_left_iff.1 hafter]
        exact .ends
      | cons t tests =>
        intro hafter
        obtain ⟨o, opened', ho, hopened, heq⟩ := List.forall₂_cons_left_iff.1 hafter
        have hopened' : WritesAll type ((t :: tests).map Scope.OpenTest.piece) (o :: opened') :=
          .cons ho hopened
        rw [heq]
        exact (ih hopened' _).push hfirst

/-- Whether the loop passes the drafts `passed` and then what some pieces are written as. -/
def Passes (type : ConditionType) (passed : List Draft) (out : List Piece) (s : Cutting) : Prop :=
  ∃ drafts, s.passed = passed ++ drafts ∧ WritesAll type out drafts

/-- After a turn that passes a draft the loop goes on with the drafts ahead of it. -/
theorem ends_pass {passed rest ahead : List Draft} {r : Except Failure (List Piece)}
    (hd : Writes type p d) (hturn : turn ⟨passed, d :: rest⟩ = some (.ok ⟨passed ++ [d], ahead⟩))
    (h : ∃ x, Loop.Ends turn ⟨passed ++ [d], ahead⟩ x ∧ Agree (Passes type (passed ++ [d])) r x) :
    ∃ x, Loop.Ends turn ⟨passed, d :: rest⟩ x ∧ Agree (Passes type passed) (r.map (p :: ·)) x := by
  obtain ⟨x, hx, hagree⟩ := h
  refine ⟨x, hx.head hturn, ?_⟩
  cases hagree with
  | ok hpasses =>
    obtain ⟨out, hout, hwrites⟩ := hpasses
    exact .ok ⟨d :: out, by rw [hout, List.append_assoc]; rfl, .cons hd hwrites⟩
  | error f => exact .error f

theorem turn_pass {passed rest : List Draft} (h : d.isTest = false) :
    turn ⟨passed, d :: rest⟩ = some (.ok ⟨passed ++ [d], rest⟩) := by
  simp [turn, h, Except.map]

theorem turn_test (passed rest : List Draft) (c : Command) (s : Bytes) :
    turn ⟨passed, .test c s :: rest⟩ =
      some ((cutScope (.test c s) rest).map fun ahead => ⟨passed ++ [.test c s], ahead⟩) := rfl

/-- The look at the scope of a condition, from its start on. -/
theorem look_scope (c : Command) (k : Condition) (h : WritesAll type pieces drafts) :
    Look.Writes type (Scope.look [(c, k)] 0 pieces) (look [.test c (k.draft type)] 0 drafts) := by
  have hopen : WritesAll type ([(c, k)].map Scope.OpenTest.piece) [.test c (k.draft type)] :=
    .cons (.test c k) .nil
  exact look_writes h hopen 0

theorem cutScope_short (h : WritesAll type pieces drafts)
    (hw : Scope.weight pieces ≤ Scope.maxLines) : cutScope d drafts = .ok drafts := by
  rw [cutScope, if_pos (by rwa [lines_eq h])]

theorem cutScope_long (h : WritesAll type pieces drafts)
    (hw : Scope.maxLines < Scope.weight pieces) :
    cutScope d drafts = (look [d] 0 drafts).resume drafts := by
  rw [cutScope, if_neg (by rw [lines_eq h]; omega)]

/-- **The loop over drafts follows the loop over their pieces.** -/
theorem ends_of_loop {r : Except Failure (List Piece)} (h : Scope.Loop pieces r)
    (hwrites : WritesAll type pieces drafts) (passed : List Draft) :
    ∃ x, Loop.Ends turn ⟨passed, drafts⟩ x ∧ Agree (Passes type passed) r x := by
  induction h generalizing drafts passed with
  | done =>
    cases hwrites
    exact ⟨_, .done .refl rfl, .ok ⟨[], (List.append_nil _).symm, .nil⟩⟩
  | skip hp _ ih =>
    obtain ⟨d, rest, hfirst, hrest, rfl⟩ := List.forall₂_cons_left_iff.1 hwrites
    refine ends_pass hfirst (turn_pass ?_) (ih hrest _)
    cases hfirst with
    | test c k => exact absurd rfl (hp c k)
    | close c => rfl
    | output c f => rfl
  | @short c k _ _ hshort _ ih =>
    obtain ⟨_, rest, ⟨⟩, hrest, rfl⟩ := List.forall₂_cons_left_iff.1 hwrites
    refine ends_pass (.test c k) ?_ (ih hrest _)
    rw [turn_test, cutScope_short hrest hshort]
    rfl
  | @ends c k _ _ hlong hlook _ ih =>
    obtain ⟨_, rest, ⟨⟩, hrest, rfl⟩ := List.forall₂_cons_left_iff.1 hwrites
    have hdrafts := look_scope c k hrest
    rw [hlook] at hdrafts
    refine ends_pass (.test c k) ?_ (ih hrest _)
    rw [turn_test, cutScope_long hrest hlong]
    generalize look _ _ _ = l at hdrafts ⊢
    cases hdrafts
    rfl
  | @cut c k _ _ _ _ _ hlong hlook _ ih =>
    obtain ⟨_, rest, ⟨⟩, hrest, rfl⟩ := List.forall₂_cons_left_iff.1 hwrites
    have hdrafts := look_scope c k hrest
    rw [hlook] at hdrafts
    have hcut := cutScope_long (d := .test c (k.draft type)) hrest hlong
    generalize look _ _ _ = l at hdrafts hcut
    cases hdrafts with
    | cut hbefore hopen hafter =>
      refine ends_pass (.test c k) ?_ (ih (hbefore.append ((reopen_writes hopen).append hafter)) _)
      rw [turn_test, hcut]
      rfl
  | @stuck c c' k _ _ hlong hlook hc =>
    obtain ⟨_, rest, ⟨⟩, hrest, rfl⟩ := List.forall₂_cons_left_iff.1 hwrites
    have hdrafts := look_scope c k hrest
    rw [hlook] at hdrafts
    have hcut := cutScope_long (d := .test c (k.draft type)) hrest hlong
    generalize look _ _ _ = l at hdrafts hcut
    cases hdrafts with
    | stuck hd =>
      refine ⟨_, .failed .refl ?_, .error _⟩
      rw [turn_test, hcut, ← hd.command_eq hc]
      rfl

/-! ### Packed drafts -/

/-- With every `nn` filled in, drafts are the texts of the packed codes. -/
theorem texts_eq (h : WritesAll type pieces drafts) :
    texts drafts = (Scope.flatten pieces).map (Packed.text type) := by
  induction h with
  | nil => rfl
  | cons hfirst hrest ih =>
    cases hfirst with
    | test c k => rw [texts, Scope.flatten, List.map_cons, ih, lines_eq hrest, fillIn_draft]; rfl
    | close c => exact ih
    | output c f => rw [texts, Scope.flatten, List.map_cons, ih]; rfl

/-- Without a condition, packing leaves the pieces as they are. -/
theorem pack_of_no_test (h : WritesAll type pieces drafts)
    (htest : ∀ d ∈ drafts, d.isTest = false) : Scope.pack pieces = .ok (Scope.flatten pieces) := by
  have hpass : Scope.unclosed? pieces = none ∧ Scope.nestFrom [] pieces = .ok pieces ∧
      Scope.splitFrom [] 0 pieces = .ok pieces := by
    induction h with
    | nil => exact ⟨rfl, by rw [Scope.nestFrom], by rw [Scope.splitFrom]⟩
    | cons hfirst _ ih =>
      obtain ⟨hd, hrest⟩ := List.forall_mem_cons.1 htest
      obtain ⟨hclosed, hnest, hsplit⟩ := ih hrest
      cases hfirst with
      | test c k => cases hd
      | close c =>
        refine ⟨hclosed, ?_, ?_⟩
        · rw [Scope.nestFrom, hnest]
          · rfl
          all_goals simp
        · rw [Scope.splitFrom_outside, Scope.openAfter, List.dropLast_nil, hsplit]
          rfl
      | output c f =>
        refine ⟨hclosed, ?_, ?_⟩
        · rw [Scope.nestFrom, hnest]
          · rfl
          all_goals simp
        · rw [Scope.splitFrom_outside, Scope.openAfter, hsplit]
          rfl
  obtain ⟨hclosed, hnest, hsplit⟩ := hpass
  simp only [Scope.pack, hclosed, Scope.nest, hnest, Scope.split]
  exact bind_eq_ok.2 ⟨_, rfl, bind_eq_ok.2 ⟨_, hsplit, rfl⟩⟩

theorem Packs.unique {r r' : Except Failure (List Draft)} (h : Packs type drafts r)
    (h' : Packs type drafts r') : r = r' := by
  unfold Packs at h h'
  split at h
  · rw [if_pos (by assumption)] at h'
    refine Then.unique (fun x y hx hy => hx.trans hy.symm) (fun _ x y => ?_) h h'
    refine Then.unique (fun x y hx hy => hx.trans hy.symm) (fun nested x y => ?_)
    rintro ⟨s, hs, rfl⟩ ⟨s', hs', rfl⟩
    rw [hs.unique hs']
  · rw [if_neg (by assumption)] at h'
    rw [h, h']

/-- Cutting the scopes of drafts comes to the texts of the split pieces. -/
theorem cut_agree (h : WritesAll type pieces drafts) (hclosed : Scope.depthAfter 0 pieces = 0)
    (hbound : Scope.Bounded 0 pieces) :
    ∃ x, Loop.Ends turn ⟨[], drafts⟩ x ∧
      Agree (fun codes out => texts out = codes.map (Packed.text type))
        ((Scope.split pieces).map Scope.flatten) (x.map Cutting.passed) := by
  obtain ⟨x, hx, hagree⟩ := ends_of_loop (Scope.loop_split hclosed hbound) h []
  refine ⟨x, hx, hagree.map ?_⟩
  rintro out s ⟨passed, hpassed, hwrites⟩
  rw [hpassed]
  exact texts_eq hwrites

/-- **Packing drafts comes to the texts of the packed pieces.** As long as at most 255 scopes are
open at once, packing drafts comes to something, and to one thing only: the failure of packing their
pieces, or drafts with the texts of the packed codes. -/
theorem packs_agree (h : WritesAll type pieces drafts)
    (hbound : ∀ nested, Scope.nest pieces = .ok nested → Scope.Bounded 0 nested) :
    ∃ x, (∀ r, Packs type drafts r ↔ r = x) ∧
      Agree (fun codes out => texts out = codes.map (Packed.text type)) (Scope.pack pieces) x := by
  suffices hsome : ∃ x, Packs type drafts x ∧
      Agree (fun codes out => texts out = codes.map (Packed.text type)) (Scope.pack pieces) x by
    obtain ⟨x, hx, hagree⟩ := hsome
    exact ⟨x, fun r => ⟨fun hr => hr.unique hx, fun hr => hr ▸ hx⟩, hagree⟩
  unfold Packs
  split
  · have hclosed := closed_eq h
    have hnest := nestFrom_writes h []
    cases hu : Scope.unclosed? pieces with
    | some c =>
      rw [hu] at hclosed
      rw [Scope.pack, hu]
      exact ⟨_, (then_eq_error hclosed _).2 rfl, .error _⟩
    | none =>
      rw [hu] at hclosed
      have hpack : Scope.pack pieces = Scope.nestFrom [] pieces >>= fun nested =>
          (Scope.split nested).map Scope.flatten := by
        simp only [Scope.pack, hu, Scope.bind_return_eq_map, Scope.nest]
      rw [hpack]
      cases hpieces : Scope.nestFrom [] pieces with
      | error f =>
        rw [hpieces] at hnest
        exact ⟨_, (then_eq_ok hclosed _).2 ((then_eq_error hnest.of_error_left _).2 rfl), .error f⟩
      | ok nested =>
        rw [hpieces] at hnest
        obtain ⟨drafts', hdrafts, hnested⟩ := hnest.of_ok_left
        have hdepth : Scope.depthAfter 0 nested = 0 :=
          Scope.nestFrom_depthAfter hpieces ((Scope.unclosed?_eq_none_iff pieces).1 hu)
        obtain ⟨x, hx, hagree⟩ := cut_agree hnested hdepth (hbound nested hpieces)
        exact ⟨_, (then_eq_ok hclosed _).2 ((then_eq_ok hdrafts _).2 ⟨x, hx, rfl⟩), hagree⟩
  · have hnone : ∀ d ∈ drafts, d.isTest = false := by simpa using ‹¬ drafts.any isTest = true›
    refine ⟨_, rfl, ?_⟩
    rw [pack_of_no_test h hnone]
    exact .ok (texts_eq h)

end Writing

/-! ## What the loop blames -/

section Blame

variable {d : Draft} {opened drafts rest : List Draft} {n : Nat} {f : Failure}

theorem le_countedLines (n : Nat) (d : Draft) : n ≤ countedLines n d := by
  cases d with
  | test c s =>
    rw [countedLines]
    split <;> omega
  | close c => exact Nat.le_refl n
  | output c s k => exact Nat.le_refl n

theorem mem_openAfter {o : Draft} (h : o ∈ openAfter opened d) : o ∈ opened ∨ o = d := by
  cases d with
  | test c s => simpa [openAfter] using h
  | close c => exact .inl (List.dropLast_subset _ h)
  | output c s k => exact .inl h

theorem Look.push_eq_cut {l : Look} {before opened' after : List Draft}
    (h : l.push d = .cut before opened' after) :
    ∃ before', before = d :: before' ∧ l = .cut before' opened' after := by
  cases l with
  | ends => cases h
  | cut before' opened₁ after₁ =>
    obtain ⟨rfl, rfl, rfl⟩ := Look.cut.inj h
    exact ⟨before', rfl, rfl⟩
  | stuck e => cases h

theorem Look.push_eq_stuck {l : Look} {e : Draft} (h : l.push d = .stuck e) : l = .stuck e := by
  cases l with
  | ends => cases h
  | cut before opened' after => cases h
  | stuck e' => exact h

/-- A cut takes the drafts apart, and what is open there was open before or is one of them. -/
theorem look_cut {before opened' after : List Draft}
    (h : look opened n drafts = .cut before opened' after) :
    drafts = before ++ after ∧ ∀ o ∈ opened', o ∈ opened ∨ o ∈ drafts := by
  induction drafts generalizing opened n before with
  | nil =>
    rw [look] at h
    cases h
  | cons d rest ih =>
    simp only [look] at h
    split at h
    · split at h
      · cases h
      · obtain ⟨rfl, rfl, rfl⟩ := Look.cut.inj h
        exact ⟨rfl, fun o ho => .inl ho⟩
    · split at h
      · cases h
      · rename_i o opened₁ hopen
        obtain ⟨before₁, rfl, hlook⟩ := Look.push_eq_cut h
        obtain ⟨rfl, hmem⟩ := ih hlook
        refine ⟨rfl, fun e he => ?_⟩
        rcases hmem e he with he | he
        · rcases mem_openAfter (hopen ▸ he) with he | rfl
          · exact .inl he
          · exact .inr List.mem_cons_self
        · exact .inr (List.mem_cons_of_mem _ he)

/-- A draft at which a scope cannot be cut has lines: the part in front of it is not too long. -/
theorem look_stuck (hn : n ≤ Scope.maxLines) (h : look opened n drafts = .stuck d) :
    d ∈ drafts ∧ 0 < d.weight := by
  induction drafts generalizing opened n with
  | nil =>
    rw [look] at h
    cases h
  | cons e rest ih =>
    simp only [look] at h
    split at h
    · rename_i hfull
      split at h
      · obtain rfl := Look.stuck.inj h
        refine ⟨List.mem_cons_self, ?_⟩
        cases e with
        | test c s => exact Nat.one_pos
        | close c =>
          simp only [countedLines, weight] at hfull
          omega
        | output c s k =>
          simp only [countedLines, weight] at hfull ⊢
          omega
      · cases h
    · rename_i hfits
      split at h
      · cases h
      · have hn' : n + e.weight ≤ Scope.maxLines := by
          have hle := le_countedLines n e
          omega
        obtain ⟨hmem, hpos⟩ := ih hn' (Look.push_eq_stuck h)
        exact ⟨List.mem_cons_of_mem _ hmem, hpos⟩

/-- Whether a draft is one of a list or an end that a cut made. -/
def Given (drafts : List Draft) (d : Draft) : Prop := d ∈ drafts ∨ d = .close madeEnd

/-- A turn goes on with the drafts there are and with ends of its own, or blames a draft that has
lines. -/
theorem cutScope_cases (d : Draft) (rest : List Draft) :
    (∃ ahead, cutScope d rest = .ok ahead ∧ ∀ e ∈ ahead, Given (d :: rest) e) ∨
      ∃ e ∈ rest, cutScope d rest = e.command.refuse .ifScopeTooLarge ∧ 0 < e.weight := by
  have hself : ∀ e ∈ rest, Given (d :: rest) e := fun e he => .inl (List.mem_cons_of_mem _ he)
  unfold cutScope
  split
  · exact .inl ⟨rest, rfl, hself⟩
  · cases hlook : look [d] 0 rest with
    | ends => exact .inl ⟨rest, rfl, hself⟩
    | stuck e =>
      obtain ⟨hmem, hpos⟩ := look_stuck (Nat.zero_le _) hlook
      exact .inr ⟨e, hmem, rfl, hpos⟩
    | cut before opened after =>
      obtain ⟨rfl, hopen⟩ := look_cut hlook
      refine .inl ⟨_, rfl, fun e he => ?_⟩
      rcases List.mem_append.1 he with he | he
      · exact hself e (List.mem_append_left _ he)
      · rcases List.mem_append.1 he with he | he
        · rcases List.mem_append.1 he with he | he
          · exact .inr (List.eq_of_mem_replicate he)
          · rcases hopen e he with he | he
            · exact .inl (List.mem_singleton.1 he ▸ List.mem_cons_self)
            · exact hself e he
        · exact hself e (List.mem_append_right _ he)

theorem turn_cases {s : Cutting} {x : Except Failure Cutting} (h : turn s = some x) :
    (∃ next, x = .ok next ∧
      ∀ e ∈ next.passed ++ next.ahead, Given (s.passed ++ s.ahead) e) ∨
      ∃ e ∈ s.ahead, x = e.command.refuse .ifScopeTooLarge ∧ 0 < e.weight := by
  obtain ⟨passed, ahead⟩ := s
  cases ahead with
  | nil => cases h
  | cons d rest =>
    -- the draft that is passed stays where it is
    have hpass {ahead : List Draft} (hahead : ∀ e ∈ ahead, Given (d :: rest) e) :
        ∀ e ∈ passed ++ [d] ++ ahead, Given (passed ++ d :: rest) e := by
      intro e he
      rcases List.mem_append.1 he with he | he
      · refine .inl ?_
        rcases List.mem_append.1 he with he | he
        · exact List.mem_append_left _ he
        · exact List.mem_append_right _ (List.mem_singleton.1 he ▸ List.mem_cons_self)
      · exact (hahead e he).imp_left (List.mem_append_right _)
    cases hd : d.isTest with
    | false =>
      rw [turn_pass hd] at h
      obtain rfl := Option.some.inj h
      exact .inl ⟨_, rfl, hpass fun e he => .inl (List.mem_cons_of_mem _ he)⟩
    | true =>
      simp only [turn, hd, if_true] at h
      obtain rfl := Option.some.inj h
      rcases cutScope_cases d rest with ⟨ahead, hcut, hahead⟩ | ⟨e, he, hcut, hpos⟩
      · rw [hcut]
        exact .inl ⟨_, rfl, hpass hahead⟩
      · rw [hcut]
        exact .inr ⟨e, List.mem_cons_of_mem _ he, rfl, hpos⟩

/-- The drafts of every state that the loop reaches are given ones or ends that it made. -/
theorem run_given {s : Cutting} (h : Loop.Run turn ⟨[], drafts⟩ s) :
    ∀ d ∈ s.passed ++ s.ahead, Given drafts d := by
  induction h with
  | refl => exact fun d hd => .inl hd
  | tail _ hturn ih =>
    rcases turn_cases hturn with ⟨next, hnext, hgiven⟩ | ⟨e, -, he, -⟩
    · obtain rfl := Except.ok.inj hnext
      intro d hd
      rcases hgiven d hd with hd | rfl
      · exact ih d hd
      · exact .inr rfl
    · cases he

/-- **The ends that the loop makes are never blamed**: it blames a given draft, and one that has
lines. -/
theorem ends_blames (h : Loop.Ends turn ⟨[], drafts⟩ (.error f)) :
    ∃ d ∈ drafts, 0 < d.weight ∧ d.command = f.command := by
  cases h with
  | failed hrun hfail =>
    rcases turn_cases hfail with ⟨next, hnext, -⟩ | ⟨e, he, hrefused, hpos⟩
    · cases hnext
    · rcases run_given hrun e (List.mem_append_right _ he) with hmem | rfl
      · obtain rfl := Except.error.inj hrefused
        exact ⟨e, hmem, hpos, rfl⟩
      · exact absurd hpos (Nat.lt_irrefl 0)

end Blame

end Draft

end CheatScript
