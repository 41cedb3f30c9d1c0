import CheatScript.Proofs.FunctionBlocks

/-!
# Proofs: blocks taken out one by one

The functions of a script can be taken out by a loop. It looks for the next FUNCTION and the next
ENDFUNCTION, registers the function between them, deletes the block and goes on from the place where
the block was. Reading the commands once comes to the same list or the same failure, and leaves the
compiler as the loop does.
-/

namespace CheatScript.Compiler

open CheatScript.Function (opens closes delimits)

/-! ## The loop -/

/-- The index of the first command from an index on that passes a test. -/
def indexFrom (test : Command → Bool) (start : Nat) (cmds : List Command) : Option Nat :=
  ((cmds.drop start).findIdx? test).map (start + ·)

/-- The function that a header introduces, if its name is new. -/
def introduce (functions : List Function) (header : Command) : Except Fault Function := do
  let f ← Function.ofHeader header
  if (Function.find? functions f.name).isSome then .error .functionAlreadyDefined else return f

/-- Registers the function that a header introduces. -/
def beginBlock (header : Command) : Task Compiler Unit := do
  let functions ← Task.read fun c : Compiler => c.functions
  let f ← Task.ofResult (header.blame (introduce functions header))
  Task.change (·.addFunction f)

/-- Adds commands to the body of the function registered last, up to one that may not be there. -/
def addBlock : List Command → Task Compiler Unit
  | [] => return ()
  | cmd :: cmds =>
    if cmd.name = ascii "FUNCTION" then Task.ofResult (cmd.refuse .functionInsideFunction)
    else if cmd.name = ascii "INCLUDE" then Task.ofResult (cmd.refuse .includeInsideFunction)
    else do
      Task.change (·.addToBody cmd)
      addBlock cmds

/-- Registers the function of a block. -/
def takeBlock (header : Command) (inside : List Command) : Task Compiler Unit := do
  beginBlock header
  addBlock inside

/-- The state of the loop: the index from which it looks for a block, the compiler and the
commands. -/
structure Taking where
  index : Nat
  compiler : Compiler
  cmds : List Command

/-- The end of the loop at the command with an index. -/
def Taking.refuse (s : Taking) (i : Nat) (kind : Fault) :
    Option (Except (Failure × Compiler) Taking) :=
  s.cmds[i]?.map fun cmd => .error (⟨kind, cmd⟩, s.compiler)

/-- The state with the commands around a block that was taken out, or the end of the loop in it. -/
def resume (before after : List Command) :
    Except Failure Unit × Compiler → Except (Failure × Compiler) Taking
  | (.error f, c) => .error (f, c)
  | (.ok _, c) => .ok ⟨before.length, c, before ++ after⟩

/-- Takes out the block from one index to another. -/
def Taking.delete (s : Taking) (start stop : Nat) (header : Command) :
    Except (Failure × Compiler) Taking :=
  resume (s.cmds.take start) (s.cmds.drop (stop + 1))
    (takeBlock header ((s.cmds.take stop).drop (start + 1)) s.compiler)

/-- One turn of the loop. -/
def takeTurn (s : Taking) : Option (Except (Failure × Compiler) Taking) :=
  match indexFrom opens s.index s.cmds, indexFrom closes s.index s.cmds with
  | none, none => none
  | none, some stop => s.refuse stop .missFunction
  | some start, none => s.refuse start .missEndFunction
  | some start, some stop =>
    if stop < start then s.refuse stop .missFunction
    else s.cmds[start]?.map (s.delete start stop)

/-- What is left of the loop: the commands or the failure, and the compiler. -/
def outcome : Except (Failure × Compiler) Taking → Except Failure (List Command) × Compiler
  | .ok s => (.ok s.cmds, s.compiler)
  | .error (f, c) => (.error f, c)

/-! ## Indices -/

section Indices

variable {test : Command → Bool} {before plain tail : List Command} {cmd : Command}

theorem indexFrom_append (hplain : ∀ c ∈ plain, test c = false) (hcmd : test cmd = true) :
    indexFrom test before.length (before ++ (plain ++ cmd :: tail)) =
      some (before.length + plain.length) := by
  have hnone : plain.findIdx? test = none := List.findIdx?_eq_none_iff.2 hplain
  have hfirst : (cmd :: tail).findIdx? test = some 0 := by
    rw [List.findIdx?_cons, hcmd]
    rfl
  rw [indexFrom, List.drop_left, List.findIdx?_append, hnone, hfirst]
  simp

theorem indexFrom_eq_none (h : ∀ c ∈ tail, test c = false) :
    indexFrom test before.length (before ++ tail) = none := by
  rw [indexFrom, List.drop_left, List.findIdx?_eq_none_iff.2 h]
  rfl

/-- The first command of a list that passes a test, if there is one. -/
theorem split_at (test : Command → Bool) (l : List Command) :
    (∀ c ∈ l, test c = false) ∨ ∃ plain cmd tail, l = plain ++ cmd :: tail ∧
      (∀ c ∈ plain, test c = false) ∧ test cmd = true := by
  cases hfind : l.find? test with
  | none => exact .inl fun c hc => Bool.eq_false_iff.2 (List.find?_eq_none.1 hfind c hc)
  | some cmd =>
    obtain ⟨hcmd, plain, tail, rfl, hplain⟩ := List.find?_eq_some_iff_append.1 hfind
    exact .inr ⟨plain, cmd, tail, rfl, fun c hc => by simpa using hplain c hc, hcmd⟩

end Indices

/-! ## Reading the commands once -/

section Reading

variable {c : Compiler} {before plain inside after tail : List Command} {cmd stop : Command}

/-- What a result is with commands in front of those it gives. -/
def inFront (before : List Command) (r : Except Failure (List Command) × Compiler) :
    Except Failure (List Command) × Compiler :=
  (r.1.map (before ++ ·), r.2)

theorem inFront_append (before plain : List Command)
    (r : Except Failure (List Command) × Compiler) :
    inFront before (inFront plain r) = inFront (before ++ plain) r := by
  obtain ⟨result, c⟩ := r
  cases result with
  | error f => rfl
  | ok rest => simp [inFront, Except.map]

/-- Commands outside of blocks are left where they are. -/
theorem extractFrom_outside (hplain : ∀ c ∈ plain, delimits c = false) (c : Compiler) :
    extractFrom false (plain ++ tail) c = inFront plain (extractFrom false tail c) := by
  induction plain with
  | nil =>
    cases h : extractFrom false tail c with
    | mk result d => cases result <;> simp [inFront, Except.map, h]
  | cons cmd plain ih =>
    obtain ⟨hcmd, hrest⟩ := List.forall_mem_cons.1 hplain
    obtain ⟨hcloses, hopens⟩ := Function.name_ne_of_delimits hcmd
    rw [List.cons_append, extractFrom, if_neg hcloses, if_neg hopens]
    have hinner := ih hrest
    cases h : extractFrom false tail c with
    | mk result d =>
      rw [h] at hinner
      cases result with
      | error f => exact Task.bind_of_error hinner
      | ok rest => exact Task.bind_of_ok hinner

theorem extractFrom_closes (hcmd : closes cmd = true) (tail : List Command) (c : Compiler) :
    extractFrom false (cmd :: tail) c = (.error ⟨.missFunction, cmd⟩, c) := by
  rw [extractFrom, if_pos (beq_iff_eq.1 hcmd)]
  rfl

theorem name_ne_of_opens (hcmd : opens cmd = true) : cmd.name ≠ ascii "ENDFUNCTION" := by
  have hcloses := Function.closes_of_opens hcmd
  rwa [closes, beq_eq_false_iff_ne] at hcloses

theorem extractFrom_unclosed (hcmd : opens cmd = true) (htail : ∀ c ∈ tail, closes c = false)
    (c : Compiler) : extractFrom false (cmd :: tail) c = (.error ⟨.missEndFunction, cmd⟩, c) := by
  have hstart : Function.start c.functions cmd tail = .error .missEndFunction := by
    rw [Function.start, if_neg]
    rw [List.any_eq_true]
    rintro ⟨d, hd, hcloses⟩
    exact Bool.eq_false_iff.1 (htail d hd) hcloses
  rw [extractFrom, if_neg (name_ne_of_opens hcmd), if_pos (beq_iff_eq.1 hcmd),
    Task.read_bind, hstart]
  rfl

/-- Inside a block commands are added to its function up to the end of the block. -/
theorem extractFrom_inside (hinside : ∀ c ∈ inside, closes c = false) (hstop : closes stop = true)
    (c : Compiler) :
    extractFrom true (inside ++ stop :: after) c =
      (addBlock inside >>= fun _ => extractFrom false after) c := by
  induction inside generalizing c with
  | nil =>
    rw [List.nil_append, extractFrom, if_pos (beq_iff_eq.1 hstop)]
    rfl
  | cons cmd inside ih =>
    obtain ⟨hcmd, hrest⟩ := List.forall_mem_cons.1 hinside
    rw [List.cons_append, extractFrom, if_neg (beq_eq_false_iff_ne.1 hcmd), addBlock]
    split
    · rfl
    · split
      · rfl
      · exact ih hrest (c.addToBody cmd)

/-- A block is taken out as a whole. -/
theorem extractFrom_block (hcmd : opens cmd = true) (hinside : ∀ c ∈ inside, closes c = false)
    (hstop : closes stop = true) (c : Compiler) :
    extractFrom false (cmd :: (inside ++ stop :: after)) c =
      (takeBlock cmd inside >>= fun _ => extractFrom false after) c := by
  have hstart : Function.start c.functions cmd (inside ++ stop :: after) =
      introduce c.functions cmd := by
    rw [Function.start, if_pos]
    · rfl
    · exact List.any_eq_true.2 ⟨stop, by simp, hstop⟩
  rw [extractFrom, if_neg (name_ne_of_opens hcmd), if_pos (beq_iff_eq.1 hcmd),
    Task.read_bind, hstart]
  cases hintroduce : introduce c.functions cmd with
  | error kind =>
    have hbegin : (beginBlock cmd) c = (.error ⟨kind, cmd⟩, c) := by
      rw [beginBlock, Task.read_bind, hintroduce]
      rfl
    exact (Task.bind_of_error (Task.bind_of_error hbegin)).symm
  | ok f =>
    have hbegin : (beginBlock cmd) c = (.ok (), c.addFunction f) := by
      rw [beginBlock, Task.read_bind, hintroduce]
      rfl
    have htake : takeBlock cmd inside c = addBlock inside (c.addFunction f) :=
      Task.bind_of_ok hbegin
    have hrest : (takeBlock cmd inside >>= fun _ => extractFrom false after) c =
        (addBlock inside >>= fun _ => extractFrom false after) (c.addFunction f) := by
      show Task.andThen _ _ _ = Task.andThen _ _ _
      rw [Task.andThen, Task.andThen, htake]
    rw [hrest]
    exact extractFrom_inside hinside hstop (c.addFunction f)

end Reading

/-! ## The loop and the reading -/

section Turns

variable {c : Compiler} {before plain inside after tail : List Command} {cmd stop : Command}

theorem getElem?_at (before plain : List Command) (cmd : Command) (tail : List Command) :
    (before ++ (plain ++ cmd :: tail))[before.length + plain.length]? = some cmd := by
  rw [← List.append_assoc, ← List.length_append, List.getElem?_append_right (Nat.le_refl _),
    Nat.sub_self]
  rfl

theorem drop_past (before : List Command) (cmd : Command) (tail : List Command) :
    (before ++ cmd :: tail).drop (before.length + 1) = tail := by
  rw [List.drop_length_add_append]
  rfl

/-- Commands outside of blocks neither start nor end one. -/
theorem plain_cases (h : ∀ d ∈ plain, delimits d = false) :
    (∀ d ∈ plain, opens d = false) ∧ ∀ d ∈ plain, closes d = false :=
  ⟨fun d hd => (Bool.or_eq_false_iff.1 (h d hd)).1,
    fun d hd => (Bool.or_eq_false_iff.1 (h d hd)).2⟩

/-- No turn is left where no block is. -/
theorem takeTurn_done (h : ∀ d ∈ tail, delimits d = false) :
    takeTurn ⟨before.length, c, before ++ tail⟩ = none := by
  obtain ⟨hopens, hcloses⟩ := plain_cases h
  rw [takeTurn, indexFrom_eq_none hopens, indexFrom_eq_none hcloses]

/-- An end of a block without its start ends the loop. -/
theorem takeTurn_closes (hplain : ∀ d ∈ plain, delimits d = false) (hcmd : closes cmd = true) :
    takeTurn ⟨before.length, c, before ++ (plain ++ cmd :: tail)⟩ =
      some (.error (⟨.missFunction, cmd⟩, c)) := by
  obtain ⟨hnoStart, hnoEnd⟩ := plain_cases hplain
  have hcloses : indexFrom closes before.length (before ++ (plain ++ cmd :: tail)) =
      some (before.length + plain.length) := indexFrom_append hnoEnd hcmd
  have hother : opens cmd = false := by
    rw [Bool.eq_false_iff]
    intro hopens
    rw [Function.closes_of_opens hopens] at hcmd
    cases hcmd
  have hfront : ∀ d ∈ plain ++ [cmd], opens d = false :=
    List.forall_mem_append.2 ⟨hnoStart, by simpa using hother⟩
  have hcut : plain ++ cmd :: tail = plain ++ [cmd] ++ tail := by simp
  rcases split_at opens tail with hnone | ⟨inner, start, rest, rfl, hinner, hstart⟩
  · have hopens : indexFrom opens before.length (before ++ (plain ++ cmd :: tail)) = none := by
      rw [hcut]
      exact indexFrom_eq_none (List.forall_mem_append.2 ⟨hfront, hnone⟩)
    simp only [takeTurn, hopens, hcloses, Taking.refuse, getElem?_at, Option.map_some]
  · have hopens :
        indexFrom opens before.length (before ++ (plain ++ cmd :: (inner ++ start :: rest))) =
        some (before.length + (plain ++ [cmd] ++ inner).length) := by
      rw [hcut, ← List.append_assoc (plain ++ [cmd])]
      exact indexFrom_append (List.forall_mem_append.2 ⟨hfront, hinner⟩) hstart
    have hlater :
        before.length + plain.length < before.length + (plain ++ [cmd] ++ inner).length := by
      simp only [List.length_append, List.length_singleton]
      omega
    simp only [takeTurn, hopens, hcloses, if_pos hlater, Taking.refuse, getElem?_at,
      Option.map_some]

/-- A start of a block without its end ends the loop. -/
theorem takeTurn_unclosed (hplain : ∀ d ∈ plain, delimits d = false) (hcmd : opens cmd = true)
    (htail : ∀ d ∈ tail, closes d = false) :
    takeTurn ⟨before.length, c, before ++ (plain ++ cmd :: tail)⟩ =
      some (.error (⟨.missEndFunction, cmd⟩, c)) := by
  obtain ⟨hnoStart, hnoEnd⟩ := plain_cases hplain
  have hopens : indexFrom opens before.length (before ++ (plain ++ cmd :: tail)) =
      some (before.length + plain.length) := indexFrom_append hnoStart hcmd
  have hlater : ∀ d ∈ cmd :: tail, closes d = false :=
    List.forall_mem_cons.2 ⟨Function.closes_of_opens hcmd, htail⟩
  have hcloses : indexFrom closes before.length (before ++ (plain ++ cmd :: tail)) = none :=
    indexFrom_eq_none (List.forall_mem_append.2 ⟨hnoEnd, hlater⟩)
  simp only [takeTurn, hopens, hcloses, Taking.refuse, getElem?_at, Option.map_some]

/-- A block is taken out, and the loop goes on where it was. -/
theorem takeTurn_block (hplain : ∀ d ∈ plain, delimits d = false) (hcmd : opens cmd = true)
    (hinside : ∀ d ∈ inside, closes d = false) (hstop : closes stop = true) :
    takeTurn ⟨before.length, c, before ++ (plain ++ cmd :: (inside ++ stop :: after))⟩ =
      some (resume (before ++ plain) after (takeBlock cmd inside c)) := by
  obtain ⟨hnoStart, hnoEnd⟩ := plain_cases hplain
  have hopens : indexFrom opens before.length
      (before ++ (plain ++ cmd :: (inside ++ stop :: after))) =
      some (before.length + plain.length) := indexFrom_append hnoStart hcmd
  have hcut : plain ++ cmd :: (inside ++ stop :: after) =
      plain ++ [cmd] ++ inside ++ stop :: after := by
    simp
  have hcloses : indexFrom closes before.length
      (before ++ (plain ++ cmd :: (inside ++ stop :: after))) =
      some (before.length + (plain ++ [cmd] ++ inside).length) := by
    have hheader : ∀ d ∈ [cmd], closes d = false := by simpa using Function.closes_of_opens hcmd
    rw [hcut]
    exact indexFrom_append
      (List.forall_mem_append.2 ⟨List.forall_mem_append.2 ⟨hnoEnd, hheader⟩, hinside⟩) hstop
  have hlater :
      ¬ before.length + (plain ++ [cmd] ++ inside).length < before.length + plain.length := by
    simp only [List.length_append, List.length_singleton]
    omega
  -- the three parts of the list around the two indices
  have hfront : (before ++ (plain ++ cmd :: (inside ++ stop :: after))).take
      (before.length + plain.length) = before ++ plain := by
    rw [← List.append_assoc, ← List.length_append, List.take_left]
  have hblock : (before ++ (plain ++ cmd :: (inside ++ stop :: after))).take
      (before.length + (plain ++ [cmd] ++ inside).length) = before ++ plain ++ [cmd] ++ inside := by
    rw [hcut, ← List.append_assoc, ← List.length_append, List.take_left]
    simp only [List.append_assoc]
  have hinner : (before ++ plain ++ [cmd] ++ inside).drop (before.length + plain.length + 1) =
      inside := by
    rw [List.append_assoc _ [cmd], ← List.length_append]
    exact drop_past _ cmd inside
  have hback : (before ++ (plain ++ cmd :: (inside ++ stop :: after))).drop
      (before.length + (plain ++ [cmd] ++ inside).length + 1) = after := by
    rw [hcut, ← List.append_assoc, ← List.length_append]
    exact drop_past _ stop after
  simp only [takeTurn, hopens, hcloses, if_neg hlater, getElem?_at, Option.map_some,
    Taking.delete, hfront, hblock, hinner, hback]

/-- The loop, from a place on before which no block is left, comes to what reading the rest
gives. -/
theorem ends_of_reading (ahead before : List Command) (c : Compiler) :
    ∃ x, Loop.Ends takeTurn ⟨before.length, c, before ++ ahead⟩ x ∧
      outcome x = inFront before (extractFrom false ahead c) := by
  -- a turn takes out a block, so fewer commands are ahead after it
  induction hn : ahead.length using Nat.strongRecOn generalizing ahead before c with
  | ind n ih =>
    rcases split_at delimits ahead with hnone | ⟨plain, cmd, tail, rfl, hplain, hcmd⟩
    · refine ⟨_, .done .refl (takeTurn_done hnone), ?_⟩
      have hread : extractFrom false (ahead ++ []) c = inFront ahead (extractFrom false [] c) :=
        extractFrom_outside hnone c
      rw [List.append_nil] at hread
      rw [hread, inFront_append]
      show (Except.ok (before ++ ahead), c) = (Except.ok (before ++ ahead ++ []), c)
      rw [List.append_nil]
    · rw [extractFrom_outside hplain, inFront_append]
      rcases Bool.or_eq_true_iff.1 hcmd with hopens | hcloses
      · rcases split_at closes tail with hnone | ⟨inside, stop, after, rfl, hinside, hstop⟩
        · rw [extractFrom_unclosed hopens hnone]
          exact ⟨_, .failed .refl (takeTurn_unclosed hplain hopens hnone), rfl⟩
        · have hturn : takeTurn ⟨before.length, c,
              before ++ (plain ++ cmd :: (inside ++ stop :: after))⟩ =
              some (resume (before ++ plain) after (takeBlock cmd inside c)) :=
            takeTurn_block hplain hopens hinside hstop
          rw [extractFrom_block hopens hinside hstop]
          cases htake : takeBlock cmd inside c with
          | mk result d =>
            rw [htake] at hturn
            cases result with
            | error f =>
              rw [Task.bind_of_error htake]
              exact ⟨_, .failed .refl hturn, rfl⟩
            | ok u =>
              rw [Task.bind_of_ok htake]
              have hshorter : after.length < n := by
                simp only [List.length_append, List.length_cons] at hn
                omega
              obtain ⟨x, hx, hout⟩ := ih after.length hshorter after (before ++ plain) d rfl
              exact ⟨x, hx.head hturn, hout⟩
      · rw [extractFrom_closes hcloses]
        exact ⟨_, .failed .refl (takeTurn_closes hplain hcloses), rfl⟩

end Turns

/-- **Taking out blocks one by one comes to what one reading gives**: the same commands or the same
failure, with the same functions registered. -/
theorem takes_iff (c : Compiler) (cmds : List Command)
    (r : Except Failure (List Command) × Compiler) :
    (∃ x, Loop.Ends takeTurn ⟨0, c, cmds⟩ x ∧ r = outcome x) ↔ r = extractFrom false cmds c := by
  obtain ⟨x, hx, hout⟩ := ends_of_reading cmds [] c
  have hread : outcome x = extractFrom false cmds c := by
    rw [hout]
    cases h : extractFrom false cmds c with
    | mk result d => cases result <;> rfl
  constructor
  · rintro ⟨y, hy, rfl⟩
    rw [hy.unique hx, hread]
  · rintro rfl
    exact ⟨x, hx, hread.symm⟩

end CheatScript.Compiler
