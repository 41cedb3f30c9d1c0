import CheatScript.Proofs.ConditionClauses
import CheatScript.Proofs.ScopeWeight
import CheatScript.Proofs.SplitText

/-!
# Proofs: packed scopes mean what the script says

The device runs the lines of the codes one after the other; a condition that does not hold skips as
many lines as it says. Packing turns clauses into nested scopes, splits long scopes and counts the
lines to skip. Each of the three passes keeps the codes that run, whatever the conditions come to.
-/

namespace CheatScript

open Outcome

/-! ## The device -/

/-- A line of the codes. -/
inductive DeviceLine
  /-- A condition that skips lines when it does not hold. -/
  | test (condition : Condition) (skip : Nat)
  /-- Any other line. -/
  | code (text : Bytes)

/-- The text of a line. -/
def DeviceLine.text (type : ConditionType) : DeviceLine → Bytes
  | .test condition skip => (condition.line type skip).text
  | .code s => s

namespace Device

/-- The lines that run, in order, where the next `skip` lines are skipped; conditions are not among
them. -/
def runFrom (holds : Condition → Bool) : (skip : Nat) → List DeviceLine → List Bytes
  | _, [] => []
  | skip + 1, _ :: rest => runFrom holds skip rest
  | 0, .test condition skip :: rest => runFrom holds (if holds condition then 0 else skip) rest
  | 0, .code s :: rest => s :: runFrom holds 0 rest

/-- The lines that run, in order. -/
def run (holds : Condition → Bool) (lines : List DeviceLine) : List Bytes := runFrom holds 0 lines

theorem runFrom_drop (holds : Condition → Bool) (skip : Nat) (lines : List DeviceLine) :
    runFrom holds skip lines = run holds (lines.drop skip) := by
  induction skip generalizing lines with
  | zero => rfl
  | succ skip ih =>
    cases lines with
    | nil => simp [run, runFrom]
    | cons l lines => rw [runFrom, ih, List.drop_succ_cons]

theorem run_test (holds : Condition → Bool) (k : Condition) (skip : Nat) (lines : List DeviceLine) :
    run holds (.test k skip :: lines)
      = if holds k then run holds lines else run holds (lines.drop skip) := by
  rw [run, runFrom]
  by_cases hk : holds k
  · simp [hk, run]
  · simp [hk, runFrom_drop]

theorem run_codes (holds : Condition → Bool) (texts : List Bytes) (lines : List DeviceLine) :
    run holds (texts.map .code ++ lines) = texts ++ run holds lines := by
  induction texts with
  | nil => rfl
  | cons s texts ih =>
    rw [List.map_cons, List.cons_append, run, runFrom, List.cons_append]
    exact congrArg _ ih

end Device

/-! ## Lines of the packed codes -/

/-- The lines of a fragment. Text that continues a line has none of its own. -/
def Fragment.lineTexts : Fragment → List Bytes
  | .codes list => (list.flatMap Code.lines).map CodeLine.text
  | .inline _ => []
  | .block s => Bytes.split Byte.newline s

/-- The lines of a piece of the codes. -/
def Packed.lines : Packed → List DeviceLine
  | .test condition skip => [.test condition skip]
  | .output f => f.lineTexts.map .code

/-- The lines of the codes. -/
def Packed.allLines (codes : List Packed) : List DeviceLine := codes.flatMap Packed.lines

/-- A fragment weighs as much as it has lines. -/
theorem Fragment.length_lineTexts (f : Fragment) : f.lineTexts.length = f.weight := by
  cases f with
  | codes list => simp [lineTexts, weight]
  | inline s => rfl
  | block s => exact Bytes.length_split _ _

theorem Fragment.text_eq {f : Fragment} (hf : ∀ s, f ≠ .inline s) :
    f.text = f.lineTexts.flatMap (Byte.newline :: ·) := by
  cases f with
  | codes list => simp [text, linesText, lineTexts, List.flatMap_map]
  | inline s => exact absurd rfl (hf s)
  | block s => exact (Bytes.flatMap_split _ _).symm

/-- Texts whose lines each follow a newline are joined to lines with newlines between them. -/
theorem joinTexts_lines (l : List (List Bytes)) :
    joinTexts (l.map (·.flatMap (Byte.newline :: ·))) = Bytes.join [Byte.newline] l.flatten := by
  induction l with
  | nil => rfl
  | cons texts l ih =>
    cases texts with
    | nil => simpa [joinTexts] using ih
    | cons s texts =>
      have hflat : l.flatten.flatMap (Byte.newline :: ·)
          = (l.map (·.flatMap (Byte.newline :: ·))).flatten := by
        rw [List.flatMap_def, List.map_flatten, List.flatten_flatten, List.map_map]
        rfl
      rw [List.flatten_cons, List.cons_append, Bytes.join_cons, List.flatMap_append, hflat]
      simp only [joinTexts, Bytes.dropLead, Bytes.after?, List.map_cons, List.flatMap_cons,
        List.cons_append, List.isEmpty_cons, Bool.false_eq_true, if_false, if_true,
        Option.getD_some,
        List.append_assoc]

/-! ## The structured reading -/

namespace Scope

/-- The codes that run, in order, inside scopes whose conditions have come to `enclosing`, the
innermost first. `isTrue` tells what a condition comes to. -/
def meaningFrom (isTrue : Command → Condition → Bool) : (enclosing : List Bool) → List Piece →
    List Bytes
  | _, [] => []
  | enclosing, .test c condition :: rest =>
    meaningFrom isTrue (isTrue c condition :: enclosing) rest
  | enclosing, .close :: rest => meaningFrom isTrue enclosing.tail rest
  | enclosing, .output _ f :: rest =>
    (if enclosing.all id then f.lineTexts else []) ++ meaningFrom isTrue enclosing rest

/-- Whether a clause spells a condition that holds. -/
def clauseHolds (holds : Condition → Bool) (tokens : List Bytes) : Bool :=
  match Condition.read tokens with
  | .ok condition => holds condition
  | .error _ => false

/-- Whether every clause of an If holds. -/
def allClausesHold (holds : Condition → Bool) (c : Command) : Bool :=
  (c.args.splitOn conjunction).all (clauseHolds holds)

/-- The codes of a script that run, in order: those for which every clause of every If around them
holds. -/
def meaning (holds : Condition → Bool) (pieces : List Piece) : List Bytes :=
  meaningFrom (fun c _ => allClausesHold holds c) [] pieces

/-- What rendering leaves of a command. An If has the condition that its arguments spell first, and
as many `&&` among its arguments as in its line. Text that continues a line is not allowed here. -/
def Rendered : Piece → Prop
  | .test c condition => Condition.read c.args = .ok condition ∧
    c.args.count conjunction = extraClauses c
  | .close => True
  | .output _ (.inline _) => False
  | .output _ _ => True

section Meaning

variable {isTrue : Command → Condition → Bool}

/-- What the conditions of some scopes come to, the innermost first. -/
def truths (isTrue : Command → Condition → Bool) (tests : List OpenTest) : List Bool :=
  (tests.map fun t => isTrue t.1 t.2).reverse

theorem meaningFrom_closes (enclosing : List Bool) (n : Nat) (l : List Piece) :
    meaningFrom isTrue enclosing (List.replicate n .close ++ l)
      = meaningFrom isTrue (enclosing.drop n) l := by
  induction n generalizing enclosing with
  | zero => rfl
  | succ n ih => rw [List.replicate_succ, List.cons_append, meaningFrom, ih, List.drop_tail]

theorem meaningFrom_tests (enclosing : List Bool) (tests : List OpenTest) (l : List Piece) :
    meaningFrom isTrue enclosing (tests.map OpenTest.piece ++ l)
      = meaningFrom isTrue (truths isTrue tests ++ enclosing) l := by
  induction tests generalizing enclosing with
  | nil => rfl
  | cons t tests ih =>
    rw [List.map_cons, List.cons_append, OpenTest.piece, meaningFrom, ih]
    simp [truths]

/-! ## Splitting -/

/-- Closing all open scopes and opening them again changes nothing. -/
theorem meaningFrom_reopen (tests : List OpenTest) (l : List Piece) :
    meaningFrom isTrue (truths isTrue tests) (reopen tests ++ l)
      = meaningFrom isTrue (truths isTrue tests) l := by
  have hdrop : (truths isTrue tests).drop tests.length = [] := by simp [truths]
  rw [reopen, List.append_assoc, meaningFrom_closes, hdrop, meaningFrom_tests, List.append_nil]

theorem meaningFrom_cons (tests : List OpenTest) (p : Piece) {l m : List Piece}
    (h : meaningFrom isTrue (truths isTrue (openAfter tests p)) l
      = meaningFrom isTrue (truths isTrue (openAfter tests p)) m) :
    meaningFrom isTrue (truths isTrue tests) (p :: l)
      = meaningFrom isTrue (truths isTrue tests) (p :: m) := by
  cases p with
  | test c k =>
    simp only [openAfter, truths, List.map_append, List.map_cons, List.map_nil, List.reverse_append,
      List.reverse_cons, List.reverse_nil, List.nil_append, List.cons_append] at h
    rw [meaningFrom, meaningFrom, truths, h]
  | close =>
    rw [openAfter, truths, List.map_dropLast, ← List.tail_reverse] at h
    rw [meaningFrom, meaningFrom, truths, h]
  | output c f =>
    rw [openAfter] at h
    rw [meaningFrom, meaningFrom, h]

/-- Splitting keeps the codes that run. -/
theorem Parts.meaningFrom_eq {tests : List OpenTest} {lines : Nat} {pieces out : List Piece}
    (h : Parts tests lines pieces out) :
    meaningFrom isTrue (truths isTrue tests) out =
      meaningFrom isTrue (truths isTrue tests) pieces := by
  induction h with
  | nil => rfl
  | outside _ ih => exact meaningFrom_cons _ _ ih
  | same _ _ ih => exact meaningFrom_cons _ _ ih
  | fresh _ _ ih =>
    rw [meaningFrom_reopen]
    exact meaningFrom_cons _ _ ih

/-! ## Nesting -/

/-- The further clauses of an If become conditions of their own. -/
theorem extraTests_eq_ok {c : Command} {numbers : List Nat} {more : List Piece}
    (h : numbers.mapM (extraTest c) = .ok more) :
    ∃ tests : List OpenTest, more = tests.map OpenTest.piece ∧
      List.Forall₂ (fun i t => Condition.read (clause c.args i) = .ok t.2) numbers tests := by
  rw [mapM_eq_ok] at h
  induction h with
  | nil => exact ⟨[], rfl, .nil⟩
  | @cons i p is ps hp _ ih =>
    obtain ⟨tests, rfl, hall⟩ := ih
    simp only [extraTest, Command.withParts] at hp
    cases hk : Condition.read (clause c.args i) with
    | error e => simp [hk, Command.refuse] at hp
    | ok k =>
      simp only [hk, Except.ok.injEq] at hp
      subst hp
      exact ⟨(_, k) :: tests, rfl, .cons hk hall⟩

theorem nestFrom_test {extra : List Nat} {c : Command} {k : Condition} {rest out : List Piece}
    (h : nestFrom extra (.test c k :: rest) = .ok out) :
    ∃ (tests : List OpenTest) (out' : List Piece),
      List.Forall₂ (fun i t => Condition.read (clause c.args i) = .ok t.2)
        (List.range (extraClauses c)) tests ∧
      nestFrom (extraClauses c :: extra) rest = .ok out' ∧
      out = ((c, k) :: tests).map OpenTest.piece ++ out' := by
  simp only [nestFrom] at h
  obtain ⟨more, hmore, h⟩ := bind_eq_ok.1 h
  obtain ⟨out', hout, h⟩ := bind_eq_ok.1 h
  obtain rfl := pure_eq_ok.1 h
  obtain ⟨tests, rfl, hall⟩ := extraTests_eq_ok hmore
  exact ⟨tests, out', hall, hout, rfl⟩

theorem nestFrom_close {extra : List Nat} {rest out : List Piece}
    (h : nestFrom extra (.close :: rest) = .ok out) :
    ∃ out', nestFrom extra.tail rest = .ok out' ∧
      out = List.replicate (extra.headD 0 + 1) .close ++ out' := by
  cases extra with
  | nil =>
    obtain ⟨out', hout, h⟩ := bind_eq_ok.1 h
    obtain rfl := pure_eq_ok.1 h
    exact ⟨out', hout, rfl⟩
  | cons n extra =>
    obtain ⟨out', hout, h⟩ := bind_eq_ok.1 h
    obtain rfl := pure_eq_ok.1 h
    exact ⟨out', hout, rfl⟩

theorem nestFrom_output {extra : List Nat} {c : Command} {f : Fragment} {rest out : List Piece}
    (h : nestFrom extra (.output c f :: rest) = .ok out) :
    ∃ out', nestFrom extra rest = .ok out' ∧ out = .output c f :: out' := by
  cases extra <;>
  · obtain ⟨out', hout, h⟩ := bind_eq_ok.1 h
    obtain rfl := pure_eq_ok.1 h
    exact ⟨out', hout, rfl⟩

/-- If all scopes are closed, so are those of the clauses. -/
theorem nestFrom_depthAfter {extra : List Nat} {pieces out : List Piece}
    (h : nestFrom extra pieces = .ok out) (hd : depthAfter extra.length pieces = 0) :
    depthAfter (extra.map (· + 1)).sum out = 0 := by
  induction pieces generalizing extra out with
  | nil =>
    obtain rfl := List.eq_nil_of_length_eq_zero hd
    simp only [nestFrom, Except.ok.injEq] at h
    subst h
    rfl
  | cons p rest ih =>
    cases p with
    | test c k =>
      obtain ⟨tests, out', hall, hout, rfl⟩ := nestFrom_test h
      have hlen : tests.length = extraClauses c := by rw [← hall.length_eq, List.length_range]
      rw [depthAfter_append, depthAfter_tests, List.length_cons, hlen]
      have := ih hout hd
      rwa [List.map_cons, List.sum_cons, Nat.add_comm] at this
    | close =>
      obtain ⟨out', hout, rfl⟩ := nestFrom_close h
      have := ih hout (by rw [List.length_tail]; exact hd)
      rw [depthAfter_append, depthAfter_replicate_close]
      cases extra with
      | nil => exact this
      | cons n extra => simpa using this
    | output c f =>
      obtain ⟨out', hout, rfl⟩ := nestFrom_output h
      rw [depthAfter]
      exact ih hout hd

/-- An If holds if the conditions that its clauses became all hold. -/
theorem allClausesHold_eq {holds : Condition → Bool} {c : Command} {k : Condition}
    {tests : List OpenTest} (hr : Rendered (.test c k))
    (hall : List.Forall₂ (fun i t => Condition.read (clause c.args i) = .ok t.2)
      (List.range (extraClauses c)) tests) :
    allClausesHold holds c = ((c, k) :: tests).all (fun t => holds t.2) := by
  obtain ⟨hread, hcount⟩ := hr
  rw [allClausesHold, splitOn_eq_clauses, hcount, List.all_cons, List.all_cons, List.all_map]
  have hfirst : clauseHolds holds (Argument.firstClause c.args) = holds k := by
    rw [clauseHolds, Condition.read_firstClause hread]
  have hmore : (List.range (extraClauses c)).all (clauseHolds holds ∘ clause c.args)
      = tests.all (fun t => holds t.2) := by
    generalize List.range (extraClauses c) = numbers at hall
    induction hall with
    | nil => rfl
    | @cons i t is ts hi _ ih =>
      rw [List.all_cons, List.all_cons, ih, Function.comp_apply, clauseHolds, hi]
  rw [hfirst, hmore]

/-- Nesting keeps the codes that run. The scopes that one If became lie together on the stack: each
block has come to what the If has come to. -/
theorem nestFrom_meaningFrom {holds : Condition → Bool} {extra : List Nat} {pieces out : List Piece}
    (hr : ∀ p ∈ pieces, Rendered p) (h : nestFrom extra pieces = .ok out)
    {blocks : List (List Bool)} (hb : blocks.map List.length = extra.map (· + 1)) :
    meaningFrom (fun _ k => holds k) blocks.flatten out
      = meaningFrom (fun c _ => allClausesHold holds c) (blocks.map (·.all id)) pieces := by
  induction pieces generalizing extra out blocks with
  | nil =>
    simp only [nestFrom, Except.ok.injEq] at h
    subst h
    rfl
  | cons p rest ih =>
    have hrest : ∀ p ∈ rest, Rendered p := fun q hq => hr q (List.mem_cons_of_mem _ hq)
    have hp := hr p (List.mem_cons_self ..)
    cases p with
    | test c k =>
      obtain ⟨tests, out', hall, hout, rfl⟩ := nestFrom_test h
      have hlen : tests.length = extraClauses c := by rw [← hall.length_eq, List.length_range]
      have hb' : (truths (fun _ k => holds k) ((c, k) :: tests) :: blocks).map List.length
          = (extraClauses c :: extra).map (· + 1) := by
        simp [truths, hlen, hb]
      rw [meaningFrom_tests, ← List.flatten_cons, ih hrest hout hb', meaningFrom,
        allClausesHold_eq hp hall]
      simp [truths, Bool.and_comm]
    | close =>
      obtain ⟨out', hout, rfl⟩ := nestFrom_close h
      rw [meaningFrom_closes, meaningFrom]
      cases blocks with
      | nil =>
        obtain rfl : extra = [] := by simpa using hb.symm
        have hb' : ([] : List (List Bool)).map List.length = ([] : List Nat).map (· + 1) := rfl
        exact ih hrest hout hb'
      | cons b blocks =>
        cases extra with
        | nil => simp at hb
        | cons n extra =>
          simp only [List.map_cons, List.cons.injEq] at hb
          have hdrop : (b :: blocks).flatten.drop (n + 1) = blocks.flatten := by
            rw [List.flatten_cons, ← hb.1, List.drop_left]
          rw [List.headD_cons, hdrop]
          exact ih hrest hout hb.2
    | output c f =>
      obtain ⟨out', hout, rfl⟩ := nestFrom_output h
      have hall : blocks.flatten.all id = (blocks.map (·.all id)).all id := by
        rw [List.all_flatten, List.all_map]
        rfl
      rw [meaningFrom, meaningFrom, ih hrest hout hb, hall]

/-! ## Flat codes -/

theorem allLines_test (c : Command) (k : Condition) (l : List Piece) :
    Packed.allLines (flatten (.test c k :: l))
      = .test k (weight l) :: Packed.allLines (flatten l) := rfl

theorem allLines_output (c : Command) (f : Fragment) (l : List Piece) :
    Packed.allLines (flatten (.output c f :: l))
      = f.lineTexts.map .code ++ Packed.allLines (flatten l) := rfl

/-- Skipping the lines of a scope whose condition does not hold leads to what follows its end, and
nothing inside it runs. `inner` are the scopes that are open inside it. -/
theorem skip_scope (isTrue : Command → Condition → Bool) {d w : Nat} {l : List Piece}
    (h : weightFrom d l = some w) :
    ∃ after, after <:+ l ∧
      (Packed.allLines (flatten l)).drop w = Packed.allLines (flatten after) ∧
      ∀ inner outer : List Bool, inner.length = d →
        meaningFrom isTrue (inner ++ false :: outer) l = meaningFrom isTrue outer after := by
  induction l generalizing d w with
  | nil => simp at h
  | cons p l ih =>
    cases p with
    | test c k =>
      rw [weightFrom_test] at h
      obtain ⟨w, hw, rfl⟩ := Option.map_eq_some_iff.1 h
      obtain ⟨after, hsuf, hdrop, hmean⟩ := ih hw
      refine ⟨after, hsuf.trans (List.suffix_cons _ _), ?_, fun inner outer hd => ?_⟩
      · rw [allLines_test, List.drop_succ_cons, hdrop]
      · exact hmean (isTrue c k :: inner) outer (by rw [List.length_cons, hd])
    | close =>
      cases d with
      | zero =>
        obtain rfl := Option.some.inj h
        refine ⟨l, List.suffix_cons _ _, rfl, fun inner outer hd => ?_⟩
        obtain rfl := List.eq_nil_of_length_eq_zero hd
        rfl
      | succ d =>
        obtain ⟨after, hsuf, hdrop, hmean⟩ := ih h
        refine ⟨after, hsuf.trans (List.suffix_cons _ _), hdrop, fun inner outer hd => ?_⟩
        obtain ⟨b, inner, rfl⟩ := List.exists_cons_of_length_eq_add_one hd
        exact hmean inner outer (Nat.succ.inj hd)
    | output c f =>
      rw [weightFrom_output] at h
      obtain ⟨w, hw, rfl⟩ := Option.map_eq_some_iff.1 h
      obtain ⟨after, hsuf, hdrop, hmean⟩ := ih hw
      refine ⟨after, hsuf.trans (List.suffix_cons _ _), ?_, fun inner outer hd => ?_⟩
      · rw [allLines_output, Nat.add_comm, ← f.length_lineTexts, ← List.drop_drop,
          List.drop_left' (List.length_map _), hdrop]
      · rw [meaningFrom, hmean inner outer hd]
        simp

/-- Where all scopes are closed, the device runs the codes that the nested scopes let run. -/
theorem run_flatten {holds : Condition → Bool} (l : List Piece) (hl : unclosed? l = none)
    {enclosing : List Bool} (he : enclosing.all id = true) :
    Device.run holds (Packed.allLines (flatten l))
      = meaningFrom (fun _ k => holds k) enclosing l := by
  have main : ∀ n, ∀ m : List Piece, m.length = n → m <:+ l → ∀ e : List Bool, e.all id = true →
      Device.run holds (Packed.allLines (flatten m)) = meaningFrom (fun _ k => holds k) e m := by
    intro n
    induction n using Nat.strongRecOn with
    | ind n ih =>
      intro m hn hm e he
      subst hn
      cases m with
      | nil => rfl
      | cons p m =>
        have hsuf : m <:+ l := (List.suffix_cons p m).trans hm
        cases p with
        | test c k =>
          rw [allLines_test, Device.run_test, meaningFrom]
          by_cases hk : holds k = true
          · rw [if_pos hk, hk]
            exact ih m.length (by simp) m rfl hsuf _ (by simpa using he)
          · obtain ⟨w, hw⟩ := closed_of_suffix hl hm
            obtain ⟨after, hafter, hdrop, hmean⟩ := skip_scope (fun _ k => holds k) hw
            have hlen := hafter.length_le
            have hfalse : holds k = false := by simpa using hk
            rw [if_neg hk, weight, hw, Option.getD_some, hdrop, hfalse,
              ih after.length (by simp; omega) after rfl (hafter.trans hsuf) e he]
            exact (hmean [] e rfl).symm
        | close =>
          refine ih m.length (by simp) m rfl hsuf e.tail ?_
          cases e with
          | nil => rfl
          | cons b e =>
            rw [List.all_cons, Bool.and_eq_true] at he
            exact he.2
        | output c f =>
          rw [allLines_output, Device.run_codes, meaningFrom, if_pos he,
            ih m.length (by simp) m rfl hsuf e he]
  exact main l.length l rfl (List.suffix_refl l) enclosing he

end Meaning

/-! ## The text of the codes -/

theorem nestFrom_mem_output {extra : List Nat} {pieces out : List Piece}
    (h : nestFrom extra pieces = .ok out) {c : Command} {f : Fragment} (hm : .output c f ∈ out) :
    .output c f ∈ pieces := by
  induction pieces generalizing extra out with
  | nil =>
    simp only [nestFrom, Except.ok.injEq] at h
    exact h ▸ hm
  | cons p rest ih =>
    refine List.mem_cons.2 ?_
    cases p with
    | test c' k =>
      obtain ⟨tests, out', -, hout, rfl⟩ := nestFrom_test h
      rcases List.mem_append.1 hm with hm | hm
      · obtain ⟨t, -, ht⟩ := List.mem_map.1 hm
        simp [OpenTest.piece] at ht
      · exact Or.inr (ih hout hm)
    | close =>
      obtain ⟨out', hout, rfl⟩ := nestFrom_close h
      rcases List.mem_append.1 hm with hm | hm
      · simp at hm
      · exact Or.inr (ih hout hm)
    | output c' f' =>
      obtain ⟨out', hout, rfl⟩ := nestFrom_output h
      rcases List.mem_cons.1 hm with hm | hm
      · exact Or.inl hm
      · exact Or.inr (ih hout hm)

theorem not_mem_reopen (tests : List OpenTest) (c : Command) (f : Fragment) :
    .output c f ∉ reopen tests := by
  simp [reopen, OpenTest.piece]

theorem Parts.mem_output {tests : List OpenTest} {lines : Nat} {pieces out : List Piece}
    (h : Parts tests lines pieces out) {c : Command} {f : Fragment} (hm : .output c f ∈ out) :
    .output c f ∈ pieces := by
  induction h with
  | nil => exact hm
  | outside _ ih => exact List.mem_cons.2 ((List.mem_cons.1 hm).imp id ih)
  | same _ _ ih => exact List.mem_cons.2 ((List.mem_cons.1 hm).imp id ih)
  | fresh _ _ ih =>
    rcases List.mem_append.1 hm with hm | hm
    · exact absurd hm (not_mem_reopen _ c f)
    · exact List.mem_cons.2 ((List.mem_cons.1 hm).imp id ih)

theorem mem_flatten {l : List Piece} {f : Fragment} (h : .output f ∈ flatten l) :
    ∃ c, .output c f ∈ l := by
  induction l with
  | nil => simp [flatten] at h
  | cons p l ih =>
    cases p with
    | test c k =>
      obtain ⟨c', hc'⟩ := ih (by simpa [flatten] using h)
      exact ⟨c', List.mem_cons_of_mem _ hc'⟩
    | close =>
      obtain ⟨c', hc'⟩ := ih h
      exact ⟨c', List.mem_cons_of_mem _ hc'⟩
    | output c g =>
      rcases List.mem_cons.1 h with h | h
      · obtain rfl := Packed.output.inj h
        exact ⟨c, List.mem_cons_self ..⟩
      · obtain ⟨c', hc'⟩ := ih h
        exact ⟨c', List.mem_cons_of_mem _ hc'⟩

/-- The text of codes without text that continues a line is their lines with newlines between
them. -/
theorem joinTexts_allLines (type : ConditionType) {codes : List Packed}
    (h : ∀ s, .output (.inline s) ∉ codes) :
    joinTexts (codes.map (Packed.text type))
      = Bytes.join [Byte.newline] ((Packed.allLines codes).map (DeviceLine.text type)) := by
  have hlines : codes.map (Packed.text type)
      = (codes.map fun p => p.lines.map (DeviceLine.text type)).map
          (·.flatMap (Byte.newline :: ·)) := by
    rw [List.map_map]
    refine List.map_congr_left fun p hp => ?_
    cases p with
    | test k skip => rfl
    | output f =>
      rw [Packed.text, Fragment.text_eq (by rintro s rfl; exact h s hp)]
      simp [Packed.lines, Function.comp_def, DeviceLine.text]
  rw [hlines, joinTexts_lines, Packed.allLines, List.flatMap_def, List.map_flatten, List.map_map]
  rfl

/-- A packed condition skips the lines of a scope of the pieces. -/
theorem mem_flatten_test {l : List Piece} {k : Condition} {skip : Nat}
    (h : .test k skip ∈ flatten l) : ∃ c rest, .test c k :: rest <:+ l ∧ skip = weight rest := by
  induction l with
  | nil => simp [flatten] at h
  | cons p l ih =>
    have hcons : ∀ {m : List Piece}, m <:+ l → m <:+ p :: l :=
      fun hm => hm.trans (List.suffix_cons _ _)
    cases p with
    | test c k' =>
      rcases List.mem_cons.1 h with h | h
      · obtain ⟨rfl, rfl⟩ := Packed.test.inj h
        exact ⟨c, l, List.suffix_refl _, rfl⟩
      · obtain ⟨c', rest, hs, hw⟩ := ih h
        exact ⟨c', rest, hcons hs, hw⟩
    | close =>
      obtain ⟨c', rest, hs, hw⟩ := ih h
      exact ⟨c', rest, hcons hs, hw⟩
    | output c f =>
      obtain ⟨c', rest, hs, hw⟩ := ih (by simpa [flatten] using h)
      exact ⟨c', rest, hcons hs, hw⟩

/-! ## Packing -/

/-- The steps of a packing that succeeds. -/
theorem pack_eq_ok {pieces : List Piece} {codes : List Packed} (h : pack pieces = .ok codes) :
    unclosed? pieces = none ∧ ∃ nested parts, nest pieces = .ok nested ∧
      Parts [] 0 nested parts ∧ codes = flatten parts := by
  unfold pack at h
  cases hu : unclosed? pieces with
  | some c => simp [hu, Command.refuse] at h
  | none =>
    rw [hu] at h
    obtain ⟨nested, hn, h⟩ := bind_eq_ok.1 h
    obtain ⟨parts, hp, h⟩ := bind_eq_ok.1 h
    exact ⟨rfl, nested, parts, hn, parts_of_splitFrom (Nat.zero_le _) hp, (pure_eq_ok.1 h).symm⟩

/-- The scopes of packed pieces are all closed. -/
theorem closed_parts {pieces nested parts : List Piece} (hu : unclosed? pieces = none)
    (hn : nest pieces = .ok nested) (hp : Parts [] 0 nested parts) : unclosed? parts = none := by
  rw [unclosed?_eq_none_iff] at hu ⊢
  have hkeep : depthAfter ([] : List OpenTest).length parts = depthAfter 0 nested :=
    hp.depthAfter_eq
  exact hkeep.trans (nestFrom_depthAfter hn hu)

/-- **Packing keeps the meaning of a script.** Whatever the conditions come to, the device runs the
same codes in the same order as the scopes of the script let run. Each condition skips at most 255
lines, so two digits hold the number; and the lines the device runs are those of the compiled
text. -/
theorem pack_preserves_meaning {pieces : List Piece} {codes : List Packed}
    (hr : ∀ p ∈ pieces, Rendered p) (h : pack pieces = .ok codes) :
    (∀ holds : Condition → Bool,
      Device.run holds (Packed.allLines codes) = meaning holds pieces) ∧
    (∀ k skip, .test k skip ∈ codes → skip ≤ 0xFF) ∧
    ∀ type, joinTexts (codes.map (Packed.text type))
      = Bytes.join [Byte.newline] ((Packed.allLines codes).map (DeviceLine.text type)) := by
  obtain ⟨hu, nested, parts, hn, hp, rfl⟩ := pack_eq_ok h
  have hclosed := closed_parts hu hn hp
  refine ⟨fun holds => ?_, fun k skip hm => ?_, fun type => joinTexts_allLines type fun s hs => ?_⟩
  · have hblocks : ([] : List (List Bool)).map List.length = ([] : List Nat).map (· + 1) := rfl
    calc Device.run holds (Packed.allLines (flatten parts))
        = meaningFrom (fun _ k => holds k) [] parts := run_flatten parts hclosed rfl
      _ = meaningFrom (fun _ k => holds k) [] nested := hp.meaningFrom_eq
      _ = meaning holds pieces := nestFrom_meaningFrom hr hn hblocks
  · obtain ⟨c, rest, hs, rfl⟩ := mem_flatten_test hm
    obtain ⟨n, hn⟩ := closed_of_suffix hclosed hs
    rw [weight, hn]
    exact (hp.small (Nat.zero_le _)).2 c k rest hs n hn
  · obtain ⟨c, hc⟩ := mem_flatten hs
    exact hr _ (nestFrom_mem_output hn (hp.mem_output hc))

/-- An If with two clauses around two texts of 200 lines each. -/
def twoTexts : List Piece :=
  let c := Command.ofLine (ascii "If 0x100 =. 1 && 0x104 !: 0x20")
  let f := Fragment.block (List.replicate 199 Byte.newline)
  [.test c ⟨0x100, .equal, .byte, 1⟩, .output c f, .output c f, .close]

theorem twoTexts_rendered : ∀ p ∈ twoTexts, Rendered p := by
  intro p hp
  simp only [twoTexts, List.mem_cons, List.not_mem_nil, or_false] at hp
  rcases hp with rfl | rfl | rfl | rfl
  · exact ⟨by rfl, by decide⟩
  · trivial
  · trivial
  · trivial

set_option maxRecDepth 4000 in
/-- The texts do not fit one part, so both conditions are tested twice. -/
theorem pack_twoTexts :
    pack twoTexts = .ok
      [.test ⟨0x100, .equal, .byte, 1⟩ 201, .test ⟨0x104, .notEqual, .half, 0x20⟩ 200,
       .output (.block (List.replicate 199 Byte.newline)),
       .test ⟨0x100, .equal, .byte, 1⟩ 201, .test ⟨0x104, .notEqual, .half, 0x20⟩ 200,
       .output (.block (List.replicate 199 Byte.newline))] := by
  rfl

theorem pack_preserves_meaning_twoTexts :
    (∀ p ∈ twoTexts, Rendered p) ∧ ∃ codes, pack twoTexts = .ok codes ∧ codes.length = 6 ∧
      ∀ holds : Condition → Bool,
      Device.run holds (Packed.allLines codes) = meaning holds twoTexts :=
  ⟨twoTexts_rendered, _, pack_twoTexts, rfl,
    (pack_preserves_meaning twoTexts_rendered pack_twoTexts).1⟩

end Scope

end CheatScript
