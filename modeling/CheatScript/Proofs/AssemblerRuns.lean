import CheatScript.Assembler
import CheatScript.Proofs.Outcome

/-!
# Proofs: asm scopes assembled one after the other

An assembler clears what it holds when a scope begins, so what a scope gives does not depend on the
scopes before it, whether these were assembled or left off at a fault: the words, the fault and the
listing are those of assembling the scope on its own.
-/

namespace CheatScript

namespace Task

variable {σ α β : Type} {x : Task σ α} {next : α → Task σ β} {s s' : σ}

theorem bind_of_ok {a : α} (h : x s = (.ok a, s')) : (x >>= next) s = next a s' := by
  show andThen x next s = _
  rw [andThen, h]

theorem bind_of_error {f : Failure} (h : x s = (.error f, s')) :
    (x >>= next) s = (.error f, s') := by
  show andThen x next s = _
  rw [andThen, h]

theorem read_bind (part : σ → α) (next : α → Task σ β) (s : σ) :
    (read part >>= next) s = next (part s) s := rfl

theorem change_bind (f : σ → σ) (next : Unit → Task σ β) (s : σ) :
    (change f >>= next) s = next () (f s) := rfl

theorem ofResult_ok_bind (a : α) (next : α → Task σ β) (s : σ) :
    (ofResult (.ok a) >>= next) s = next a s := rfl

theorem ofResult_error_bind (f : Failure) (next : α → Task σ β) (s : σ) :
    (ofResult (.error f) >>= next) s = (.error f, s) := rfl

theorem bind_give (x : Task σ α) : x >>= pure = x := by
  funext s
  obtain ⟨⟨result, s'⟩, hx⟩ : ∃ out, x s = out := ⟨_, rfl⟩
  cases result with
  | error f => rw [bind_of_error hx, hx]
  | ok a =>
    rw [bind_of_ok hx, hx]
    rfl

end Task

namespace Assembler

open Assembly

variable {a b : Assembler} {code cmds : List Command} {c : Command} {x y : Expanded} {f : Failure}

/-! ## The first pass -/

/-- The first pass on an assembler comes to the expansion `r`: it leaves the labels in the assembler
and gives the instructions. Also where it ends with a fault, nothing but the labels has changed. -/
structure Expands (a : Assembler) (out : Except Failure (List Command) × Assembler)
    (r : Except Failure Expanded) : Prop where
  agree : Agree (fun code x => x = ⟨out.2.labels, code⟩) out.1 r
  definitions : out.2.definitions = a.definitions
  listingMode : out.2.listingMode = a.listingMode
  listing : out.2.listing = a.listing

theorem define_code (h : Expanded.define x c = .ok y) : y.code = x.code := by
  simp only [Expanded.define] at h
  split at h
  · cases h
  · split at h
    · cases h
    · obtain rfl := Except.ok.inj h
      rfl

theorem define_of_ok (h : Expanded.define ⟨a.labels, code⟩ c = .ok x) :
    define code c a = (.ok (), { a with labels := x.labels }) := by
  rw [define, Task.read_bind, h, Task.ofResult_ok_bind]
  rfl

theorem define_of_error (h : Expanded.define ⟨a.labels, code⟩ c = .error f) :
    define code c a = (.error f, a) := by
  rw [define, Task.read_bind, h, Task.ofResult_error_bind]

theorem emit_expands (a : Assembler) (code : List Command) (c : Command) :
    Expands a (emit code c a) (Expanded.emit a.definitions ⟨a.labels, code⟩ c) := by
  rw [emit, Task.read_bind, Expanded.emit]
  cases h : instructionsOf a.definitions c with
  | error f => exact ⟨.error f, rfl, rfl, rfl⟩
  | ok new => exact ⟨.ok rfl, rfl, rfl, rfl⟩

/-- A label, and then what `next` does on the same line. -/
theorem define_expands {next : Task Assembler (List Command)}
    {rest : Expanded → Except Failure Expanded}
    (h : ∀ b : Assembler, b.definitions = a.definitions →
      Expands b (next b) (rest ⟨b.labels, code⟩)) :
    Expands a ((define code c >>= fun _ => next) a)
      (Expanded.define ⟨a.labels, code⟩ c >>= rest) := by
  cases hdefine : Expanded.define ⟨a.labels, code⟩ c with
  | error f =>
    rw [Task.bind_of_error (define_of_error hdefine)]
    exact ⟨.error f, rfl, rfl, rfl⟩
  | ok x =>
    rw [Task.bind_of_ok (define_of_ok hdefine)]
    have hx : x = ⟨x.labels, code⟩ := by
      have hcode : x.code = code := define_code hdefine
      rw [← hcode]
    obtain ⟨hagree, hdefinitions, hmode, hlisting⟩ := h { a with labels := x.labels } rfl
    refine ⟨?_, hdefinitions, hmode, hlisting⟩
    show Agree _ _ (rest x)
    rw [hx]
    exact hagree

/-- One line. The induction is on what follows a label on it. -/
theorem addLine_expands (a : Assembler) (c : Command) (code : List Command) (name : Bytes)
    (args : List Bytes) :
    Expands a (addLine c code name args a)
      (Expanded.addLine a.definitions c ⟨a.labels, code⟩ name args) := by
  induction args generalizing a name with
  | nil =>
    rw [addLine, Expanded.addLine]
    by_cases hlabel : isLabel name = true
    · rw [if_pos hlabel, if_pos hlabel, ← bind_pure (Expanded.define _ _)]
      refine define_expands fun b _ => ?_
      exact ⟨.ok rfl, rfl, rfl, rfl⟩
    · rw [if_neg hlabel, if_neg hlabel]
      exact emit_expands a code (c.withParts name [])
  | cons arg args ih =>
    rw [addLine, Expanded.addLine]
    by_cases hlabel : isLabel name = true
    · rw [if_pos hlabel, if_pos hlabel]
      refine define_expands fun b hb => ?_
      rw [← hb]
      exact ih b (Bytes.upper arg)
    · rw [if_neg hlabel, if_neg hlabel]
      exact emit_expands a code (c.withParts name (arg :: args))

theorem addLines_expands (a : Assembler) (code cmds : List Command) :
    Expands a (addLines code cmds a)
      (cmds.foldlM (fun x c => Expanded.addLine a.definitions c x c.name c.args)
        ⟨a.labels, code⟩) := by
  induction cmds generalizing a code with
  | nil => exact ⟨.ok rfl, rfl, rfl, rfl⟩
  | cons c cmds ih =>
    rw [addLines, List.foldlM_cons]
    obtain ⟨hagree, hdefinitions, hmode, hlisting⟩ := addLine_expands a c code c.name c.args
    -- the line in hand is done, with or without a fault, and leaves the assembler `b`
    generalize hout : addLine c code c.name c.args a = out at hagree hdefinitions hmode hlisting
    obtain ⟨result, b⟩ := out
    generalize Expanded.addLine a.definitions c ⟨a.labels, code⟩ c.name c.args = r at hagree
    cases hagree with
    | error f =>
      rw [Task.bind_of_error hout]
      exact ⟨.error f, hdefinitions, hmode, hlisting⟩
    | ok hx =>
      rw [Task.bind_of_ok hout, hx, ← show b.definitions = a.definitions from hdefinitions]
      obtain ⟨hagree', hdefinitions', hmode', hlisting'⟩ := ih b _
      exact ⟨hagree', hdefinitions'.trans hdefinitions, hmode'.trans hmode,
        hlisting'.trans hlisting⟩

/-! ## The second pass -/

/-- The part of a listing that an assembler keeps. -/
def kept (a : Assembler) (l : List ListingLine) : List ListingLine :=
  if a.listingMode then l else []

theorem kept_nil (a : Assembler) : a.kept [] = [] := by
  unfold kept
  split <;> rfl

theorem kept_append (a : Assembler) (l m : List ListingLine) :
    a.kept (l ++ m) = a.kept l ++ a.kept m := by
  unfold kept
  split <;> rfl

theorem kept_congr (h : b.listingMode = a.listingMode) (l : List ListingLine) :
    b.kept l = a.kept l := by
  rw [kept, kept, h]

theorem addListing_eq (a : Assembler) (l : ListingLine) :
    a.addListing l = { a with listing := a.listing ++ a.kept [l] } := by
  unfold addListing kept
  split
  · rfl
  · rw [List.append_nil]

/-- The words up to the first fault are listed, and nothing but the listing changes. -/
theorem encodeFrom_eq (a : Assembler) (base : Word) (index : Nat) (cmds : List Command) :
    encodeFrom base index cmds a =
      ((Assembly.encodeFrom a.labels base index cmds).words,
        { a with
          listing :=
            a.listing ++ a.kept (Assembly.encodeFrom a.labels base index cmds).listing }) := by
  induction cmds generalizing a index with
  | nil =>
    rw [encodeFrom, Assembly.encodeFrom, kept_nil, List.append_nil]
    rfl
  | cons c cmds ih =>
    rw [encodeFrom, Task.read_bind, Assembly.encodeFrom]
    cases hword : encode a.labels index c with
    | error f =>
      rw [Task.ofResult_error_bind]
      simp only [kept_nil, List.append_nil]
      rfl
    | ok word =>
      set line : ListingLine := ⟨base + BitVec.ofNat 32 (4 * index), word, sourceText c⟩
      rw [Task.ofResult_ok_bind, Task.change_bind, addListing_eq]
      set b : Assembler := { a with listing := a.listing ++ a.kept [line] }
      set rest := Assembly.encodeFrom a.labels base (index + 1) cmds
      have hlisting :
          b.listing ++ b.kept rest.listing = a.listing ++ a.kept (line :: rest.listing) := by
        rw [kept_congr (show b.listingMode = a.listingMode from rfl), List.append_assoc,
          ← kept_append, List.singleton_append]
      have hrest : encodeFrom base (index + 1) cmds b =
          (rest.words, { a with listing := a.listing ++ a.kept (line :: rest.listing) }) := by
        rw [← hlisting]
        exact ih b (index + 1)
      unfold Outcome.words at hrest ⊢
      cases hfailure : rest.failure with
      | some f =>
        rw [hfailure] at hrest
        rw [Task.bind_of_error hrest]
      | none =>
        rw [hfailure] at hrest
        rw [Task.bind_of_ok hrest]
        rfl

/-! ## Scopes -/

/-- What a scope gives is what assembling it on its own gives. -/
theorem assemble_eq (t : DefinitionTable) (base : Word) (cmds : List Command) (a : Assembler) :
    (assemble t base cmds a).1 = (Assembly.assemble t base cmds).words ∧
      (assemble t base cmds a).2.listing = a.kept (Assembly.assemble t base cmds).listing ∧
      (assemble t base cmds a).2.listingMode = a.listingMode := by
  rw [assemble, Task.change_bind, Assembly.assemble, Expanded.ofCommands]
  obtain ⟨hagree, -, hmode, hlisting⟩ := addLines_expands (a.begin t) [] cmds
  generalize hout : addLines [] cmds (a.begin t) = out at hagree hmode hlisting
  obtain ⟨result, b⟩ := out
  have hstart :
      (cmds.foldlM (fun x c => Expanded.addLine t c x c.name c.args) {} : Except Failure Expanded)
      = cmds.foldlM (fun x c => Expanded.addLine (a.begin t).definitions c x c.name c.args)
        ⟨(a.begin t).labels, []⟩ := rfl
  rw [hstart]
  generalize cmds.foldlM (fun x c => Expanded.addLine (a.begin t).definitions c x c.name c.args)
    ⟨(a.begin t).labels, []⟩ = r at hagree
  cases hagree with
  | error f =>
    rw [Task.bind_of_error hout]
    exact ⟨rfl, hlisting.trans a.kept_nil.symm, hmode⟩
  | ok hx =>
    rw [Task.bind_of_ok hout, hx, encodeFrom_eq]
    refine ⟨rfl, ?_, hmode⟩
    show b.listing ++ b.kept _ = _
    rw [show b.listing = [] from hlisting, List.nil_append]
    exact kept_congr hmode _

/-- The report on assembling a scope on its own. -/
def Report.ofOutcome (listing : Bool) (o : Outcome) : Report :=
  ⟨o.words, if listing then o.listing else []⟩

theorem run_eq (a : Assembler) (job : Job) :
    (a.run job).1 =
      .ofOutcome job.listing (Assembly.assemble job.definitions job.base job.commands) := by
  set b : Assembler := { a with listingMode := job.listing }
  have hreport : (a.run job).1 = ⟨(assemble job.definitions job.base job.commands b).1,
      (assemble job.definitions job.base job.commands b).2.listing⟩ := rfl
  obtain ⟨hwords, hlisting, -⟩ := assemble_eq job.definitions job.base job.commands b
  rw [hreport, hwords, hlisting]
  rfl

/-- Jobs done one after the other are reported on as if each was the first. -/
theorem runAll_eq (a : Assembler) (jobs : List Job) :
    a.runAll jobs = jobs.map fun job =>
      .ofOutcome job.listing (Assembly.assemble job.definitions job.base job.commands) := by
  induction jobs generalizing a with
  | nil => rfl
  | cons job jobs ih =>
    have hstep : a.runAll (job :: jobs) = (a.run job).1 :: (a.run job).2.runAll jobs := rfl
    rw [hstep, run_eq, ih, List.map_cons]

end Assembler

end CheatScript
