import CheatScript.Call
import CheatScript.Proofs.DefinitionLookup
import CheatScript.Proofs.Outcome
import Mathlib.Data.List.Perm.Subperm
import Mathlib.Logic.Relation

/-!
# Proofs: the expansion of calls

Calls are worked in by a loop that puts the body of a function in the place of the first call, until
no call is left. The loop ends because a function is not worked in inside its own body, which the
guard sees from the first token of a call. That token is an argument like the others: where it names
a parameter, it is replaced, while the function is still taken from the line. So the loop ends for
functions whose calls keep their first token, and without that it need not end.
-/

namespace CheatScript

/-! ## The name of the called function -/

theorem Identifier.cut?_head {s name rest : Bytes} (h : Identifier.cut? s = some (name, rest)) :
    ∃ c more, name = c :: more ∧ c ≠ Byte.plus ∧ c ≠ Byte.comma := by
  unfold cut? at h
  cases s with
  | nil => cases h
  | cons c s =>
    have hsome : (afterChar? (c :: s)).isSome = true := by
      cases hchar : afterChar? (c :: s) with
      | none => simp [lengthFrom, hchar] at h
      | some _ => rfl
    obtain ⟨after, hchar⟩ := Option.isSome_iff_exists.1 hsome
    simp only [lengthFrom, hchar] at h
    obtain ⟨rfl, -⟩ := Prod.mk.inj (Option.some.inj h)
    refine ⟨c, _, List.take_succ_cons, ?_, ?_⟩
    · rintro rfl
      cases hchar
    · rintro rfl
      cases hchar

namespace Call

variable {functions : List Function} {call c : Command} {cmds body now next : List Command}

/-- The name of a called function has no mark in front. -/
theorem splitMark_callee {s name : Bytes} (h : callee? s = some name) :
    splitMark name = ([], name) := by
  induction s with
  | nil => cases h
  | cons c s ih =>
    unfold callee? at h
    cases hat : calleeAt? (c :: s) with
    | none =>
      rw [hat, Option.none_or] at h
      exact ih h
    | some found =>
      rw [hat, Option.some_or] at h
      obtain rfl := Option.some.inj h
      unfold calleeAt? at hat
      obtain ⟨⟨own, rest⟩, hheading, hclosed⟩ := Option.bind_eq_some_iff.1 hat
      unfold Function.heading? at hheading
      obtain ⟨line, -, hname⟩ := Option.bind_eq_some_iff.1 hheading
      obtain ⟨⟨cutName, cutRest⟩, hcut, hname⟩ := Option.bind_eq_some_iff.1 hname
      obtain ⟨list, -, hpair⟩ := Option.bind_eq_some_iff.1 hname
      obtain ⟨rfl, rfl⟩ := Prod.mk.inj (Option.some.inj hpair)
      obtain ⟨first, more, hfirst, hplus, hcomma⟩ := Identifier.cut?_head hcut
      have hsame : found = cutName := by
        simp only at hclosed
        split at hclosed
        · exact (Option.some.inj hclosed).symm
        · cases hclosed
      rw [hsame, hfirst]
      simp [splitMark, hplus, hcomma]

/-! ## What a call brings in -/

/-- Whether a line calls a function: the one that is found by the name in the line. -/
def Calls (functions : List Function) (c : Command) (f : Function) : Prop :=
  ∃ name, callee? c.text = some name ∧ Function.find? functions name = some f

theorem calls_of_resolve {f : Function} {args : List Bytes}
    (h : resolve functions call = .ok (f, args)) :
    Calls functions call f ∧ args.length = f.parameters.length := by
  unfold resolve at h
  cases hcallee : callee? call.text with
  | none =>
    rw [hcallee] at h
    cases h
  | some name =>
    rw [hcallee] at h
    simp only at h
    split at h
    · cases h
    · cases hfind : Function.find? functions name with
      | none =>
        rw [hfind] at h
        cases h
      | some g =>
        rw [hfind] at h
        obtain ⟨given, -, hcount⟩ := Outcome.bind_eq_ok.1 h
        have hg : g = f ∧ args.length = g.parameters.length := by
          generalize (if given = [[]] then [] else given) = passed at hcount
          split at hcount
          · rename_i hlength
            obtain ⟨hsame, rfl⟩ := Prod.mk.inj (Outcome.pure_eq_ok.1 hcount)
            exact ⟨hsame, hlength⟩
          · cases hcount
        obtain ⟨rfl, hlength⟩ := hg
        exact ⟨⟨name, hcallee, hfind⟩, hlength⟩

theorem Calls.mem {f : Function} (h : Calls functions c f) :
    f ∈ functions ∧ callee? c.text = some f.name := by
  obtain ⟨name, hcallee, hfind⟩ := h
  unfold Function.find? at hfind
  have hname := List.find?_some hfind
  exact ⟨List.mem_of_find?_eq_some hfind, by rw [hcallee, beq_iff_eq.1 hname]⟩

theorem resolve_eq_ok {f : Function} {args : List Bytes}
    (h : resolve functions call = .ok (f, args)) :
    f ∈ functions ∧ callee? call.text = some f.name ∧ args.length = f.parameters.length := by
  obtain ⟨hcalls, hlength⟩ := calls_of_resolve h
  exact ⟨hcalls.mem.1, hcalls.mem.2, hlength⟩

/-- The definition that binds a parameter to an argument; none for the parameter's own name. -/
def binding? (pair : Bytes × Bytes) : Option Definition :=
  if pair.2 = pair.1 then none else some ⟨pair.1, valuesOf pair.2, 0⟩

theorem bindings_eq (parameters args : List Bytes) :
    bindings parameters args = DefinitionTable.ofList ((parameters.zip args).filterMap binding?) :=
  rfl

theorem binding?_eq_some {pair : Bytes × Bytes} {d : Definition} :
    binding? pair = some d ↔ pair.2 ≠ pair.1 ∧ ⟨pair.1, valuesOf pair.2, 0⟩ = d := by
  unfold binding?
  by_cases h : pair.2 = pair.1
  · simp [h]
  · simp [h]

theorem declares_bindings {parameters args : List Bytes} {name : Bytes} :
    (bindings parameters args).declares name = true ↔
      ∃ arg, (name, arg) ∈ parameters.zip args ∧ arg ≠ name := by
  rw [bindings_eq, DefinitionTable.declares_ofList]
  constructor
  · rintro ⟨d, hd, rfl⟩
    obtain ⟨⟨parameter, arg⟩, hpair, hbound⟩ := List.mem_filterMap.1 hd
    obtain ⟨hne, rfl⟩ := binding?_eq_some.1 hbound
    exact ⟨arg, hpair, hne⟩
  · rintro ⟨arg, hpair, hne⟩
    exact ⟨_, List.mem_filterMap.2 ⟨_, hpair, binding?_eq_some.2 ⟨hne, rfl⟩⟩, rfl⟩

theorem not_declares_bindings {parameters args : List Bytes} {name : Bytes}
    (h : name ∉ parameters) : (bindings parameters args).declares name = false := by
  rw [Bool.eq_false_iff]
  intro hdeclares
  obtain ⟨arg, hpair, -⟩ := declares_bindings.1 hdeclares
  exact h (List.of_mem_zip hpair).1

/-- A command of the body of `f` as `call` brings it in: its line is the same, and so is its first
argument where that names no parameter. -/
structure BroughtIn (f : Function) (call c b : Command) : Prop where
  name : b.name = c.name
  text : b.text = c.text
  callers : b.callers = call.callers ++ [f.name]
  first : ∀ token, c.args.head? = some token → splitMark token = ([], token) →
    token ∉ f.parameters → b.args.head? = some token

theorem substitute_eq_ok {t : DefinitionTable} {b : Command} (h : t.substitute c = .ok b) :
    (b.name = c.name ∧ b.text = c.text ∧ b.callers = c.callers) ∧
      ∀ token, c.args.head? = some token → splitMark token = ([], token) →
        t.declares token = false → b.args.head? = some token := by
  unfold DefinitionTable.substitute at h
  cases hargs : c.args.mapM (t.substituteToken c.position) with
  | none =>
    rw [hargs] at h
    cases h
  | some lists =>
    rw [hargs] at h
    obtain rfl := Except.ok.inj h
    refine ⟨⟨rfl, rfl, rfl⟩, fun token htoken hmark hfree => ?_⟩
    cases hc : c.args with
    | nil =>
      rw [hc] at htoken
      cases htoken
    | cons first rest =>
      rw [hc] at htoken hargs
      obtain rfl := Option.some.inj htoken
      have hself : t.substituteToken c.position first = some [first] := by
        simp [DefinitionTable.substituteToken, tidyMark, hmark, hfree]
      rw [List.mapM_cons, hself] at hargs
      obtain ⟨own, hown, hrest⟩ := Option.bind_eq_some_iff.1 hargs
      obtain ⟨others, -, hlists⟩ := Option.bind_eq_some_iff.1 hrest
      obtain rfl := Option.some.inj hown
      obtain rfl := Option.some.inj hlists
      rfl

theorem substituteList_eq_ok {t : DefinitionTable} {b : Command} (h : substituteList t c = .ok b) :
    b.name = c.name ∧ b.text = c.text ∧ b.callers = c.callers ∧ b.args.head? = c.args.head? := by
  unfold substituteList at h
  split at h
  · split at h
    · rename_i callee list rest hargs
      obtain ⟨args, -, hlist⟩ := Outcome.bind_eq_ok.1 h
      simp only at hlist
      split at hlist
      · obtain rfl := Outcome.pure_eq_ok.1 hlist
        exact ⟨rfl, rfl, rfl, by rw [hargs]; rfl⟩
      · cases hlist
    · obtain rfl := Outcome.pure_eq_ok.1 h
      exact ⟨rfl, rfl, rfl, rfl⟩
  · obtain rfl := Outcome.pure_eq_ok.1 h
    exact ⟨rfl, rfl, rfl, rfl⟩

/-- The commands a call stands for are those of the body of the function that its line calls, one by
one. -/
theorem inline_brings (h : inline functions call = .ok body) :
    ∃ f, Calls functions call f ∧ List.Forall₂ (BroughtIn f call) f.body body := by
  unfold inline at h
  obtain ⟨⟨f, args⟩, hblame, h⟩ := Outcome.bind_eq_ok.1 h
  refine ⟨f, (calls_of_resolve (Command.blame_eq_ok.1 hblame)).1, ?_⟩
  simp only at h
  split at h
  · obtain rfl := Outcome.pure_eq_ok.1 h
    rw [bodyOf, List.forall₂_map_right_iff, List.forall₂_same]
    exact fun c _ => ⟨rfl, rfl, rfl, fun token htoken _ _ => htoken⟩
  · obtain ⟨named, hnamed, hlists⟩ := Outcome.bind_eq_ok.1 h
    have hfirst := Outcome.mapM_eq_ok.1 hnamed
    rw [bodyOf, List.forall₂_map_left_iff] at hfirst
    refine Outcome.forall₂_comp hfirst (Outcome.mapM_eq_ok.1 hlists) fun c b₁ b₂ hsub hlist => ?_
    obtain ⟨hname, htext, hcallers, hhead⟩ := substituteList_eq_ok hlist
    obtain ⟨⟨hname', htext', hcallers'⟩, hhead'⟩ := substitute_eq_ok hsub
    refine ⟨hname.trans hname', htext.trans htext', hcallers.trans hcallers', ?_⟩
    intro token htoken hmark hfree
    rw [hhead]
    exact hhead' token htoken hmark (not_declares_bindings hfree)

theorem inline_eq_ok (h : inline functions call = .ok body) :
    ∃ f ∈ functions, callee? call.text = some f.name ∧
      ∀ b ∈ body, ∃ c ∈ f.body, BroughtIn f call c b := by
  obtain ⟨f, hcalls, hbody⟩ := inline_brings h
  exact ⟨f, hcalls.mem.1, hcalls.mem.2, fun b hb => Outcome.exists_of_mem_right hbody hb⟩

/-! ## Functions whose calls keep their names -/

/-- Whether every call in the body of a function has the name of the called function as its first
token, and that name is none of the parameters. -/
def KeepsCallees (functions : List Function) : Prop :=
  ∀ f ∈ functions, ∀ c ∈ f.body, c.name = ascii "CALL" → ∀ name ∈ callee? c.text,
    c.args.head? = some name ∧ name ∉ f.parameters

instance (functions : List Function) : Decidable (KeepsCallees functions) :=
  inferInstanceAs (Decidable (∀ f ∈ functions, ∀ c ∈ f.body, c.name = ascii "CALL" →
    ∀ name ∈ callee? c.text, c.args.head? = some name ∧ name ∉ f.parameters))

/-- A command whose callers are distinct functions and which, if it is a call, calls none of
them. -/
structure Guarded (functions : List Function) (c : Command) : Prop where
  nodup : c.callers.Nodup
  known : ∀ name ∈ c.callers, name ∈ functions.map (·.name)
  fresh : c.name = ascii "CALL" → ∀ name, callee? c.text = some name → name ∉ c.callers

theorem Guarded.length_callers (h : Guarded functions c) : c.callers.length ≤ functions.length := by
  have hle := (h.nodup.subperm h.known).length_le
  rwa [List.length_map] at hle

/-- A call in a body that has its function among its callers is seen by the guard. -/
theorem isRecursive_of_mem (hkeeps : KeepsCallees functions) (h : inline functions call = .ok body)
    {b : Command} (hb : b ∈ body) (hcall : b.name = ascii "CALL") {name : Bytes}
    (hcallee : callee? b.text = some name) (hmem : name ∈ b.callers) :
    isRecursive call b = true := by
  obtain ⟨f, hf, -, hbody⟩ := inline_eq_ok h
  obtain ⟨c, hc, hfrom⟩ := hbody b hb
  have hcallee' : callee? c.text = some name := hfrom.text ▸ hcallee
  obtain ⟨hfirst, hfree⟩ := hkeeps f hf c hc (hfrom.name ▸ hcall) name hcallee'
  have hhead := hfrom.first name hfirst (splitMark_callee hcallee') hfree
  obtain ⟨rest, hargs⟩ := List.head?_eq_some_iff.1 hhead
  unfold isRecursive
  rw [hargs]
  simp [hcall, hmem]

theorem open?_eq_ok (h : open? functions call = .ok body) :
    inline functions call = .ok body ∧ ∀ b ∈ body, isRecursive call b = false := by
  unfold open? at h
  obtain ⟨found, hinline, h⟩ := Outcome.bind_eq_ok.1 h
  split at h
  · cases h
  · rename_i hnone
    obtain rfl := Outcome.pure_eq_ok.1 h
    exact ⟨hinline, fun b hb => Bool.eq_false_iff.2 (List.find?_eq_none.1 hnone b hb)⟩

/-- A call whose body calls a function that is being worked in is refused. -/
theorem open?_recursive {b : Command} (h : inline functions call = .ok body) (hb : b ∈ body)
    (hrec : isRecursive call b = true) :
    ∃ d ∈ body, open? functions call = d.refuse .callStackOverflow := by
  unfold open?
  rw [h]
  cases hfind : body.find? (isRecursive call) with
  | none => exact absurd hrec (List.find?_eq_none.1 hfind b hb)
  | some d =>
    refine ⟨d, List.mem_of_find?_eq_some hfind, ?_⟩
    simp only [bind, Except.bind, hfind]

/-- The commands that a guarded call brings in are guarded, one call deeper. -/
theorem open?_guarded (hkeeps : KeepsCallees functions) (hcall : call.name = ascii "CALL")
    (hguarded : Guarded functions call) (h : open? functions call = .ok body) {b : Command}
    (hb : b ∈ body) : Guarded functions b ∧ b.callers.length = call.callers.length + 1 := by
  obtain ⟨hinline, hsafe⟩ := open?_eq_ok h
  obtain ⟨f, hf, hcallee, hbody⟩ := inline_eq_ok hinline
  obtain ⟨c, -, hfrom⟩ := hbody b hb
  have hnew : f.name ∉ call.callers := hguarded.fresh hcall f.name hcallee
  refine ⟨⟨?_, ?_, ?_⟩, by rw [hfrom.callers, List.length_append, List.length_singleton]⟩
  · rw [hfrom.callers]
    refine List.nodup_append.2 ⟨hguarded.nodup, List.pairwise_singleton _ _, ?_⟩
    rintro name hname other hother rfl
    exact hnew (List.mem_singleton.1 hother ▸ hname)
  · intro name hname
    rw [hfrom.callers, List.mem_append, List.mem_singleton] at hname
    rcases hname with hname | rfl
    · exact hguarded.known name hname
    · exact List.mem_map_of_mem hf
  · intro hbcall name hname hmem
    have hrec := isRecursive_of_mem hkeeps hinline hb hbcall hname hmem
    rw [hsafe b hb] at hrec
    cases hrec

/-! ## The loop -/

/-- One turn of the loop: the first call gives way to the commands it stands for. No turn is left
when there is no call. -/
def turn (functions : List Function) : List Command → Option (Except Failure (List Command))
  | [] => none
  | c :: cmds =>
    if c.name = ascii "CALL" then some ((open? functions c).map (· ++ cmds))
    else (turn functions cmds).map (Except.map (c :: ·))

/-- Whether the loop comes from one list to another. -/
abbrev Run (functions : List Function) : List Command → List Command → Prop :=
  Relation.ReflTransGen fun now next => turn functions now = some (.ok next)

theorem turn_eq_ok (h : turn functions now = some (.ok next)) :
    ∃ before call body after, now = before ++ call :: after ∧ call.name = ascii "CALL" ∧
      open? functions call = .ok body ∧ next = before ++ (body ++ after) := by
  induction now generalizing next with
  | nil => cases h
  | cons c cmds ih =>
    unfold turn at h
    by_cases hcall : c.name = ascii "CALL"
    · rw [if_pos hcall] at h
      cases hopen : open? functions c with
      | error e =>
        rw [hopen] at h
        cases h
      | ok body =>
        rw [hopen] at h
        obtain rfl := Except.ok.inj (Option.some.inj h)
        exact ⟨[], c, body, cmds, rfl, hcall, hopen, rfl⟩
    · rw [if_neg hcall] at h
      obtain ⟨result, hresult, hnext⟩ := Option.map_eq_some_iff.1 h
      cases result with
      | error e => cases hnext
      | ok rest =>
        obtain rfl := Except.ok.inj hnext
        obtain ⟨before, call, body, after, rfl, hname, hopen, rfl⟩ := ih hresult
        exact ⟨c :: before, call, body, after, rfl, hname, hopen, rfl⟩

theorem turn_at_call {before after : List Command} (hbefore : ∀ c ∈ before, c.name ≠ ascii "CALL")
    (hcall : call.name = ascii "CALL") :
    turn functions (before ++ call :: after) =
      some ((open? functions call).map fun body => before ++ (body ++ after)) := by
  induction before with
  | nil => rw [List.nil_append, turn, if_pos hcall]; rfl
  | cons c before ih =>
    rw [List.cons_append, turn, if_neg (hbefore c List.mem_cons_self),
      ih fun d hd => hbefore d (List.mem_cons_of_mem _ hd)]
    cases open? functions call <;> rfl

theorem turn_finished (h : ∀ c ∈ cmds, c.name ≠ ascii "CALL") : turn functions cmds = none := by
  induction cmds with
  | nil => rfl
  | cons c cmds ih =>
    rw [turn, if_neg (h c List.mem_cons_self), ih fun d hd => h d (List.mem_cons_of_mem _ hd)]
    rfl

/-- What holds of every command is kept by a turn. -/
theorem turn_guarded (hkeeps : KeepsCallees functions) (hnow : ∀ c ∈ now, Guarded functions c)
    (h : turn functions now = some (.ok next)) : ∀ c ∈ next, Guarded functions c := by
  obtain ⟨before, call, body, after, rfl, hcall, hopen, rfl⟩ := turn_eq_ok h
  have hguarded := hnow call (by simp)
  intro c hc
  rw [List.mem_append, List.mem_append] at hc
  rcases hc with hc | hc | hc
  · exact hnow c (by simp [hc])
  · exact (open?_guarded hkeeps hcall hguarded hopen hc).1
  · exact hnow c (by simp [hc])

theorem run_guarded (hkeeps : KeepsCallees functions) (hcmds : ∀ c ∈ cmds, Guarded functions c)
    (h : Run functions cmds now) : ∀ c ∈ now, Guarded functions c := by
  induction h with
  | refl => exact hcmds
  | tail _ hturn ih => exact turn_guarded hkeeps ih hturn

/-! ## Expansion by depth -/

/-- What one command comes to if calls are worked in to a depth. -/
def expandOne (functions : List Function) (depth : Nat) (c : Command) :
    Except Failure (List Command) :=
  if c.name = ascii "CALL" then open? functions c >>= expandWithin functions depth else pure [c]

theorem expandWithin_cons (depth : Nat) (c : Command) (cmds : List Command) :
    expandWithin functions (depth + 1) (c :: cmds) =
      expandOne functions depth c >>= fun first =>
        expandWithin functions (depth + 1) cmds >>= fun rest => pure (first ++ rest) := by
  have heq : ∀ l, expandWithin functions (depth + 1) l =
      l.mapM (expandOne functions depth) >>= fun parts => pure parts.flatten := fun l => rfl
  simp only [heq, List.mapM_cons, bind_assoc, pure_bind, List.flatten_cons]

/-- What working in the calls of `cmds` to a depth comes to: the run of the loop over them, with
commands before and after them, reaches the same commands or the same failure. -/
def Follows (functions : List Function) (depth : Nat) (before cmds after : List Command) : Prop :=
  (∃ out, expandWithin functions depth cmds = .ok out ∧ (∀ c ∈ out, c.name ≠ ascii "CALL") ∧
    Run functions (before ++ (cmds ++ after)) (before ++ (out ++ after))) ∨
  ∃ e last, expandWithin functions depth cmds = .error e ∧
    Run functions (before ++ (cmds ++ after)) last ∧ turn functions last = some (.error e)

/-- The first command gives way to `first`, which holds no call, in a run of its own; the others
follow. -/
theorem follows_cons {depth : Nat} {before after : List Command} (first : List Command)
    (hfirst : expandOne functions depth c = .ok first)
    (hdone : ∀ d ∈ first, d.name ≠ ascii "CALL")
    (hrun : Run functions (before ++ c :: (cmds ++ after)) (before ++ (first ++ (cmds ++ after))))
    (hrest : Follows functions (depth + 1) (before ++ first) cmds after) :
    Follows functions (depth + 1) before (c :: cmds) after := by
  unfold Follows
  rw [expandWithin_cons, hfirst]
  rcases hrest with ⟨out, hout, hnone, hrest⟩ | ⟨e, last, he, hrest, hturn⟩
  · refine .inl ⟨first ++ out, ?_, ?_, ?_⟩
    · rw [hout]
      rfl
    · intro d hd
      rcases List.mem_append.1 hd with hd | hd
      · exact hdone d hd
      · exact hnone d hd
    · refine hrun.trans ?_
      simpa only [List.append_assoc] using hrest
  · refine .inr ⟨e, last, ?_, ?_, hturn⟩
    · rw [he]
      rfl
    · refine hrun.trans ?_
      simpa only [List.append_assoc] using hrest

/-- **The depth is never used up.** For guarded commands a depth of more than the functions that are
not yet among their callers follows the loop. -/
theorem follows_expandWithin (hkeeps : KeepsCallees functions) (depth : Nat) :
    ∀ (cmds before after : List Command), (∀ c ∈ before, c.name ≠ ascii "CALL") →
      (∀ c ∈ cmds, Guarded functions c ∧ functions.length < c.callers.length + depth) →
      Follows functions depth before cmds after := by
  induction depth with
  | zero =>
    intro cmds before after _ hcmds
    cases cmds with
    | nil => exact .inl ⟨[], rfl, by simp, .refl⟩
    | cons c cmds =>
      obtain ⟨hguarded, hlt⟩ := hcmds c List.mem_cons_self
      have hle := hguarded.length_callers
      omega
  | succ depth ihDepth =>
    intro cmds
    induction cmds with
    | nil =>
      intro before after _ _
      exact .inl ⟨[], rfl, by simp, .refl⟩
    | cons c cmds ih =>
      intro before after hbefore hcmds
      obtain ⟨hguarded, hlt⟩ := hcmds c List.mem_cons_self
      have hothers := fun d hd => hcmds d (List.mem_cons_of_mem c hd)
      by_cases hcall : c.name = ascii "CALL"
      · have hturn : turn functions (before ++ c :: (cmds ++ after)) =
            some ((open? functions c).map fun body => before ++ (body ++ (cmds ++ after))) :=
          turn_at_call hbefore hcall
        cases hopen : open? functions c with
        | error e =>
          refine .inr ⟨e, _, ?_, .refl, ?_⟩
          · rw [expandWithin_cons, expandOne, if_pos hcall, hopen]
            rfl
          · rw [List.cons_append, hturn, hopen]
            rfl
        | ok body =>
          rw [hopen] at hturn
          -- the body is one call deeper, so the smaller depth still covers it
          have hbody : ∀ b ∈ body, Guarded functions b ∧
              functions.length < b.callers.length + depth := by
            intro b hb
            obtain ⟨hb, hlen⟩ := open?_guarded hkeeps hcall hguarded hopen hb
            exact ⟨hb, by omega⟩
          rcases ihDepth body before (cmds ++ after) hbefore hbody with
            ⟨out, hout, hnone, hrun⟩ | ⟨e, last, he, hrun, hlast⟩
          · have hbefore' : ∀ d ∈ before ++ out, d.name ≠ ascii "CALL" := by
              intro d hd
              rcases List.mem_append.1 hd with hd | hd
              · exact hbefore d hd
              · exact hnone d hd
            refine follows_cons out ?_ hnone (hrun.head hturn)
              (ih (before ++ out) after hbefore' hothers)
            rw [expandOne, if_pos hcall, hopen]
            exact hout
          · refine .inr ⟨e, last, ?_, ?_, hlast⟩
            · have hone : expandOne functions depth c = .error e := by
                rw [expandOne, if_pos hcall, hopen]
                exact he
              rw [expandWithin_cons, hone]
              rfl
            · rw [List.cons_append]
              exact hrun.head hturn
      · have hbefore' : ∀ d ∈ before ++ [c], d.name ≠ ascii "CALL" := by
          intro d hd
          rcases List.mem_append.1 hd with hd | hd
          · exact hbefore d hd
          · rwa [List.mem_singleton.1 hd]
        refine follows_cons [c] ?_ ?_ .refl (ih (before ++ [c]) after hbefore' hothers)
        · rw [expandOne, if_neg hcall]
          rfl
        · intro d hd
          rwa [List.mem_singleton.1 hd]

/-! ## Expansion ends -/

/-- **Expansion ends.** For functions whose calls keep their names, the loop that works in the calls
of commands outside of functions has no infinite run. It ends with the list that `expand` gives, or
with the failure that `expand` gives. At every turn the callers of each command are distinct and a
call calls none of them, because a body that holds such a call is refused. -/
theorem expand_ends (functions : List Function) (cmds : List Command)
    (hkeeps : KeepsCallees functions) (hcmds : ∀ c ∈ cmds, c.callers = []) :
    Acc (fun next now => turn functions now = some (.ok next)) cmds ∧
    ((∃ last, Run functions cmds last ∧ turn functions last = none ∧
        expand functions cmds = .ok (renumber last)) ∨
      ∃ last e, Run functions cmds last ∧ turn functions last = some (.error e) ∧
        expand functions cmds = .error e) ∧
    ∀ now, Run functions cmds now → ∀ c ∈ now, c.callers.Nodup ∧
      (c.name = ascii "CALL" →
        (∀ name, callee? c.text = some name → name ∉ c.callers) ∧
        ∀ body, inline functions c = .ok body → ∀ b ∈ body, b.name = ascii "CALL" →
          ∀ name, callee? b.text = some name → name ∈ b.callers →
            ∃ d ∈ body, open? functions c = d.refuse .callStackOverflow) := by
  have hstart : ∀ c ∈ cmds, Guarded functions c := by
    intro c hc
    have hnone := hcmds c hc
    refine ⟨?_, ?_, ?_⟩
    · rw [hnone]
      exact List.nodup_nil
    · rw [hnone]
      exact fun _ hname => absurd hname List.not_mem_nil
    · rw [hnone]
      exact fun _ _ _ => List.not_mem_nil
  have hfollows : Follows functions (maxDepth functions) [] cmds [] := by
    refine follows_expandWithin hkeeps _ cmds [] [] (by simp) fun c hc => ⟨hstart c hc, ?_⟩
    unfold maxDepth
    omega
  simp only [Follows, List.nil_append, List.append_nil] at hfollows
  refine ⟨?_, ?_, ?_⟩
  · rcases hfollows with ⟨out, -, hnone, hrun⟩ | ⟨e, last, -, hrun, hturn⟩
    · exact Loop.acc_of_run hrun (by simp [turn_finished hnone])
    · exact Loop.acc_of_run hrun (by simp [hturn])
  · rcases hfollows with ⟨out, hout, hnone, hrun⟩ | ⟨e, last, he, hrun, hturn⟩
    · refine .inl ⟨out, hrun, turn_finished hnone, ?_⟩
      rw [expand, hout]
      rfl
    · refine .inr ⟨last, e, hrun, hturn, ?_⟩
      rw [expand, he]
      rfl
  · intro now hrun c hc
    have hguarded := run_guarded hkeeps hstart hrun c hc
    refine ⟨hguarded.nodup, fun hcall => ⟨hguarded.fresh hcall, ?_⟩⟩
    intro body hbody b hb hbcall name hname hmem
    exact open?_recursive hbody hb (isRecursive_of_mem hkeeps hbody hb hbcall hname hmem)

/-- Two functions that call each other. -/
def partners : List Function :=
  [⟨ascii "F", [ascii "P"], [Command.ofLine (ascii "Call G(P)")]⟩,
   ⟨ascii "G", [ascii "Q"], [Command.ofLine (ascii "Call F(Q)")]⟩]

theorem expand_ends_partners :
    KeepsCallees partners ∧
      expand partners [Command.ofLine (ascii "Call F(A)")] = .error
        ⟨.callStackOverflow, { Command.ofLine (ascii "Call F(Q)") with
          args := [ascii "F", ascii "(A)"], callers := [ascii "F", ascii "G"] }⟩ ∧
      Acc (fun next now => turn partners now = some (.ok next))
          [Command.ofLine (ascii "Call F(A)")] :=
  ⟨by decide, rfl, (expand_ends partners _ (by decide) (by decide)).1⟩

/-! ## Calls that lose their names -/

/-- The commands of a function `F` that calls itself. The name of its first parameter is its own. -/
def swapping : List Command :=
  ["Function H(P)", "EndFunction", "Function F(F,G)", "Call H(F)", "Call F(G,F)", "EndFunction",
    "Call F(A,)"].map fun line => Command.ofLine (ascii line)

def swappingFunctions : List Function :=
  [⟨ascii "H", [ascii "P"], []⟩,
   ⟨ascii "F", [ascii "F", ascii "G"],
    [Command.ofLine (ascii "Call H(F)"), Command.ofLine (ascii "Call F(G,F)")]⟩]

/-- The commands that the call of `F` with the given arguments for its parameters brings in. -/
def swappingBody (callers : List Bytes) (first second : Bytes) : List Command :=
  [{ Command.ofLine (ascii "Call H(F)") with
      args := [ascii "H", ascii "(" ++ first ++ ascii ")"], callers := callers },
   { Command.ofLine (ascii "Call F(G,F)") with
      args := [first, ascii "(" ++ second ++ ascii "," ++ first ++ ascii ")"], callers := callers }]

/-- The guard does not see that `F` is worked in inside its own body: the loop goes on, with `F`
twice among the callers, and ends for another reason. -/
theorem expand_swapping :
    (Function.extract swapping).result =
        .ok (swappingFunctions, [Command.ofLine (ascii "Call F(A,)")]) ∧
      Run swappingFunctions [Command.ofLine (ascii "Call F(A,)")]
        (swappingBody [ascii "F", ascii "F"] [] (ascii "A")) ∧
      (∀ c ∈ swappingBody [ascii "F", ascii "F"] [] (ascii "A"), ¬ c.callers.Nodup) ∧
      expand swappingFunctions [Command.ofLine (ascii "Call F(A,)")] = .error
        ⟨.argumentCountMismatch, { Command.ofLine (ascii "Call H(F)") with
          args := [ascii "H", ascii "()"], callers := [ascii "F", ascii "F"] }⟩ := by
  have hfirst : turn swappingFunctions [Command.ofLine (ascii "Call F(A,)")] =
      some (.ok (swappingBody [ascii "F"] (ascii "A") [])) := rfl
  have hsecond : turn swappingFunctions (swappingBody [ascii "F"] (ascii "A") []) =
      some (.ok ((swappingBody [ascii "F"] (ascii "A") []).drop 1)) := rfl
  have hthird : turn swappingFunctions ((swappingBody [ascii "F"] (ascii "A") []).drop 1) =
      some (.ok (swappingBody [ascii "F", ascii "F"] [] (ascii "A"))) := rfl
  refine ⟨rfl, ?_, by decide, rfl⟩
  exact .head hfirst (.head hsecond (.single hthird))

/-- A function that only calls itself, with the name of its first parameter its own. -/
def endless : List Function :=
  [⟨ascii "F", [ascii "F", ascii "G"], [Command.ofLine (ascii "Call F(G,F)")]⟩]

/-- Its call of itself after some turns. -/
def endlessCall (first second : Bytes) (callers : List Bytes) : Command :=
  { Command.ofLine (ascii "Call F(G,F)") with
    args := [first, ascii "(" ++ second ++ ascii "," ++ first ++ ascii ")"], callers := callers }

/-- A state that the loop does not leave. -/
def Swaps (now : List Command) : Prop :=
  ∃ callers, (∀ name ∈ callers, name = ascii "F") ∧
    (now = [endlessCall (ascii "A") (ascii "B") callers] ∨
      now = [endlessCall (ascii "B") (ascii "A") callers])

theorem isRecursive_endlessCall {first second : Bytes} {callers : List Bytes}
    (hne : first ≠ second) (hfree : second ∉ callers ++ [ascii "F"]) :
    isRecursive (endlessCall first second callers)
      (endlessCall second first (callers ++ [ascii "F"])) = false := by
  unfold isRecursive endlessCall
  rw [List.mem_append, not_or] at hfree
  simp [hne, hfree]

theorem turn_endlessCall {first second : Bytes} {callers : List Bytes}
    (hinline : inline endless (endlessCall first second callers) =
      .ok [endlessCall second first (callers ++ [ascii "F"])])
    (hne : first ≠ second) (hfree : second ∉ callers ++ [ascii "F"]) :
    turn endless [endlessCall first second callers] =
      some (.ok [endlessCall second first (callers ++ [ascii "F"])]) := by
  have hunseen := isRecursive_endlessCall hne hfree
  have hopen : open? endless (endlessCall first second callers) =
      .ok [endlessCall second first (callers ++ [ascii "F"])] := by
    unfold open?
    rw [hinline]
    simp only [bind, Except.bind, List.find?_cons, hunseen, List.find?_nil]
    rfl
  have hcall : (endlessCall first second callers).name = ascii "CALL" := rfl
  rw [turn, if_pos hcall, hopen]
  rfl

theorem turn_swaps (h : Swaps now) : ∃ next, turn endless now = some (.ok next) ∧ Swaps next := by
  obtain ⟨callers, hcallers, hnow⟩ := h
  have hcallers' : ∀ name ∈ callers ++ [ascii "F"], name = ascii "F" := by
    intro name hname
    rcases List.mem_append.1 hname with hname | hname
    · exact hcallers name hname
    · exact List.mem_singleton.1 hname
  rcases hnow with rfl | rfl
  · have hfree : ascii "B" ∉ callers ++ [ascii "F"] :=
      fun hmem => absurd (hcallers' _ hmem) (by decide)
    exact ⟨_, turn_endlessCall rfl (by decide) hfree, _, hcallers', .inr rfl⟩
  · have hfree : ascii "A" ∉ callers ++ [ascii "F"] :=
      fun hmem => absurd (hcallers' _ hmem) (by decide)
    exact ⟨_, turn_endlessCall rfl (by decide) hfree, _, hcallers', .inl rfl⟩

/-- Without the condition the loop need not end: the two arguments change places in every turn, and
the guard compares them, in place of the name, with the functions being worked in. -/
theorem not_acc_endless :
    ¬ Acc (fun next now => turn endless now = some (.ok next))
      [Command.ofLine (ascii "Call F(A,B)")] := by
  have hnone : ∀ now, Acc (fun next now => turn endless now = some (.ok next)) now →
      ¬ Swaps now := by
    intro now hacc
    induction hacc with
    | intro now _ ih =>
      intro hswaps
      obtain ⟨next, hturn, hnext⟩ := turn_swaps hswaps
      exact ih next hturn hnext
  have hfirst : turn endless [Command.ofLine (ascii "Call F(A,B)")] =
      some (.ok [endlessCall (ascii "A") (ascii "B") [ascii "F"]]) := rfl
  intro hacc
  exact hnone _ (hacc.inv hfirst) ⟨[ascii "F"], by simp, .inl rfl⟩

end Call

end CheatScript
