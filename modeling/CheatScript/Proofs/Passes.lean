import CheatScript.Compile
import CheatScript.Proofs.CallExpansion
import CheatScript.Proofs.IncludeExpansion

/-!
# Proofs: what the passes of compilation keep

Until rendering, commands are only read, put in another place, given other arguments, or brought in
by an Include or a Call. So a property that depends on the name, the line and the origin of a
command, and that includes and calls keep, holds of every command the passes give, and of every
command they blame.
-/

namespace CheatScript

/-- Whether a property of commands passes from an Include to the commands it brings in. -/
def IncludesKeep (files : FileTree) (S : Command → Prop) : Prop :=
  ∀ {c : Command} {path content : Bytes}, S c → Include.open? files c = .ok (path, content) →
    ∀ d ∈ Include.brought c path content, S d

/-- A property of commands that the passes keep. -/
structure Kept (files : FileTree) (S : Command → Prop) : Prop where
  same : ∀ {c d : Command}, S c → d.name = c.name → d.text = c.text → d.trace = c.trace → S d
  included : IncludesKeep files S
  called : ∀ {own call : Command}, S own → S call → S (own.broughtBy call)

variable {files : FileTree} {S : Command → Prop} {cmds : List Command}

/-! ## Includes -/

namespace Include

theorem expandList_yields {nested : List Command → Bool → Stage Expansion}
    (hS : IncludesKeep files S) (hnested : ∀ cmds inside, (∀ c ∈ cmds, S c) →
      Yields (fun out => ∀ c ∈ out.1, S c) S (nested cmds inside).result)
    (hcmds : ∀ c ∈ cmds, S c) (inside : Bool) :
    Yields (fun out => ∀ c ∈ out.1, S c) S (expandList files nested cmds inside).result := by
  induction cmds generalizing inside with
  | nil => exact .ok hcmds
  | cons c cmds ih =>
    obtain ⟨hc, hrest⟩ := List.forall_mem_cons.1 hcmds
    -- the three cases in which the command stays in its place
    have hkept : ∀ inside', Yields (fun out => ∀ c ∈ out.1, S c) S
        (expandList files nested cmds inside' >>= fun x =>
          (pure (c :: x.1, x.2) : Stage Expansion)).result := by
      intro inside'
      refine (ih hrest inside').bind_stage fun out hout => ?_
      exact .ok (List.forall_mem_cons.2 ⟨hc, hout⟩)
    unfold expandList
    split
    · exact hkept true
    · split
      · exact hkept false
      · split
        · have hopen : Yields (fun file => open? files c = .ok file) S (c.blame (open? files c)) :=
            .blame hc fun _ h => h
          refine Yields.bind_stage hopen fun file hfile => ?_
          refine Yields.note ?_
          refine (hnested _ inside (hS hc hfile)).bind_stage fun included hincluded => ?_
          refine (ih hrest _).bind_stage fun rest hout => ?_
          exact .ok (List.forall_mem_append.2 ⟨hincluded, hout⟩)
        · exact hkept inside

theorem expandWithin_yields (hS : IncludesKeep files S) (depth : Nat) (hcmds : ∀ c ∈ cmds, S c)
    (inside : Bool) :
    Yields (fun out => ∀ c ∈ out.1, S c) S (expandWithin files depth cmds inside).result := by
  induction depth generalizing cmds inside with
  | zero => exact expandList_yields hS (fun _ _ h => .ok h) hcmds inside
  | succ depth ih => exact expandList_yields hS (fun _ inside h => ih h inside) hcmds inside

theorem expand_yields (hS : IncludesKeep files S) (hcmds : ∀ c ∈ cmds, S c) :
    YieldsAll S (expand files cmds).result := by
  refine (expandWithin_yields hS _ hcmds false).bind_stage fun out hout => ?_
  exact .ok hout

end Include

/-! ## Functions -/

namespace Function

/-- Whether the commands in the bodies of functions have a property. -/
def BodiesAre (S : Command → Prop) (functions : List Function) : Prop :=
  ∀ f ∈ functions, ∀ c ∈ f.body, S c

theorem start_body {functions : List Function} {c : Command} {f : Function}
    (h : start functions c cmds = .ok f) : f.body = [] := by
  unfold start at h
  split at h
  · obtain ⟨g, hg, h⟩ := Outcome.bind_eq_ok.1 h
    split at h
    · cases h
    · obtain rfl := Outcome.pure_eq_ok.1 h
      unfold ofHeader at hg
      split at hg
      · cases hg
      · split at hg
        · cases hg
        · obtain rfl := Except.ok.inj hg
          rfl
  · cases h

theorem extractFrom_yields {functions : List Function} {current : Option Function}
    (hfunctions : BodiesAre S functions) (hcurrent : ∀ f ∈ current, ∀ c ∈ f.body, S c)
    (hcmds : ∀ c ∈ cmds, S c) :
    Yields (fun out => BodiesAre S out.1 ∧ ∀ c ∈ out.2, S c) S
      (extractFrom functions current cmds).result := by
  induction cmds generalizing functions current with
  | nil => cases current <;> exact .ok ⟨hfunctions, hcmds⟩
  | cons c cmds ih =>
    obtain ⟨hc, hrest⟩ := List.forall_mem_cons.1 hcmds
    cases current with
    | none =>
      unfold extractFrom
      split
      · exact .refuse hc
      · split
        · have hstart : Yields (fun f => f.body = []) S (c.blame (start functions c cmds)) :=
            .blame hc fun _ h => start_body h
          refine Yields.bind_stage hstart fun f hbody => ih hfunctions ?_ hrest
          rintro g ⟨⟩
          rw [hbody]
          simp
        · refine (ih hfunctions (by simp) hrest).bind_stage fun out hout => ?_
          exact .ok ⟨hout.1, List.forall_mem_cons.2 ⟨hc, hout.2⟩⟩
    | some f =>
      have hf := hcurrent f rfl
      unfold extractFrom
      split
      · refine Yields.note (ih ?_ (by simp) hrest)
        exact List.forall_mem_append.2 ⟨hfunctions, List.forall_mem_singleton.2 hf⟩
      · split
        · exact .refuse hc
        · split
          · exact .refuse hc
          · refine ih hfunctions ?_ hrest
            rintro g ⟨⟩
            exact List.forall_mem_append.2 ⟨hf, List.forall_mem_singleton.2 hc⟩

theorem extract_yields (hcmds : ∀ c ∈ cmds, S c) :
    Yields (fun out => BodiesAre S out.1 ∧ ∀ c ∈ out.2, S c) S (extract cmds).result :=
  extractFrom_yields (by simp [BodiesAre]) (by simp) hcmds

end Function

/-! ## Definitions -/

namespace DefinitionTable

theorem substitute_yields (t : DefinitionTable) {c : Command}
    (h : ∀ args, S { c with args := args }) : Yields S S (t.substitute c) := by
  unfold substitute
  split
  · exact .refuse (h c.args)
  · exact .ok (h _)

theorem substituteAll_yields (t : DefinitionTable) (hS : Kept files S) (hcmds : ∀ c ∈ cmds, S c) :
    YieldsAll S (t.substituteAll cmds) :=
  .mapM fun c hc => t.substitute_yields fun _ => hS.same (hcmds c hc) rfl rfl rfl

theorem collect_yields (hcmds : ∀ c ∈ cmds, S c) :
    Yields (fun out => ∀ c ∈ out.2, S c) S (collect cmds) := by
  have hsets : Yields (fun sets => ∀ d ∈ sets, True) S
      ((cmds.filter (·.name == ascii "SET")).mapM ofCommand) := by
    refine .mapM fun c hc => ?_
    unfold ofCommand
    split
    · exact .ok trivial
    · exact .refuse (hcmds c (List.mem_of_mem_filter hc))
  refine hsets.bind fun sets _ => ?_
  exact .ok fun c hc => hcmds c (List.mem_of_mem_filter hc)

end DefinitionTable

/-! ## Calls -/

namespace Call

variable {functions : List Function} {call : Command}

theorem bodyOf_kept {f : Function} (hS : Kept files S) (hbodies : Function.BodiesAre S functions)
    (hf : f ∈ functions) (hcall : S call) : ∀ c ∈ bodyOf f call, S c := by
  intro c hc
  obtain ⟨own, hown, rfl⟩ := List.mem_map.1 hc
  exact hS.same (hS.called (hbodies f hf own hown) hcall) rfl rfl rfl

theorem substituteList_yields (t : DefinitionTable) {c : Command} (hS : Kept files S) (hc : S c) :
    Yields S S (substituteList t c) := by
  unfold substituteList
  split
  · split
    · next callee list rest hargs =>
      have hlist : Yields (fun _ => True) S (c.blame (listArguments list)) :=
        .blame hc fun _ _ => trivial
      refine hlist.bind fun args _ => ?_
      simp only
      split
      · exact .ok (hS.same hc rfl rfl rfl)
      · exact .refuse hc
    · exact .ok hc
  · exact .ok hc

theorem inline_yields (hS : Kept files S) (hbodies : Function.BodiesAre S functions)
    (hcall : S call) : YieldsAll S (inline functions call) := by
  have hresolve : Yields (fun r => r.1 ∈ functions) S (call.blame (resolve functions call)) :=
    .blame hcall fun _ h => (resolve_eq_ok h).1
  refine hresolve.bind fun r hf => ?_
  have hbody := bodyOf_kept hS hbodies hf hcall
  simp only
  split
  · exact .ok hbody
  · refine (DefinitionTable.substituteAll_yields _ hS hbody).bind fun body hbody => ?_
    exact .mapM fun c hc => substituteList_yields _ hS (hbody c hc)

theorem open?_yields (hS : Kept files S) (hbodies : Function.BodiesAre S functions)
    (hcall : S call) : YieldsAll S (open? functions call) := by
  refine (inline_yields hS hbodies hcall).bind fun body hbody => ?_
  split
  · next c hfind => exact .refuse (hbody c (List.mem_of_find?_eq_some hfind))
  · exact .ok hbody

theorem expandWithin_yields (hS : Kept files S) (hbodies : Function.BodiesAre S functions)
    (depth : Nat) (hcmds : ∀ c ∈ cmds, S c) : YieldsAll S (expandWithin functions depth cmds) := by
  induction depth generalizing cmds with
  | zero =>
    unfold expandWithin
    split
    · next c hfind => exact .refuse (hcmds c (List.mem_of_find?_eq_some hfind))
    · exact .ok hcmds
  | succ depth ih =>
    have hparts : Yields (fun parts => ∀ part ∈ parts, ∀ c ∈ part, S c) S (cmds.mapM fun c =>
        if c.name = ascii "CALL" then do
          let body ← open? functions c
          expandWithin functions depth body
        else return [c]) := by
      refine .mapM fun c hc => ?_
      split
      · exact (open?_yields hS hbodies (hcmds c hc)).bind fun body hbody => ih hbody
      · exact .ok (List.forall_mem_singleton.2 (hcmds c hc))
    refine hparts.bind fun parts hparts => .ok fun c hc => ?_
    obtain ⟨part, hpart, hc⟩ := List.mem_flatten.1 hc
    exact hparts part hpart c hc

theorem renumber_kept (hS : Kept files S) (hcmds : ∀ c ∈ cmds, S c) : ∀ c ∈ renumber cmds, S c := by
  intro c hc
  obtain ⟨⟨own, i⟩, hown, rfl⟩ := List.mem_map.1 hc
  exact hS.same (hcmds own (List.fst_mem_of_mem_zipIdx hown)) rfl rfl rfl

theorem expand_yields (hS : Kept files S) (hbodies : Function.BodiesAre S functions)
    (hcmds : ∀ c ∈ cmds, S c) : YieldsAll S (expand functions cmds) :=
  (expandWithin_yields hS hbodies _ hcmds).bind fun _ hout => .ok (renumber_kept hS hout)

end Call

/-! ## The flat list -/

namespace Compile

theorem defineAll_yields (hS : Kept files S) (hcmds : ∀ c ∈ cmds, S c) :
    Yields (fun out => ∀ c ∈ out.2, S c) S (defineAll cmds).result := by
  refine Yields.bind_stage (DefinitionTable.collect_yields hcmds) fun collected hrest => ?_
  refine Yields.note ?_
  refine Yields.bind_stage (DefinitionTable.substituteAll_yields _ hS hrest) fun out hout => ?_
  exact .ok hout

/-- A property that the passes keep holds of the flat list of commands, or of the command blamed. -/
theorem flatten_yields (hS : Kept files S) (hcmds : ∀ c ∈ cmds, S c) :
    Yields (fun out => ∀ c ∈ out.2, S c) S (flatten files cmds).result := by
  refine (Include.expand_yields hS.included hcmds).bind_stage fun included hincluded => ?_
  refine (Function.extract_yields hincluded).bind_stage fun extracted hextracted => ?_
  refine Yields.bind_stage (Call.expand_yields hS hextracted.1 hextracted.2) fun called hcalled =>
    ?_
  refine (defineAll_yields hS hcalled).bind_stage fun defined hdefined => ?_
  exact Yields.note (.ok hdefined)

end Compile

end CheatScript
