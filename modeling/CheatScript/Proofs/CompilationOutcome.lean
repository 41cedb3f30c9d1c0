import CheatScript.Compile
import CheatScript.Proofs.ConditionDrafts
import CheatScript.Proofs.MacroExpansion

/-!
# Proofs: what a compilation comes to

A compilation as a relation, pass by pass: calls are worked in by the loop over them, without a
bound on its rounds, and conditions are drafts in the type asked for until every `nn` is filled in.
Calls that bring in calls for ever come to nothing. Where the relation gives codes, `Compile.lines`
gives them, and the other way round; a failure of the relation is the failure of the pass that
stopped, at any depth of calls.
-/

namespace CheatScript

open Outcome

namespace Compile

variable {files : FileTree} {cmds : List Command}

/-- What the flat list of commands of a script comes to. -/
def FlatComes (files : FileTree) (cmds : List Command) :
    Except Failure (DefinitionTable × List Command) → Prop :=
  Then (· = (Include.expand files cmds).result) fun included =>
  Then (· = (Function.extract included).result) fun extracted =>
  Then (Call.Comes extracted.1 extracted.2) fun called =>
  fun r => r = (defineAll called).result

/-- The text of drafts with every `nn` filled in. -/
def draftText (form : OutputForm) (drafts : List Draft) : Bytes :=
  let raw := joinTexts (Draft.texts drafts)
  if form.patches then Patch.ofCodes raw else raw

/-- What compiling a list of commands in a form comes to. -/
def CodeComes [TextEncoder] (files : FileTree) (form : OutputForm) (cmds : List Command) :
    Except Failure Bytes → Prop :=
  Then (FlatComes files cmds) fun flat =>
  Then (· = (Draft.render form.conditions flat.1 flat.2).result) fun drafts =>
  Then (Draft.Packs form.conditions drafts) fun packed =>
  fun r => r = .ok (draftText form packed)

/-- What compiling the lines of a script comes to. -/
def Comes [TextEncoder] (files : FileTree) (form : OutputForm) (path : Bytes)
    (source : List Bytes) : Except Failure Bytes → Prop :=
  CodeComes files form (Source.commands path (Source.cleanUp source))

/-- At most 255 scopes of a script are open at once, those of clauses included. -/
def FewOpen [TextEncoder] (files : FileTree) (cmds : List Command) : Prop :=
  ∀ t flat pieces nested, (flatten files cmds).result = .ok (t, flat) →
    (render t flat).result = .ok pieces → Scope.nest pieces = .ok nested → Scope.Bounded 0 nested

/-- A script with at most 255 pieces opens at most 255 scopes. -/
theorem fewOpen_of_length [TextEncoder] {n : Nat}
    (h : ((flatten files cmds).result.toOption.bind fun flat =>
      (render flat.1 flat.2).result.toOption.bind fun pieces =>
        (Scope.nest pieces).toOption.map List.length) = some n) (hn : n ≤ 255) :
    FewOpen files cmds := by
  intro t flat pieces nested hflatten hrender hnest l hl
  rw [hflatten, Except.toOption, Option.bind_some, hrender, Except.toOption, Option.bind_some,
    hnest] at h
  obtain rfl := Option.some.inj h
  have hdepth := Scope.depthAfter_le 0 l
  have hlength := hl.length_le
  rw [Scope.maxLines]
  omega

/-- The loop over the calls of a script never ends. -/
def EndlessCalls (files : FileTree) (cmds : List Command) : Prop :=
  ∃ included functions main, (Include.expand files cmds).result = .ok included ∧
    (Function.extract included).result = .ok (functions, main) ∧ ∀ r, ¬ Call.Comes functions main r

theorem FlatComes.unique {r r' : Except Failure (DefinitionTable × List Command)}
    (h : FlatComes files cmds r) (h' : FlatComes files cmds r') : r = r' := by
  refine Then.unique (fun _ _ hx hy => hx.trans hy.symm) (fun included => ?_) h h'
  refine fun _ _ => Then.unique (fun _ _ hx hy => hx.trans hy.symm) fun extracted => ?_
  refine fun _ _ => Then.unique (fun _ _ => Call.Comes.unique) fun called => ?_
  exact fun _ _ hx hy => hx.trans hy.symm

theorem flatComes_eq {x : Except Failure (DefinitionTable × List Command)}
    (h : FlatComes files cmds x) : FlatComes files cmds = (· = x) :=
  funext fun _ => propext ⟨fun hr => hr.unique h, fun hr => hr ▸ h⟩

/-- The flat list that the relation comes to is the one that `flatten` gives. -/
theorem flatComes_ok_iff {flat : DefinitionTable × List Command} :
    FlatComes files cmds (.ok flat) ↔ (flatten files cmds).result = .ok flat := by
  simp only [FlatComes, then_ok_iff, Call.comes_ok_iff, flatten, Stage.bind_result_eq_ok]
  constructor
  · rintro ⟨included, hinclude, ⟨functions, main⟩, hextract, called, hcall, hdefine⟩
    exact ⟨included, hinclude.symm, (functions, main), hextract.symm, called, hcall, flat,
      hdefine.symm, (), rfl, rfl⟩
  · rintro ⟨included, hinclude, ⟨functions, main⟩, hextract, called, hcall, defined, hdefine, -,
      -, hflat⟩
    refine ⟨included, hinclude.symm, (functions, main), hextract.symm, called, hcall, ?_⟩
    rw [hdefine]
    exact hflat.symm

theorem EndlessCalls.not_comes (h : EndlessCalls files cmds)
    (r : Except Failure (DefinitionTable × List Command)) : ¬ FlatComes files cmds r := by
  obtain ⟨included, functions, main, hinclude, hextract, hnone⟩ := h
  simp only [FlatComes, then_eq_ok hinclude, then_eq_ok hextract]
  rintro (⟨e, he, -⟩ | ⟨called, hcalled, -⟩)
  · exact hnone _ he
  · exact hnone _ hcalled

/-! ### A script with endless calls -/

/-- A script with a function that only calls itself, with the name of its first parameter its
own. -/
def swappingLines : List Bytes :=
  ["Function F(F,G)", "Call F(G,F)", "EndFunction", "Call F(A,B)"].map ascii

def swappingFunction : Function where
  name := ascii "F"
  parameters := [ascii "F", ascii "G"]
  body := [{ Command.ofLine (ascii "Call F(G,F)") with
    trace := [⟨ascii "main.txt", ascii "Call F(G,F)", 1⟩] }]

def swappingMain : List Command :=
  [{ Command.ofLine (ascii "Call F(A,B)") with
    trace := [⟨ascii "main.txt", ascii "Call F(A,B)", 3⟩] }]

/-- The call of the function by itself after some rounds. -/
def swappedCall (first second : Bytes) (callers : List Bytes) (trace : List Frame) : Command :=
  { Call.endlessCall first second callers with trace := trace }

theorem round_swappedCall {first second : Bytes} {callers : List Bytes} {trace longer : List Frame}
    (hinline : Call.inline [swappingFunction] (swappedCall first second callers trace) =
      .ok [swappedCall second first (callers ++ [ascii "F"]) longer])
    (hne : first ≠ second) (hfree : second ∉ callers ++ [ascii "F"]) :
    Call.round [swappingFunction] ⟨0, [swappedCall first second callers trace]⟩ =
      some (.ok ⟨0, [swappedCall second first (callers ++ [ascii "F"]) longer]⟩) := by
  have hunseen : Call.isRecursive (swappedCall first second callers trace)
      (swappedCall second first (callers ++ [ascii "F"]) longer) = false :=
    Call.isRecursive_endlessCall hne hfree
  have hopen : Call.open? [swappingFunction] (swappedCall first second callers trace) =
      .ok [swappedCall second first (callers ++ [ascii "F"]) longer] := by
    unfold Call.open?
    rw [hinline]
    simp only [bind, Except.bind, List.find?_cons, hunseen, List.find?_nil]
    rfl
  have hround : Call.round [swappingFunction] ⟨0, [swappedCall first second callers trace]⟩ =
      some ((Call.open? [swappingFunction] (swappedCall first second callers trace)).map
        fun body => ⟨0, renumber (body ++ [])⟩) := rfl
  rw [hround, hopen]
  rfl

/-- A state that the loop over the calls of the script does not leave. -/
def Swapping (s : Call.Rewriting) : Prop :=
  s = ⟨0, renumber swappingMain⟩ ∨
  ∃ callers trace, (∀ name ∈ callers, name = ascii "F") ∧
    (s = ⟨0, [swappedCall (ascii "A") (ascii "B") callers trace]⟩ ∨
      s = ⟨0, [swappedCall (ascii "B") (ascii "A") callers trace]⟩)

theorem round_swapping {s : Call.Rewriting} (h : Swapping s) :
    ∃ next, Call.round [swappingFunction] s = some (.ok next) ∧ Swapping next := by
  rcases h with rfl | ⟨callers, trace, hcallers, hs⟩
  · exact ⟨_, rfl, .inr ⟨[ascii "F"], _, by simp, .inl rfl⟩⟩
  · have hcallers' : ∀ name ∈ callers ++ [ascii "F"], name = ascii "F" :=
      List.forall_mem_append.2 ⟨hcallers, by simp⟩
    rcases hs with rfl | rfl
    · have hfree : ascii "B" ∉ callers ++ [ascii "F"] :=
        fun hmem => absurd (hcallers' _ hmem) (by decide)
      exact ⟨_, round_swappedCall rfl (by decide) hfree, .inr ⟨_, _, hcallers', .inr rfl⟩⟩
    · have hfree : ascii "A" ∉ callers ++ [ascii "F"] :=
        fun hmem => absurd (hcallers' _ hmem) (by decide)
      exact ⟨_, round_swappedCall rfl (by decide) hfree, .inr ⟨_, _, hcallers', .inl rfl⟩⟩

/-- The arguments of the call change places in every round, so it is replaced for ever. -/
theorem endlessCalls_swapping :
    EndlessCalls ⟨[], [], []⟩ (Source.commands (ascii "main.txt") swappingLines) := by
  refine ⟨_, [swappingFunction], swappingMain, rfl, rfl, ?_⟩
  rintro r ⟨x, hx, -⟩
  exact Loop.not_ends (fun s => round_swapping) (.inl rfl) x hx

/-! ### Codes and failures -/

/-- Flattening comes to something, unless the calls of the script are endless. -/
theorem flatComes_or_endless (files : FileTree) (cmds : List Command) :
    EndlessCalls files cmds ∨ ∃ x, FlatComes files cmds x := by
  simp only [FlatComes]
  cases hinclude : (Include.expand files cmds).result with
  | error f => exact .inr ⟨_, (then_eq_error rfl _).2 rfl⟩
  | ok included =>
    simp only [then_eq_ok rfl]
    cases hextract : (Function.extract included).result with
    | error f => exact .inr ⟨_, (then_eq_error rfl _).2 rfl⟩
    | ok extracted =>
      simp only [then_eq_ok rfl]
      by_cases hcalls : ∃ r, Call.Comes extracted.1 extracted.2 r
      · obtain ⟨called, hcalled⟩ := hcalls
        cases called with
        | error f => exact .inr ⟨_, .inl ⟨f, hcalled, rfl⟩⟩
        | ok called => exact .inr ⟨_, .inr ⟨called, hcalled, rfl⟩⟩
      · refine .inl ⟨included, extracted.1, extracted.2, hinclude, hextract, fun r hr => ?_⟩
        exact hcalls ⟨r, hr⟩

/-- Drafts with the texts of packed codes have the text of these. -/
theorem draftText_eq {form : OutputForm} {codes : List Packed} {drafts : List Draft}
    (h : Draft.texts drafts = codes.map (Packed.text form.conditions)) :
    draftText form drafts = text form codes := by
  rw [draftText, text, h]

/-- Where rendering gives pieces, compiling comes in each form to the text of the packed pieces or
to the failure of packing them. -/
theorem codeComes_of_pieces [TextEncoder] {t : DefinitionTable} {flat : List Command}
    {pieces : List Piece}
    (hflat : FlatComes files cmds (.ok (t, flat))) (hrender : (render t flat).result = .ok pieces)
    (hbound : ∀ nested, Scope.nest pieces = .ok nested → Scope.Bounded 0 nested) (form : OutputForm)
    (r : Except Failure Bytes) :
    CodeComes files form cmds r ↔ r = (Scope.pack pieces).map (text form) := by
  have hwrites := Draft.render_writes form.conditions t flat
  rw [hrender] at hwrites
  obtain ⟨drafts, hdrafts, hwrites⟩ := hwrites.of_ok_left
  obtain ⟨x, hx, hagree⟩ := Draft.packs_agree hwrites hbound
  have hpacks : Draft.Packs form.conditions drafts = (· = x) := funext fun x => propext (hx x)
  rw [CodeComes, flatComes_eq hflat, then_eq_ok rfl, then_eq_ok hdrafts, hpacks]
  cases hpack : Scope.pack pieces with
  | error f =>
    rw [hpack] at hagree
    exact then_eq_error hagree.of_error_left r
  | ok codes =>
    rw [hpack] at hagree
    obtain ⟨out, rfl, htexts⟩ := hagree.of_ok_left
    rw [then_eq_ok rfl, draftText_eq htexts]
    rfl

/-- Where `flatten` fails, the relation comes to the same failure, unless a call is too deep. -/
theorem flatComes_of_flatten_error {f : Failure} (h : (flatten files cmds).result = .error f) :
    Call.TooDeep f ∨ ∃ e, FlatComes files cmds (.error e) ∧ Call.SameFailure e f := by
  rcases Stage.bind_result_eq_error.1 h with hinclude | ⟨included, hinclude, h⟩
  · exact .inr ⟨f, (then_eq_error hinclude _).2 rfl, rfl, rfl⟩
  · simp only [FlatComes, then_eq_ok hinclude]
    rcases Stage.bind_result_eq_error.1 h with hextract | ⟨⟨functions, main⟩, hextract, h⟩
    · exact .inr ⟨f, (then_eq_error hextract _).2 rfl, rfl, rfl⟩
    · simp only [then_eq_ok hextract]
      rcases Stage.bind_result_eq_error.1 h with hcall | ⟨called, hcall, h⟩
      · rcases Call.comes_of_expand_error hcall with hdeep | ⟨e, he, hsame⟩
        · exact .inl hdeep
        · exact .inr ⟨e, .inl ⟨e, he, rfl⟩, hsame⟩
      · rcases Stage.bind_result_eq_error.1 h with hdefine | ⟨defined, -, hnote⟩
        · exact .inr ⟨f, .inr ⟨called, Call.comes_ok_iff.2 hcall, hdefine.symm⟩, rfl, rfl⟩
        · cases hnote

/-- Where `flatten` fails, compiling comes to nothing, because the calls of the script are endless, or
it comes in every form to the same failure. -/
theorem codeComes_of_flatten_error [TextEncoder] {refusal : Failure}
    (h : (flatten files cmds).result = .error refusal) :
    (EndlessCalls files cmds ∧ (∀ form r, ¬ CodeComes files form cmds r) ∧ Call.TooDeep refusal) ∨
    ∃ failure, (∀ form r, CodeComes files form cmds r ↔ r = .error failure) ∧
      (Call.SameFailure failure refusal ∨ Call.TooDeep refusal) := by
  have hrefused := flatComes_of_flatten_error h
  rcases flatComes_or_endless files cmds with hendless | ⟨x, hx⟩
  · refine .inl ⟨hendless, ?_, ?_⟩
    · rintro form r (⟨e, he, -⟩ | ⟨flat, hflat, -⟩)
      · exact hendless.not_comes _ he
      · exact hendless.not_comes _ hflat
    · rcases hrefused with hdeep | ⟨e, he, -⟩
      · exact hdeep
      · exact absurd he (hendless.not_comes _)
  · cases x with
    | error failure =>
      refine .inr ⟨failure, fun form r => ?_, ?_⟩
      · rw [CodeComes, flatComes_eq hx]
        exact then_eq_error rfl r
      · rcases hrefused with hdeep | ⟨e, he, hsame⟩
        · exact .inr hdeep
        · obtain rfl := Except.error.inj (he.unique hx)
          exact .inl hsame
    | ok flat =>
      rw [flatComes_ok_iff, h] at hx
      cases hx

/-- Where `flatten` gives a list, compiling comes in every form to what `packed` gives. -/
theorem codeComes_of_flatten_ok [TextEncoder] {flat : DefinitionTable × List Command}
    (hopen : FewOpen files cmds) (h : (flatten files cmds).result = .ok flat) (form : OutputForm)
    (r : Except Failure Bytes) :
    CodeComes files form cmds r ↔ r = (packed files cmds).result.map (text form) := by
  have hflat := flatComes_ok_iff.2 h
  have hpacked : (packed files cmds).result =
      (render flat.1 flat.2).result >>= fun pieces => Scope.pack pieces := by
    rw [packed, Stage.bind_result, h]
    exact Stage.bind_result _ _
  rw [hpacked]
  cases hrender : (render flat.1 flat.2).result with
  | error f =>
    have hwrites := Draft.render_writes form.conditions flat.1 flat.2
    rw [hrender] at hwrites
    rw [CodeComes, flatComes_eq hflat, then_eq_ok rfl]
    exact then_eq_error hwrites.of_error_left r
  | ok pieces =>
    exact codeComes_of_pieces hflat hrender (fun nested => hopen _ _ _ _ h hrender) form r

/-- **What a compilation comes to.** Let at most 255 scopes be open at once. Then a compilation
comes to nothing in any form, because the loop over the calls never ends; or it comes to the same
failure in every form; or it comes in every form to the text of the same packed codes. The packed
codes are those of `packed`. In the other cases `packed` fails, because a call is too deep or else
alike. -/
theorem codeComes_cases [TextEncoder] (h : FewOpen files cmds) :
    (EndlessCalls files cmds ∧ (∀ form r, ¬ CodeComes files form cmds r) ∧
      ∃ refusal, (packed files cmds).result = .error refusal ∧ Call.TooDeep refusal) ∨
    (∃ failure, (∀ form r, CodeComes files form cmds r ↔ r = .error failure) ∧
      ∃ refusal, (packed files cmds).result = .error refusal ∧
        (Call.SameFailure failure refusal ∨ Call.TooDeep refusal)) ∨
    ∃ codes, (packed files cmds).result = .ok codes ∧
      ∀ form r, CodeComes files form cmds r ↔ r = .ok (text form codes) := by
  cases hflatten : (flatten files cmds).result with
  | error refusal =>
    have hpacked : (packed files cmds).result = .error refusal :=
      Stage.bind_result_eq_error.2 (.inl hflatten)
    rcases codeComes_of_flatten_error hflatten with
      ⟨hendless, hnone, hdeep⟩ | ⟨failure, hcomes, hsame⟩
    · exact .inl ⟨hendless, hnone, refusal, hpacked, hdeep⟩
    · exact .inr (.inl ⟨failure, hcomes, refusal, hpacked, hsame⟩)
  | ok flat =>
    have hcomes := codeComes_of_flatten_ok h hflatten
    cases hpacked : (packed files cmds).result with
    | error f =>
      rw [hpacked] at hcomes
      exact .inr (.inl ⟨f, hcomes, f, rfl, .inl ⟨rfl, rfl⟩⟩)
    | ok codes =>
      rw [hpacked] at hcomes
      exact .inr (.inr ⟨codes, rfl, hcomes⟩)

end Compile

end CheatScript
