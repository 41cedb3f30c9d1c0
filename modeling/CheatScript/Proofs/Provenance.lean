import CheatScript.Proofs.CompilationOutcome
import CheatScript.Proofs.Passes

/-!
# Proofs: diagnostics point at the source

Every command that compilation works with has a way to it: its own line first, then the lines of the
calls and includes that brought it in, and last a line of the main script. The lines on the way are
cleaned lines of the files they name. Rendering, packing and assembling give commands other names
and arguments, but leave their line and the way to it as they are. So each failure shows the way to
a real line.
-/

namespace CheatScript

variable {S : Command → Prop} {c : Command} {t : DefinitionTable} {cmds : List Command}

/-- Whether a property of commands depends on their line and origin only. -/
def OfOrigin (S : Command → Prop) : Prop :=
  ∀ ⦃c d : Command⦄, S c → d.text = c.text → d.trace = c.trace → S d

/-! ## Assembling -/

namespace Assembly

theorem yields_one (hS : OfOrigin S) (hc : S c) (name : Bytes) (args : List Bytes) :
    YieldsAll S (.ok [c.withParts name args]) :=
  .ok (List.forall_mem_singleton.2 (hS hc rfl rfl))

theorem yields_two (hS : OfOrigin S) (hc : S c) (name name' : Bytes) (args args' : List Bytes) :
    YieldsAll S (.ok [c.withParts name args, c.withParts name' args']) :=
  .ok (List.forall_mem_cons.2 ⟨hS hc rfl rfl, List.forall_mem_singleton.2 (hS hc rfl rfl)⟩)

theorem repeatFirst_yields (hS : OfOrigin S) (hc : S c) : YieldsAll S (repeatFirst c) := by
  unfold repeatFirst
  split
  · exact yields_one hS hc _ _
  · exact .refuse hc

theorem insertZero_yields (hS : OfOrigin S) (hc : S c) : YieldsAll S (insertZero c) := by
  unfold insertZero
  split
  · exact yields_one hS hc _ _
  · exact .refuse hc

theorem jump_yields (hS : OfOrigin S) (hc : S c) : YieldsAll S (jump c) := by
  unfold jump
  split
  · exact .refuse hc
  · exact yields_one hS hc _ _
  · exact .refuse hc

theorem compareAndBranch_yields (b : ComparingBranch) (hS : OfOrigin S) (hc : S c) :
    YieldsAll S (compareAndBranch b c) := by
  unfold compareAndBranch
  split
  · exact yields_two hS hc _ _ _ _
  · exact .refuse hc

theorem basedAccess_yields (t : DefinitionTable) (target offset base : Bytes) (hS : OfOrigin S)
    (hc : S c) : YieldsAll S (basedAccess t c target offset base) := by
  have hsubstitute : ∀ offset, Yields S S
      (t.substitute (c.withParts c.name [target, offset, commaBefore base])) :=
    fun _ => t.substitute_yields fun _ => hS hc rfl rfl
  unfold basedAccess
  refine (hsubstitute _).bind fun access haccess => ?_
  split
  · split
    · exact .refuse hc
    · exact .ok (List.forall_mem_singleton.2 (hS haccess rfl rfl))
  · exact .refuse hc

theorem absoluteAccess_yields (target address : Bytes) (hS : OfOrigin S) (hc : S c) :
    YieldsAll S (absoluteAccess c target address) := by
  unfold absoluteAccess
  split
  · exact .refuse hc
  · split
    · exact yields_one hS hc _ _
    · exact yields_two hS hc _ _ _ _

theorem access_yields (t : DefinitionTable) (hS : OfOrigin S) (hc : S c) :
    YieldsAll S (access t c) := by
  unfold access
  simp only
  split
  rotate_left 2
  · exact .refuse hc
  -- the base stands in the token of its offset or in one of its own
  all_goals
    split
    · split
      · split
        · exact .refuse hc
        · exact basedAccess_yields t _ _ _ hS hc
      · exact absoluteAccess_yields _ _ hS hc
    · exact absoluteAccess_yields _ _ hS hc

theorem loadImmediate_yields (hS : OfOrigin S) (hc : S c) : YieldsAll S (loadImmediate c) := by
  unfold loadImmediate
  split
  · split
    · exact .refuse hc
    · split
      · exact yields_one hS hc _ _
      · simp only
        split
        · exact yields_one hS hc _ _
        · exact yields_two hS hc _ _ _ _
  · exact .refuse hc

/-- The instructions of a line have the line and the origin of it. -/
theorem instructionsOf_yields (t : DefinitionTable) (hS : OfOrigin S) (hc : S c) :
    YieldsAll S (instructionsOf t c) := by
  have hself : YieldsAll S (.ok [c]) := .ok (List.forall_mem_singleton.2 hc)
  unfold instructionsOf
  split
  · exact repeatFirst_yields hS hc
  split
  · exact insertZero_yields hS hc
  split
  · exact jump_yields hS hc
  split
  · split
    · exact yields_one hS hc _ _
    · exact hself
  split
  · exact compareAndBranch_yields _ hS hc
  split
  · exact access_yields t hS hc
  split
  · exact loadImmediate_yields hS hc
  · exact hself

namespace Expanded

variable {x : Expanded}

theorem define_yields (hx : ∀ d ∈ x.code, S d) (hc : S c) :
    Yields (fun y => ∀ d ∈ y.code, S d) S (x.define c) := by
  unfold define
  simp only
  split
  · exact .refuse hc
  · split
    · exact .refuse hc
    · exact .ok hx

theorem emit_yields (t : DefinitionTable) (hS : OfOrigin S) (hx : ∀ d ∈ x.code, S d) (hc : S c) :
    Yields (fun y => ∀ d ∈ y.code, S d) S (x.emit t c) := by
  refine (instructionsOf_yields t hS hc).bind fun new hnew => ?_
  exact .ok (List.forall_mem_append.2 ⟨hx, hnew⟩)

theorem addLine_yields (t : DefinitionTable) (hS : OfOrigin S) (hc : S c) (args : List Bytes)
    (hx : ∀ d ∈ x.code, S d) (name : Bytes) :
    Yields (fun y => ∀ d ∈ y.code, S d) S (addLine t c x name args) := by
  induction args generalizing x name with
  | nil =>
    unfold addLine
    split
    · exact define_yields hx (hS hc rfl rfl)
    · exact emit_yields t hS hx (hS hc rfl rfl)
  | cons a args ih =>
    unfold addLine
    split
    · have hline : S (c.withParts name (a :: args)) := hS hc rfl rfl
      exact (define_yields hx hline).bind fun y hy => ih hy _
    · exact emit_yields t hS hx (hS hc rfl rfl)

theorem ofCommands_yields (t : DefinitionTable) (hS : OfOrigin S) (hcmds : ∀ c ∈ cmds, S c) :
    Yields (fun x => ∀ d ∈ x.code, S d) S (ofCommands t cmds) := by
  refine .foldlM (by simp) fun x hx c hc => ?_
  exact addLine_yields t hS (hcmds c hc) c.args hx c.name

end Expanded

theorem encodeFrom_blames {labels : Labels} {base : Word} {index : Nat} {f : Failure}
    (hcmds : ∀ c ∈ cmds, S c) (h : (encodeFrom labels base index cmds).failure = some f) :
    S f.command := by
  induction cmds generalizing index with
  | nil => cases h
  | cons c cmds ih =>
    obtain ⟨hc, hrest⟩ := List.forall_mem_cons.1 hcmds
    unfold encodeFrom at h
    cases hencode : encode labels index c with
    | ok word =>
      rw [hencode] at h
      exact ih hrest h
    | error g =>
      rw [hencode] at h
      obtain rfl := Option.some.inj h
      unfold encode at hencode
      split at hencode
      · cases hencode
      · obtain rfl := Except.error.inj hencode
        exact hc

theorem words_yields (t : DefinitionTable) (base : Word) (hS : OfOrigin S)
    (hcmds : ∀ c ∈ cmds, S c) : Yields (fun _ => True) S (assemble t base cmds).words := by
  have hfailure : ∀ f, (assemble t base cmds).failure = some f → S f.command := by
    intro f hf
    unfold assemble at hf
    have hexpanded := Expanded.ofCommands_yields t hS hcmds
    cases hx : Expanded.ofCommands t cmds with
    | error g =>
      rw [hx] at hf
      obtain rfl := Option.some.inj hf
      exact hexpanded.2 g hx
    | ok x =>
      rw [hx] at hf
      exact encodeFrom_blames (hexpanded.1 x hx) hf
  refine ⟨fun _ _ => trivial, fun f hf => hfailure f ?_⟩
  unfold Outcome.words at hf
  split at hf
  · next g hg =>
    obtain rfl := Except.error.inj hf
    exact hg
  · cases hf

end Assembly

/-! ## Rendering -/

/-- Whether the command of a piece, if it has one, has a property. -/
def Piece.From (S : Command → Prop) (p : Piece) : Prop := ∀ c ∈ Scope.commandOf? p, S c

theorem Piece.from_some {p : Piece} (hc : S c) (h : Scope.commandOf? p = some c) : p.From S := by
  intro d hd
  obtain rfl := Option.some.inj (h.symm.trans hd)
  exact hc

theorem Piece.from_close : Piece.close.From S := by
  rintro c ⟨⟩

theorem AsmScope.close_yields {s : AsmScope} (hS : OfOrigin S) (hlines : ∀ l ∈ s.lines, S l)
    (hc : S c) : Yields (fun _ => True) S (s.close t c).result := by
  unfold AsmScope.close
  split
  · refine Yields.bind_stage (Assembly.words_yields t s.place hS hlines) fun words _ => ?_
    exact Yields.note (.ok trivial)
  · exact .refuse hc

theorem AsmScope.last_mem (s : AsmScope) : s.last = s.start ∨ s.last ∈ s.lines := by
  unfold AsmScope.last
  cases h : s.lines.getLast? with
  | none => exact .inl rfl
  | some l => exact .inr (List.mem_of_getLast? h)

theorem Statement.ofCommand_yields [TextEncoder] (e : TextEncoding) (hc : S c) :
    Yields (fun _ => True) S (Statement.ofCommand e c) := by
  unfold Statement.ofCommand
  split
  · exact .blame hc fun _ _ => trivial
  · exact .refuse hc

theorem renderFrom_yields [TextEncoder] (t : DefinitionTable) (hS : OfOrigin S) (e : TextEncoding)
    {scope : Option AsmScope} (hscope : ∀ s ∈ scope, S s.start ∧ ∀ l ∈ s.lines, S l)
    (hcmds : ∀ c ∈ cmds, S c) :
    Yields (fun pieces => ∀ p ∈ pieces, p.From S) S (renderFrom t e scope cmds).result := by
  induction cmds generalizing e scope with
  | nil =>
    cases scope with
    | none => exact .ok (by simp)
    | some s =>
      obtain ⟨hstart, hlines⟩ := hscope s rfl
      refine .refuse ?_
      rcases s.last_mem with heq | hmem
      · rw [heq]
        exact hstart
      · exact hlines _ hmem
  | cons c cmds ih =>
    obtain ⟨hc, hrest⟩ := List.forall_mem_cons.1 hcmds
    -- a piece in front of those of the other commands
    have hcons : ∀ (e : TextEncoding) (p : Piece), p.From S →
        Yields (fun pieces => ∀ p ∈ pieces, p.From S) S
          (renderFrom t e none cmds >>= fun others => pure (p :: others)).result := by
      intro e p hp
      refine (ih e (by simp) hrest).bind_stage fun others hothers => ?_
      exact .ok (List.forall_mem_cons.2 ⟨hp, hothers⟩)
    cases scope with
    | some s =>
      obtain ⟨hstart, hlines⟩ := hscope s rfl
      unfold renderFrom
      split
      · refine (AsmScope.close_yields hS hlines hc).bind_stage fun codes _ => ?_
        exact hcons e _ (Piece.from_some hc rfl)
      · refine ih e ?_ hrest
        rintro s' ⟨⟩
        exact ⟨hstart, List.forall_mem_append.2 ⟨hlines, List.forall_mem_singleton.2 hc⟩⟩
    | none =>
      unfold renderFrom
      split
      · have hopen : Yields (fun s : AsmScope => s.start = c ∧ s.lines = []) S
            (c.blame (AsmScope.ofCommand c)) := by
          refine .blame hc fun s hs => ?_
          obtain ⟨read, -, hs⟩ := Outcome.bind_eq_ok.1 hs
          obtain ⟨address, -, hs⟩ := Outcome.bind_eq_ok.1 hs
          obtain rfl := Outcome.pure_eq_ok.1 hs
          exact ⟨rfl, rfl⟩
        refine Yields.bind_stage hopen fun s hs => ih e ?_ hrest
        rintro s' ⟨⟩
        rw [hs.1, hs.2]
        exact ⟨hc, by simp⟩
      · refine Yields.bind_stage (Statement.ofCommand_yields e hc) fun statement _ => ?_
        cases statement with
        | encoding e' => exact ih e' (by simp) hrest
        | emit f => exact hcons e _ (Piece.from_some hc rfl)
        | openIf condition => exact hcons e _ (Piece.from_some hc rfl)
        | closeIf => exact hcons e _ Piece.from_close

/-! ## Packing -/

namespace Scope

variable {pieces : List Piece}

theorem mem_of_unclosed? (h : unclosed? pieces = some c) : ∃ p ∈ pieces, commandOf? p = some c := by
  induction pieces with
  | nil => cases h
  | cons p rest ih =>
    have hlater : unclosed? rest = some c → ∃ q ∈ p :: rest, commandOf? q = some c := by
      intro hrest
      obtain ⟨q, hq, hcommand⟩ := ih hrest
      exact ⟨q, List.mem_cons_of_mem _ hq, hcommand⟩
    cases p with
    | test d k =>
      unfold unclosed? at h
      split at h
      · exact ⟨_, List.mem_cons_self, h⟩
      · exact hlater h
    | close => exact hlater h
    | output d f => exact hlater h

theorem extraTest_yields (n : Nat) (hS : OfOrigin S) (hc : S c) :
    Yields (fun p : Piece => p.From S) S (extraTest c n) := by
  have hclause : S (c.withParts c.name (clause c.args n)) := hS hc rfl rfl
  unfold extraTest
  simp only
  split
  · exact .ok (Piece.from_some hclause rfl)
  · exact .refuse hclause

theorem nestFrom_yields (extra : List Nat) (hS : OfOrigin S) (hpieces : ∀ p ∈ pieces, p.From S) :
    Yields (fun out => ∀ p ∈ out, p.From S) S (nestFrom extra pieces) := by
  induction pieces generalizing extra with
  | nil => exact .ok hpieces
  | cons p rest ih =>
    obtain ⟨hp, hrest⟩ := List.forall_mem_cons.1 hpieces
    cases p with
    | test d k =>
      have hmore : Yields (fun more => ∀ p ∈ more, p.From S) S
          ((List.range (extraClauses d)).mapM (extraTest d)) :=
        .mapM fun n _ => extraTest_yields n hS (hp d rfl)
      refine hmore.bind fun more hmore => (ih _ hrest).bind fun out hout => .ok ?_
      exact List.forall_mem_append.2 ⟨List.forall_mem_cons.2 ⟨hp, hmore⟩, hout⟩
    | close =>
      cases extra with
      | nil => exact (ih [] hrest).bind fun out hout => .ok (List.forall_mem_cons.2 ⟨hp, hout⟩)
      | cons n extra =>
        refine (ih extra hrest).bind fun out hout => .ok (List.forall_mem_append.2 ⟨?_, hout⟩)
        intro q hq
        rw [List.eq_of_mem_replicate hq]
        exact hp
    | output d f =>
      unfold nestFrom
      exact (ih extra hrest).bind fun out hout => .ok (List.forall_mem_cons.2 ⟨hp, hout⟩)

theorem Parts.from_pieces {tests : List OpenTest} {lines : Nat} {out : List Piece}
    (h : Parts tests lines pieces out) (htests : ∀ o ∈ tests, S o.1)
    (hpieces : ∀ p ∈ pieces, p.From S) : ∀ p ∈ out, p.From S := by
  have hafter : ∀ {tests : List OpenTest} {p : Piece}, (∀ o ∈ tests, S o.1) → p.From S →
      ∀ o ∈ openAfter tests p, S o.1 := by
    intro tests p htests hp
    cases p with
    | test d k => exact List.forall_mem_append.2 ⟨htests, List.forall_mem_singleton.2 (hp d rfl)⟩
    | close => exact fun o ho => htests o (List.dropLast_subset _ ho)
    | output d f => exact htests
  induction h with
  | nil => exact hpieces
  | outside _ ih | same _ _ ih =>
    obtain ⟨hp, hrest⟩ := List.forall_mem_cons.1 hpieces
    exact List.forall_mem_cons.2 ⟨hp, ih (hafter htests hp) hrest⟩
  | fresh _ _ ih =>
    obtain ⟨hp, hrest⟩ := List.forall_mem_cons.1 hpieces
    refine List.forall_mem_append.2 ⟨List.forall_mem_append.2 ⟨?_, ?_⟩,
      List.forall_mem_cons.2 ⟨hp, ih (hafter htests hp) hrest⟩⟩
    · intro q hq
      rw [List.eq_of_mem_replicate hq]
      exact Piece.from_close
    · intro q hq
      obtain ⟨o, ho, rfl⟩ := List.mem_map.1 hq
      exact Piece.from_some (htests o ho) rfl

/-- What splitting refuses is a piece it was given, and one that has lines. The ends it makes have
neither command nor lines. -/
theorem splitFrom_blames {tests : List OpenTest} {lines : Nat} {f : Failure} (hl : lines ≤ maxLines)
    (h : splitFrom tests lines pieces = .error f) :
    ∃ p ∈ pieces, 0 < p.weight ∧ commandOf? p = some f.command := by
  induction pieces generalizing tests lines with
  | nil => cases h
  | cons p rest ih =>
    have hlater : ∀ {tests lines}, lines ≤ maxLines → ∀ {g : List Piece → List Piece},
        (splitFrom tests lines rest >>= fun out => pure (g out)) = .error f →
          ∃ q ∈ p :: rest, 0 < q.weight ∧ commandOf? q = some f.command := by
      intro tests lines hl g h
      rcases Outcome.bind_eq_error.1 h with h | ⟨out, -, h⟩
      · obtain ⟨q, hq, hblamed⟩ := ih hl h
        exact ⟨q, List.mem_cons_of_mem _ hq, hblamed⟩
      · cases h
    cases tests with
    | nil => exact hlater (Nat.zero_le _) h
    | cons o tests =>
      simp only [splitFrom] at h
      split at h
      next hfit => exact hlater (weight_le_of_fits hfit) h
      next hfull =>
        split at h
        next hfit => exact hlater (weight_le_of_fits hfit) h
        next =>
          -- a piece without lines fits the part that is there
          have hweight : 0 < p.weight := by
            refine Nat.pos_of_ne_zero fun hzero => hfull ?_
            cases p with
            | test d k => cases hzero
            | close => simp [fits, Piece.weight, hl]
            | output d g => simp [fits, hzero, hl]
          split at h
          next d hd =>
            obtain rfl := Except.error.inj h
            exact ⟨p, List.mem_cons_self, hweight, hd⟩
          next => cases h

theorem split_yields (hpieces : ∀ p ∈ pieces, p.From S) :
    Yields (fun out => ∀ p ∈ out, p.From S) S (split pieces) := by
  constructor
  · intro out h
    exact (parts_of_splitFrom (Nat.zero_le _) h).from_pieces (by simp) hpieces
  · intro f h
    obtain ⟨p, hp, -, hcommand⟩ := splitFrom_blames (Nat.zero_le _) h
    exact hpieces p hp _ hcommand

theorem pack_yields (hS : OfOrigin S) (hpieces : ∀ p ∈ pieces, p.From S) :
    Yields (fun _ => True) S (pack pieces) := by
  unfold pack
  split
  · next d hd =>
    obtain ⟨p, hp, hcommand⟩ := mem_of_unclosed? hd
    exact .refuse (hpieces p hp d hcommand)
  · refine (nestFrom_yields [] hS hpieces).bind fun nested hnested => ?_
    exact (split_yields hnested).bind fun parts _ => .ok trivial

end Scope

/-! ## Loops -/

namespace Call

variable {files : FileTree} {functions : List Function}

/-- A round of the loop over calls keeps what the passes keep, whatever the depth of the call. -/
theorem round_yields (hk : Kept files S) (hbodies : Function.BodiesAre S functions) {s : Rewriting}
    {x : Except Failure Rewriting} (hs : ∀ c ∈ s.cmds, S c) (h : round functions s = some x) :
    Yields (fun next => ∀ c ∈ next.cmds, S c) S x := by
  obtain ⟨i, -, h⟩ := Option.bind_eq_some_iff.1 h
  obtain ⟨call, hcall, rfl⟩ := Option.map_eq_some_iff.1 h
  refine (open?_yields hk hbodies (hs call (List.mem_of_getElem? hcall))).map fun body hbody => ?_
  refine renumber_kept hk (List.forall_mem_append.2 ⟨?_, List.forall_mem_append.2 ⟨hbody, ?_⟩⟩)
  · exact fun c hc => hs c (List.mem_of_mem_take hc)
  · exact fun c hc => hs c (List.mem_of_mem_drop hc)

theorem run_kept (hk : Kept files S) (hbodies : Function.BodiesAre S functions)
    (hcmds : ∀ c ∈ cmds, S c) {s : Rewriting}
    (h : Loop.Run (round functions) ⟨0, renumber cmds⟩ s) : ∀ c ∈ s.cmds, S c := by
  induction h with
  | refl => exact renumber_kept hk hcmds
  | tail _ hround ih => exact (round_yields hk hbodies ih hround).1 _ rfl

theorem comes_yields (hk : Kept files S) (hbodies : Function.BodiesAre S functions)
    (hcmds : ∀ c ∈ cmds, S c) {r : Except Failure (List Command)} (h : Comes functions cmds r) :
    YieldsAll S r := by
  obtain ⟨x, hx, rfl⟩ := h
  have hends : Yields (fun s : Rewriting => ∀ c ∈ s.cmds, S c) S x :=
    .of_ends (fun _ _ hs hround => round_yields hk hbodies hs hround) (renumber_kept hk hcmds) hx
  exact hends.map fun s hs => hs

end Call

namespace Draft

variable {type : ConditionType} {pieces : List Piece} {drafts : List Draft} {d : Draft}

/-- Whether the command of a draft that has lines has a property. -/
def From (S : Command → Prop) (d : Draft) : Prop := 0 < d.weight → S d.command

theorem from_of_writes (hpieces : ∀ p ∈ pieces, p.From S) (h : WritesAll type pieces drafts) :
    ∀ d ∈ drafts, d.From S := by
  intro d hd
  obtain ⟨p, hp, hwrites⟩ := Outcome.exists_of_mem_right h hd
  cases hwrites with
  | test c k => exact fun _ => hpieces _ hp c rfl
  | close c => exact fun hpos => absurd hpos (Nat.lt_irrefl 0)
  | output c f => exact fun _ => hpieces _ hp c rfl

theorem run_from (hdrafts : ∀ d ∈ drafts, d.From S) {s : Cutting}
    (h : Loop.Run turn ⟨[], drafts⟩ s) : ∀ d ∈ s.passed ++ s.ahead, d.From S := by
  intro d hd
  rcases run_given h d hd with hmem | rfl
  · exact hdrafts d hmem
  · exact fun hpos => absurd hpos (Nat.lt_irrefl 0)

/-- Rendering writes pieces whose commands have the property. -/
theorem render_yields [TextEncoder] (type : ConditionType) (t : DefinitionTable) (hS : OfOrigin S)
    (hcmds : ∀ c ∈ cmds, S c) :
    Yields (fun drafts => ∃ pieces, WritesAll type pieces drafts ∧ ∀ p ∈ pieces, p.From S) S
      (render type t cmds).result := by
  have hpieces :
      Yields (fun pieces => ∀ p ∈ pieces, p.From S) S (CheatScript.render t cmds).result :=
    renderFrom_yields t hS .utf8 (by simp) hcmds
  exact hpieces.of_agree (render_writes type t cmds)

theorem nestFrom_yields (hS : OfOrigin S) (h : WritesAll type pieces drafts)
    (hpieces : ∀ p ∈ pieces, p.From S) :
    Yields (fun nested => ∀ d ∈ nested, d.From S) S (nestFrom type [] drafts) := by
  have hnested := (Scope.nestFrom_yields [] hS hpieces).of_agree (nestFrom_writes h [])
  refine ⟨fun nested hok => ?_, hnested.2⟩
  obtain ⟨pieces', hwrites, hfrom⟩ := hnested.1 nested hok
  exact from_of_writes hfrom hwrites

/-- Packing drafts blames a command with the property: that of an open condition, of a clause, or of
a draft that has lines. -/
theorem packs_yields (hS : OfOrigin S) (h : WritesAll type pieces drafts)
    (hpieces : ∀ p ∈ pieces, p.From S) {r : Except Failure (List Draft)}
    (hr : Packs type drafts r) : Yields (fun _ => True) S r := by
  unfold Packs at hr
  split at hr
  · have hclosed : Yields (fun _ => True) S (closed drafts) := by
      rw [closed_eq h]
      cases hu : Scope.unclosed? pieces with
      | none => exact .ok trivial
      | some c =>
        obtain ⟨p, hp, hcommand⟩ := Scope.mem_of_unclosed? hu
        exact .refuse (hpieces p hp c hcommand)
    refine .of_then (fun x hx => hx ▸ hclosed) (fun _ _ y hy => ?_) hr
    refine .of_then (fun x hx => hx ▸ nestFrom_yields hS h hpieces)
      (fun nested hnested z hz => ?_) hy
    obtain ⟨x, hx, rfl⟩ := hz
    refine ⟨fun _ _ => trivial, fun f hf => ?_⟩
    cases x with
    | ok s => cases hf
    | error e =>
      obtain rfl := Except.error.inj hf
      obtain ⟨d, hd, hpos, hcommand⟩ := ends_blames hx
      exact hcommand ▸ hnested d hd hpos
  · exact hr ▸ .ok trivial

end Draft

/-! ## Lines of the source -/

/-- The cleaned lines of the file with a name, where the script with a path has the lines
`source`. -/
def FileTree.sourceLines (files : FileTree) (path : Bytes) (source : List Bytes) (file : Bytes) :
    List Bytes :=
  if file = path then Source.cleanUp source
  else match files.read file with
    | .ok content => Source.cleanUp (Source.linesOf content)
    | .error _ => []

/-- Whether a frame holds the line of its file that has its index. -/
def Frame.Holds (files : FileTree) (path : Bytes) (source : List Bytes) (frame : Frame) : Prop :=
  ∃ i : Nat, frame.index = i ∧ (files.sourceLines path source frame.file)[i]? = some frame.line

/-- Whether a command shows the way to it: its own line comes first, the last line is one of the
script, and each line is found in its file. -/
structure Sourced (files : FileTree) (path : Bytes) (source : List Bytes) (c : Command) : Prop where
  own : c.trace.head?.map Frame.line = some c.text
  holds : ∀ frame ∈ c.trace, frame.Holds files path source
  main : c.trace.getLast?.map Frame.file = some path

section Sourced

variable {files : FileTree} {path : Bytes} {source : List Bytes}

theorem Sourced.nonempty (h : Sourced files path source c) : c.trace ≠ [] := by
  intro hnil
  have hown := h.own
  rw [hnil] at hown
  cases hown

theorem sourced_of_mem_commands (h : c ∈ Source.commands path (Source.cleanUp source)) :
    Sourced files path source c := by
  obtain ⟨line, i, hline, htext, htrace⟩ := Include.trace_of_mem_commands h
  refine ⟨?_, ?_, ?_⟩
  · rw [htrace, htext]
    rfl
  · rw [htrace]
    refine List.forall_mem_singleton.2 ⟨i, rfl, ?_⟩
    rw [FileTree.sourceLines, if_pos rfl]
    exact hline
  · rw [htrace]
    rfl

/-- Bringing a command in adds the way to the command that does so. -/
theorem Sourced.broughtBy {own call : Command} (hcall : Sourced files path source call)
    (hown : own.trace.head?.map Frame.line = some own.text)
    (hholds : ∀ frame ∈ own.trace, frame.Holds files path source) :
    Sourced files path source (own.broughtBy call) := by
  refine ⟨?_, List.forall_mem_append.2 ⟨hholds, hcall.holds⟩, ?_⟩
  · cases htrace : own.trace with
    | nil =>
      rw [htrace] at hown
      cases hown
    | cons frame rest =>
      rw [htrace] at hown
      simp only [Command.broughtBy, htrace]
      exact hown
  · have hlast : (own.trace ++ call.trace).getLast? = call.trace.getLast? := by
      rw [List.getLast?_append_of_ne_nil _ hcall.nonempty]
    simp only [Command.broughtBy, hlast]
    exact hcall.main

theorem sourced_ofOrigin : OfOrigin (Sourced files path source) := by
  intro c d hc htext htrace
  refine ⟨?_, ?_, ?_⟩
  · rw [htrace, htext]
    exact hc.own
  · rw [htrace]
    exact hc.holds
  · rw [htrace]
    exact hc.main

/-- The main script is on the way to every Include, so an included file is another one. -/
theorem Sourced.path_ne {p content : Bytes} (hc : Sourced files path source c)
    (hopen : Include.open? files c = .ok (p, content)) : p ≠ path := by
  rintro rfl
  obtain ⟨frame, hlast, hfile⟩ := Option.map_eq_some_iff.1 hc.main
  have hfresh := (Include.open?_eq_ok hopen).1 frame (List.mem_of_getLast? hlast)
  rw [hfile] at hfresh
  exact hfresh rfl

theorem sourced_kept : Kept files (Sourced files path source) := by
  refine ⟨fun hc _ htext htrace => sourced_ofOrigin hc htext htrace, ?_, ?_⟩
  · intro c p content hc hopen d hd
    obtain ⟨own, hown, rfl⟩ := List.mem_map.1 hd
    obtain ⟨line, i, hline, htext, htrace⟩ := Include.trace_of_mem_commandsOf hown
    refine hc.broughtBy ?_ ?_
    · rw [htrace, htext]
      rfl
    · rw [htrace]
      refine List.forall_mem_singleton.2 ⟨i, rfl, ?_⟩
      rw [FileTree.sourceLines, if_neg (hc.path_ne hopen), (Include.open?_eq_ok hopen).2]
      exact hline
  · intro own call hown hcall
    exact hcall.broughtBy hown.own hown.holds

end Sourced

/-! ## Compilation -/

namespace Compile

/-- The commands that a compilation works with, pass after pass, as far as it gets. -/
inductive Met [TextEncoder] (files : FileTree) (cmds : List Command) : Command → Prop
  /-- A command of the script. -/
  | script {c : Command} (hc : c ∈ cmds) : Met files cmds c
  /-- A command after includes and symbol files are worked in. -/
  | included {c : Command} {included : List Command}
      (hinclude : (Include.expand files cmds).result = .ok included) (hc : c ∈ included) :
      Met files cmds c
  /-- A command of the body of a function. -/
  | body {c : Command} {included main : List Command} {functions : List Function} {f : Function}
      (hinclude : (Include.expand files cmds).result = .ok included)
      (hextract : (Function.extract included).result = .ok (functions, main))
      (hf : f ∈ functions) (hc : c ∈ f.body) : Met files cmds c
  /-- A command of the list after any number of rounds of the loop over calls. -/
  | round {c : Command} {included main : List Command} {functions : List Function}
      {s : Call.Rewriting} (hinclude : (Include.expand files cmds).result = .ok included)
      (hextract : (Function.extract included).result = .ok (functions, main))
      (hrun : Loop.Run (Call.round functions) ⟨0, renumber main⟩ s) (hc : c ∈ s.cmds) :
      Met files cmds c
  /-- A command after calls are worked in. -/
  | called {c : Command} {included main called : List Command} {functions : List Function}
      (hinclude : (Include.expand files cmds).result = .ok included)
      (hextract : (Function.extract included).result = .ok (functions, main))
      (hcall : Call.expand functions main = .ok called) (hc : c ∈ called) : Met files cmds c
  /-- A command after definitions are applied. -/
  | flat {c : Command} {t : DefinitionTable} {flat : List Command}
      (hflatten : (flatten files cmds).result = .ok (t, flat)) (hc : c ∈ flat) : Met files cmds c
  /-- An instruction that lines of the flat list stand for in an asm scope. -/
  | instruction {c : Command} {t : DefinitionTable} {flat lines : List Command}
      {x : Assembly.Expanded} (hflatten : (flatten files cmds).result = .ok (t, flat))
      (hlines : ∀ l ∈ lines, l ∈ flat) (hexpand : Assembly.Expanded.ofCommands t lines = .ok x)
      (hc : c ∈ x.code) : Met files cmds c
  /-- The command of a rendered piece. -/
  | piece {c : Command} {t : DefinitionTable} {flat : List Command} {pieces : List Piece}
      {p : Piece} (hflatten : (flatten files cmds).result = .ok (t, flat))
      (hrender : (render t flat).result = .ok pieces) (hp : p ∈ pieces)
      (hc : Scope.commandOf? p = some c) : Met files cmds c
  /-- The command of a piece after clauses are nested. -/
  | nested {c : Command} {t : DefinitionTable} {flat : List Command} {pieces nested : List Piece}
      {p : Piece} (hflatten : (flatten files cmds).result = .ok (t, flat))
      (hrender : (render t flat).result = .ok pieces) (hnest : Scope.nest pieces = .ok nested)
      (hp : p ∈ nested) (hc : Scope.commandOf? p = some c) : Met files cmds c
  /-- The command of a piece after scopes are split. -/
  | part {c : Command} {t : DefinitionTable} {flat : List Command}
      {pieces nested parts : List Piece}
      {p : Piece} (hflatten : (flatten files cmds).result = .ok (t, flat))
      (hrender : (render t flat).result = .ok pieces) (hnest : Scope.nest pieces = .ok nested)
      (hsplit : Scope.split nested = .ok parts) (hp : p ∈ parts)
      (hc : Scope.commandOf? p = some c) : Met files cmds c
  /-- The command of a draft that has lines, after any number of turns of the loop that cuts
  scopes. -/
  | cut {type : ConditionType} {t : DefinitionTable} {flat : List Command}
      {drafts nested : List Draft}
      {s : Draft.Cutting} {d : Draft} (hflatten : (flatten files cmds).result = .ok (t, flat))
      (hrender : (Draft.render type t flat).result = .ok drafts)
      (hnest : Draft.nestFrom type [] drafts = .ok nested)
      (hrun : Loop.Run Draft.turn ⟨[], nested⟩ s) (hd : d ∈ s.passed ++ s.ahead)
      (hlines : 0 < d.weight) : Met files cmds d.command

variable {files : FileTree}

theorem render_yields [TextEncoder] (t : DefinitionTable) (hS : OfOrigin S)
    (hcmds : ∀ c ∈ cmds, S c) :
    Yields (fun pieces => ∀ p ∈ pieces, p.From S) S (render t cmds).result :=
  renderFrom_yields t hS .utf8 (by simp) hcmds

/-- A property that all passes keep holds of every command a compilation works with. -/
theorem Met.kept [TextEncoder] (hk : Kept files S) (hS : OfOrigin S) (hcmds : ∀ c ∈ cmds, S c)
    (h : Met files cmds c) : S c := by
  have hinclude := Include.expand_yields hk.included hcmds
  have hflatten := flatten_yields hk hcmds
  cases h with
  | script hc => exact hcmds c hc
  | included hok hc => exact hinclude.1 _ hok c hc
  | body hok hextract hf hc =>
    exact ((Function.extract_yields (hinclude.1 _ hok)).1 _ hextract).1 _ hf c hc
  | round hok hextract hrun hc =>
    obtain ⟨hbodies, hmain⟩ := (Function.extract_yields (hinclude.1 _ hok)).1 _ hextract
    exact Call.run_kept hk hbodies hmain hrun c hc
  | called hok hextract hcall hc =>
    obtain ⟨hbodies, hmain⟩ := (Function.extract_yields (hinclude.1 _ hok)).1 _ hextract
    exact (Call.expand_yields hk hbodies hmain).1 _ hcall c hc
  | flat hok hc => exact hflatten.1 _ hok c hc
  | instruction hok hlines hexpand hc =>
    have hflat := hflatten.1 _ hok
    have hlines' := fun l hl => hflat l (hlines l hl)
    exact (Assembly.Expanded.ofCommands_yields _ hS hlines').1 _ hexpand c hc
  | piece hok hrender hp hc =>
    exact (render_yields _ hS (hflatten.1 _ hok)).1 _ hrender _ hp c hc
  | nested hok hrender hnest hp hc =>
    have hpieces := (render_yields _ hS (hflatten.1 _ hok)).1 _ hrender
    exact (Scope.nestFrom_yields [] hS hpieces).1 _ hnest _ hp c hc
  | part hok hrender hnest hsplit hp hc =>
    have hpieces := (render_yields _ hS (hflatten.1 _ hok)).1 _ hrender
    have hnested := (Scope.nestFrom_yields [] hS hpieces).1 _ hnest
    exact (Scope.split_yields hnested).1 _ hsplit _ hp c hc
  | cut hok hrender hnest hrun hd hlines =>
    obtain ⟨pieces, hwrites, hpieces⟩ :=
      (Draft.render_yields _ _ hS (hflatten.1 _ hok)).1 _ hrender
    have hnested := (Draft.nestFrom_yields hS hwrites hpieces).1 _ hnest
    exact Draft.run_from hnested hrun _ hd hlines

theorem packed_yields [TextEncoder] (hk : Kept files S) (hS : OfOrigin S)
    (hcmds : ∀ c ∈ cmds, S c) : Yields (fun _ => True) S (packed files cmds).result := by
  refine (flatten_yields hk hcmds).bind_stage fun flat hflat => ?_
  refine (render_yields _ hS hflat).bind_stage fun pieces hpieces => ?_
  exact Scope.pack_yields hS hpieces

theorem lines_yields [TextEncoder] (form : OutputForm) (path : Bytes) (source : List Bytes)
    (hk : Kept files S)
    (hS : OfOrigin S) (hcmds : ∀ c ∈ Source.commands path (Source.cleanUp source), S c) :
    Yields (fun _ => True) S (lines files form path source).result := by
  unfold lines
  split
  · exact .ok trivial
  · exact (packed_yields hk hS hcmds).bind_stage fun codes _ => .ok trivial

theorem flatComes_yields (hk : Kept files S) (hcmds : ∀ c ∈ cmds, S c)
    {r : Except Failure (DefinitionTable × List Command)} (h : FlatComes files cmds r) :
    Yields (fun flat => ∀ c ∈ flat.2, S c) S r := by
  refine .of_then (fun x hx => hx ▸ Include.expand_yields hk.included hcmds)
    (fun _ hincluded x hx => ?_) h
  refine .of_then (fun y hy => hy ▸ Function.extract_yields hincluded)
    (fun _ hextracted y hy => ?_) hx
  refine .of_then (fun z => Call.comes_yields hk hextracted.1 hextracted.2)
    (fun _ hcalled z hz => ?_) hy
  exact hz ▸ defineAll_yields hk hcalled

/-- What compiling comes to is good or blames a command with a property that the passes keep.
Neither the rounds of the loop over calls nor the scopes that are open are bounded here. -/
theorem comes_yields [TextEncoder] (form : OutputForm) (path : Bytes) (source : List Bytes)
    (hk : Kept files S) (hS : OfOrigin S)
    (hcmds : ∀ c ∈ Source.commands path (Source.cleanUp source), S c) {r : Except Failure Bytes}
    (h : Comes files form path source r) : Yields (fun _ => True) S r := by
  refine .of_then (fun x => flatComes_yields hk hcmds) (fun flat hflat x hx => ?_) h
  refine .of_then (fun y hy => hy ▸ Draft.render_yields _ _ hS hflat) ?_ hx
  rintro drafts ⟨pieces, hwrites, hpieces⟩ y hy
  refine .of_then (fun z => Draft.packs_yields hS hwrites hpieces) (fun _ _ z hz => ?_) hy
  exact hz ▸ .ok trivial

/-- **Diagnostics point at the source.** If compiling comes to a failure, the failure blames a
command that shows the way to it: its own line first, then the lines that brought it in, the last
one a line of the main script, each a cleaned line of the file it names. That holds however deep the
call at fault is, and of the failures of `lines` too. All commands a compilation works with show the
way to them like this, those of every round of the loop over calls included. Cutting scopes makes
ends that show no way, but it never blames them: it blames a draft or a piece it was given, and one
that has lines. -/
theorem diagnostics_sourced [TextEncoder] (files : FileTree) (form : OutputForm) (path : Bytes)
    (source : List Bytes) :
    (∀ f, Comes files form path source (.error f) → Sourced files path source f.command) ∧
    (∀ f, (lines files form path source).result = .error f → Sourced files path source f.command) ∧
    (∀ c, Met files (Source.commands path (Source.cleanUp source)) c →
      Sourced files path source c) ∧
    (∀ drafts f, Loop.Ends Draft.turn ⟨[], drafts⟩ (.error f) →
      ∃ d ∈ drafts, 0 < d.weight ∧ d.command = f.command) ∧
    ∀ pieces f, Scope.split pieces = .error f →
      ∃ p ∈ pieces, 0 < p.weight ∧ Scope.commandOf? p = some f.command := by
  have hcmds : ∀ c ∈ Source.commands path (Source.cleanUp source), Sourced files path source c :=
    fun _ hc => sourced_of_mem_commands hc
  refine ⟨?_, ?_, ?_, ?_, ?_⟩
  · intro f h
    exact (comes_yields form path source sourced_kept sourced_ofOrigin hcmds h).2 f rfl
  · exact (lines_yields form path source sourced_kept sourced_ofOrigin hcmds).2
  · intro c hc
    exact hc.kept sourced_kept sourced_ofOrigin hcmds
  · exact fun drafts f => Draft.ends_blames
  · intro pieces f h
    exact Scope.splitFrom_blames (Nat.zero_le _) h

/-- A file with a function that has an unknown instruction. -/
def faultyFiles : FileTree where
  here := [ascii "cheats"]
  files := [([ascii "cheats", ascii "lib.txt"],
    ascii "Function F(x)\nASM_START 0x100\n foo x // unknown\nASM_END\nEndFunction")]

/-- A script that calls it. -/
def faultyLines : List Bytes := ["Include \"lib.txt\"", "", "Call F($v0)"].map ascii

/-- The call. -/
def faultyCall : Command :=
  { Command.ofLine (ascii "Call F($v0)") with
    trace := [⟨ascii "main.txt", ascii "Call F($v0)", 2⟩] }

/-- The instruction, with the way to it. -/
def faultyInstruction : Command where
  text := ascii "foo x"
  name := ascii "FOO"
  args := [ascii "$v0"]
  position := 1
  trace := [⟨ascii "lib.txt", ascii "foo x", 2⟩, ⟨ascii "main.txt", ascii "Include \"lib.txt\"", 0⟩,
    ⟨ascii "main.txt", ascii "Call F($v0)", 2⟩]
  callers := [ascii "F"]

/-- A scope of a text with more lines than a condition can skip. -/
def longText : List Piece :=
  [.test faultyCall ⟨0x100, .equal, .byte, 1⟩,
    .output faultyInstruction (.block (List.replicate 255 Byte.newline)), .close]

/-- The same scope as drafts. -/
def longDrafts : List Draft :=
  [.test faultyCall (ascii "\nD0000100 nn010001"),
    .output faultyInstruction (List.replicate 256 Byte.newline) 256, .close Draft.madeEnd]

set_option maxRecDepth 8000 in
theorem comes_faulty : Comes faultyFiles {} (ascii "main.txt") faultyLines
    (.error ⟨.asmUnknownMnemonic, faultyInstruction⟩) := by
  refine .inr ⟨_, flatComes_ok_iff.2 rfl, ?_⟩
  exact (Outcome.then_eq_error rfl _).2 rfl

set_option maxRecDepth 8000 in
theorem diagnostics_sourced_call :
    (Comes faultyFiles {} (ascii "main.txt") faultyLines
        (.error ⟨.asmUnknownMnemonic, faultyInstruction⟩) ∧
      (lines faultyFiles {} (ascii "main.txt") faultyLines).result =
        .error ⟨.asmUnknownMnemonic, faultyInstruction⟩ ∧
      Sourced faultyFiles (ascii "main.txt") faultyLines faultyInstruction) ∧
    (Met faultyFiles (Source.commands (ascii "main.txt") (Source.cleanUp faultyLines)) faultyCall ∧
      Sourced faultyFiles (ascii "main.txt") faultyLines faultyCall) ∧
    (Loop.Ends Draft.turn ⟨[], longDrafts⟩ (.error ⟨.ifScopeTooLarge, faultyInstruction⟩) ∧
      ∃ d ∈ longDrafts, 0 < d.weight ∧ d.command = faultyInstruction) ∧
    (Scope.split longText = .error ⟨.ifScopeTooLarge, faultyInstruction⟩ ∧
      ∃ p ∈ longText, 0 < p.weight ∧ Scope.commandOf? p = some faultyInstruction) := by
  have hfailure : (lines faultyFiles {} (ascii "main.txt") faultyLines).result =
      .error ⟨.asmUnknownMnemonic, faultyInstruction⟩ := rfl
  have hmet : Met faultyFiles (Source.commands (ascii "main.txt") (Source.cleanUp faultyLines))
      faultyCall := .script (by decide)
  have hcut : Loop.Ends Draft.turn ⟨[], longDrafts⟩
      (.error ⟨.ifScopeTooLarge, faultyInstruction⟩) := .failed .refl rfl
  have hsplit : Scope.split longText = .error ⟨.ifScopeTooLarge, faultyInstruction⟩ := by decide
  obtain ⟨hcomes, -, hall, hdraft, hpiece⟩ :=
    diagnostics_sourced faultyFiles {} (ascii "main.txt") faultyLines
  exact ⟨⟨comes_faulty, hfailure, hcomes _ comes_faulty⟩, ⟨hmet, hall _ hmet⟩,
    ⟨hcut, hdraft _ _ hcut⟩, ⟨hsplit, hpiece _ _ hsplit⟩⟩

end Compile

end CheatScript
