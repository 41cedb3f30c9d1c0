import CheatScript.Include
import CheatScript.Proofs.Outcome
import Mathlib.Data.List.Perm.Subperm

/-!
# Proofs: the expansion of includes

Includes are worked in by a loop that reads on at the first command of the file it has put in place
of an Include. The files on the way to a command are distinct, and all but the script are files that
are there, so the loop ends, and the depth that `Include.expand` allows is never used up. What comes
out is the recursive inclusion of the files, in which one flag tells throughout whether a function
is open.
-/

namespace CheatScript

/-! ## Places of files -/

namespace FileTree

variable {t : FileTree}

theorem follow_eq_ok {place elements found : List Bytes} (h : t.follow place elements = .ok found) :
    found = elements.foldl enter place := by
  induction elements generalizing place with
  | nil => exact (Except.ok.inj h).symm
  | cons e rest ih =>
    unfold follow at h
    split at h
    · cases h
    · cases h
    · split at h
      · cases h
      · exact ih h

theorem place_eq_ok {path : Bytes} {place : List Bytes} (h : t.place path = .ok place) :
    place = t.absolute path := by
  unfold FileTree.place at h
  split at h
  · cases h
  · split at h
    · cases h
    · split at h
      · cases h
      · exact follow_eq_ok h

/-- A content that is read is that of the file at the place of its path. -/
theorem lookup_of_read {path content : Bytes} (h : t.read path = .ok content) :
    t.files.lookup (t.absolute path) = some content := by
  obtain ⟨node, hfind, h⟩ := Outcome.bind_eq_ok.1 h
  obtain ⟨place, hplace, hnode⟩ := Outcome.bind_eq_ok.1 hfind
  obtain rfl := place_eq_ok hplace
  unfold FileTree.node? at hnode
  cases hlookup : t.files.lookup (t.absolute path) with
  | some found =>
    rw [hlookup] at hnode
    obtain rfl := Outcome.pure_eq_ok.1 hnode
    rw [Outcome.pure_eq_ok.1 h]
  | none =>
    rw [hlookup] at hnode
    by_cases hfolder : t.isFolder (t.absolute path) = true
    · rw [hfolder] at hnode
      obtain rfl := Outcome.pure_eq_ok.1 hnode
      cases h
    · rw [Bool.eq_false_iff.2 hfolder] at hnode
      cases hnode

end FileTree

namespace Include

variable {files : FileTree} {c : Command} {cmds out : List Command}

/-! ## Opening a file -/

/-- An Include that names a file on the way to it, the including file itself or one further out. -/
def NamesAncestor (files : FileTree) (c : Command) : Prop :=
  ∃ path, target c = .ok path ∧ ∃ frame ∈ c.trace, files.samePlace frame.file path = true

theorem open?_eq_ok {path content : Bytes} (h : open? files c = .ok (path, content)) :
    (∀ frame ∈ c.trace, files.absolute frame.file ≠ files.absolute path) ∧
      files.read path = .ok content := by
  unfold open? at h
  obtain ⟨named, -, h⟩ := Outcome.bind_eq_ok.1 h
  split at h
  · cases h
  · rename_i hany
    split at h
    · rename_i found hread
      obtain ⟨rfl, rfl⟩ := Prod.mk.inj (Outcome.pure_eq_ok.1 h)
      refine ⟨fun frame hframe heq => hany ?_, hread⟩
      exact List.any_eq_true.2 ⟨frame, hframe, beq_iff_eq.2 heq⟩
    · cases h

/-- A file is refused as being on the way exactly if it is. -/
theorem open?_eq_overflow : open? files c = .error .includeStackOverflow ↔
    NamesAncestor files c := by
  unfold open?
  constructor
  · intro h
    rcases Outcome.bind_eq_error.1 h with htarget | ⟨path, hpath, h⟩
    · -- the target of an Include has faults of its own
      unfold target at htarget
      split at htarget
      · split at htarget
        · cases htarget
        · cases htarget
      · cases htarget
    · split at h
      · rename_i hany
        obtain ⟨frame, hframe, hsame⟩ := List.any_eq_true.1 hany
        exact ⟨path, hpath, frame, hframe, hsame⟩
      · split at h
        · cases h
        · cases h
  · rintro ⟨path, hpath, frame, hframe, hsame⟩
    have hany : (c.trace.any fun frame => files.samePlace frame.file path) = true :=
      List.any_eq_true.2 ⟨frame, hframe, hsame⟩
    refine Outcome.bind_eq_error.2 (.inr ⟨path, hpath, ?_⟩)
    rw [if_pos hany]

/-- The commands of a file as an Include brings them in. -/
def brought (c : Command) (path content : Bytes) : List Command :=
  (commandsOf path content).map (·.broughtBy c)

theorem trace_of_mem_commands {path : Bytes} {lines : List Bytes} {d : Command}
    (h : d ∈ Source.commands path lines) :
    ∃ (line : Bytes) (i : Nat), lines[i]? = some line ∧ d.text = line ∧
    d.trace = [⟨path, line, i⟩] := by
  obtain ⟨⟨line, i⟩, hmem, hd⟩ := List.mem_filterMap.1 h
  simp only at hd
  split at hd
  · cases hd
  · obtain rfl := Option.some.inj hd
    exact ⟨line, i, List.mem_zipIdx_iff_getElem?.1 hmem, rfl, rfl⟩

theorem trace_of_mem_commandsOf {path content : Bytes} {d : Command}
    (h : d ∈ commandsOf path content) :
    ∃ (line : Bytes) (i : Nat), (Source.cleanUp (Source.linesOf content))[i]? = some line ∧
      d.text = line ∧ d.trace = [⟨path, line, i⟩] := by
  unfold commandsOf at h
  simp only at h
  split at h
  · obtain ⟨own, hown, hd⟩ := List.mem_filterMap.1 h
    unfold symbol? at hd
    split at hd
    · cases hd
    · split at hd
      · cases hd
      · obtain rfl := Option.some.inj hd
        obtain ⟨line, i, hline, htext, htrace⟩ := trace_of_mem_commands hown
        exact ⟨line, i, hline, htext, htrace⟩
  · exact trace_of_mem_commands h

/-! ## The way to a command -/

/-- The places of the files on the way to a command. -/
def places (files : FileTree) (c : Command) : List (List Bytes) :=
  c.trace.map fun frame => files.absolute frame.file

/-- A command with a way to it on which no file comes twice, and on which all files but the
outermost one are there. -/
structure Traced (files : FileTree) (c : Command) : Prop where
  nonempty : c.trace ≠ []
  nodup : (places files c).Nodup
  known : ∀ place ∈ (places files c).dropLast, place ∈ files.files.map Prod.fst

theorem Traced.length_le (h : Traced files c) : c.trace.length ≤ files.files.length + 1 := by
  have hnodup : (places files c).dropLast.Nodup := h.nodup.sublist (List.dropLast_sublist _)
  have hle := (hnodup.subperm h.known).length_le
  simp only [List.length_dropLast, places, List.length_map] at hle
  omega

theorem traced_of_mem_commands {path : Bytes} {lines : List Bytes}
    (h : c ∈ Source.commands path lines) : Traced files c ∧ c.trace.length = 1 := by
  obtain ⟨line, i, -, -, htrace⟩ := trace_of_mem_commands h
  refine ⟨⟨?_, ?_, ?_⟩, ?_⟩
  · simp [htrace]
  · simp [places, htrace]
  · simp [places, htrace]
  · simp [htrace]

/-- An included file is a new one on the way to its commands. -/
theorem Traced.brought (hc : Traced files c) {path content : Bytes}
    (hopen : open? files c = .ok (path, content)) {d : Command} (hd : d ∈ brought c path content) :
    Traced files d ∧ d.trace.length = c.trace.length + 1 := by
  obtain ⟨hfresh, hread⟩ := open?_eq_ok hopen
  obtain ⟨own, hown, rfl⟩ := List.mem_map.1 hd
  obtain ⟨line, i, -, -, htrace⟩ := trace_of_mem_commandsOf hown
  have hplaces : places files (own.broughtBy c) = files.absolute path :: places files c := by
    simp [places, Command.broughtBy, htrace]
  have hne : places files c ≠ [] := by
    simpa [places] using hc.nonempty
  refine ⟨⟨?_, ?_, ?_⟩, ?_⟩
  · simp [Command.broughtBy, htrace]
  · rw [hplaces]
    refine List.nodup_cons.2 ⟨fun hmem => ?_, hc.nodup⟩
    obtain ⟨frame, hframe, hsame⟩ := List.mem_map.1 hmem
    exact hfresh frame hframe hsame
  · rw [hplaces, List.dropLast_cons_of_ne_nil hne]
    refine List.forall_mem_cons.2 ⟨?_, hc.known⟩
    obtain ⟨before, after, hentries, -⟩ := List.lookup_eq_some_iff.1 (FileTree.lookup_of_read hread)
    rw [hentries]
    simp
  · simp [Command.broughtBy, htrace]

/-! ## The loop -/

/-- The state of the loop: the commands it has passed, whether a function definition is open, and
the commands ahead. -/
structure Scan where
  passed : List Command
  inside : Bool
  ahead : List Command

/-- One turn of the loop: it passes the first command ahead, or puts the commands of the file it
names in its place. -/
def turn (files : FileTree) (s : Scan) : Option (Except Failure Scan) := match s.ahead with
  | [] => none
  | c :: rest =>
    if c.name = ascii "FUNCTION" then some (.ok ⟨s.passed ++ [c], true, rest⟩)
    else if c.name = ascii "ENDFUNCTION" then some (.ok ⟨s.passed ++ [c], false, rest⟩)
    else if c.name = ascii "INCLUDE" && !s.inside then
      some ((c.blame (open? files c)).map fun file =>
        ⟨s.passed, s.inside, brought c file.1 file.2 ++ rest⟩)
    else some (.ok ⟨s.passed ++ [c], s.inside, rest⟩)

/-- Whether the loop comes from one state to another. -/
abbrev Run (files : FileTree) : Scan → Scan → Prop := Loop.Run (turn files)

/-- Whether a failure is that of the first Include outside of functions whose file cannot be
opened. -/
def FirstFailing (files : FileTree) (cmds : List Command) (f : Failure) : Prop :=
  ∃ s rest, Run files ⟨[], false, cmds⟩ s ∧ s.ahead = f.command :: rest ∧ s.inside = false ∧
    f.command.name = ascii "INCLUDE" ∧ open? files f.command = .error f.kind

/-! ## Turns of the loop -/

section Turns

variable {passed rest : List Command} {inside : Bool}

theorem turn_opens (h : c.name = ascii "FUNCTION") :
    turn files ⟨passed, inside, c :: rest⟩ = some (.ok ⟨passed ++ [c], true, rest⟩) := by
  simp only [turn]
  rw [if_pos h]

theorem turn_closes (h : c.name = ascii "ENDFUNCTION") :
    turn files ⟨passed, inside, c :: rest⟩ = some (.ok ⟨passed ++ [c], false, rest⟩) := by
  have hfunction : c.name ≠ ascii "FUNCTION" := by
    rw [h]
    decide
  simp only [turn]
  rw [if_neg hfunction, if_pos h]

theorem turn_include (h : c.name = ascii "INCLUDE") :
    turn files ⟨passed, false, c :: rest⟩ = some ((c.blame (open? files c)).map fun file =>
      ⟨passed, false, brought c file.1 file.2 ++ rest⟩) := by
  have hfunction : c.name ≠ ascii "FUNCTION" := by
    rw [h]
    decide
  have hend : c.name ≠ ascii "ENDFUNCTION" := by
    rw [h]
    decide
  simp only [turn]
  rw [if_neg hfunction, if_neg hend, if_pos (by simp [h])]

theorem turn_other (hfunction : c.name ≠ ascii "FUNCTION") (hend : c.name ≠ ascii "ENDFUNCTION")
    (hinclude : c.name = ascii "INCLUDE" → inside = true) :
    turn files ⟨passed, inside, c :: rest⟩ = some (.ok ⟨passed ++ [c], inside, rest⟩) := by
  have hkept : ¬ (c.name = ascii "INCLUDE" && !inside) = true := by
    intro h
    obtain ⟨hname, hflag⟩ := Bool.and_eq_true_iff.1 h
    rw [hinclude (of_decide_eq_true hname)] at hflag
    cases hflag
  simp only [turn]
  rw [if_neg hfunction, if_neg hend, if_neg hkept]

theorem turn_eq_error {s : Scan} {f : Failure} :
    turn files s = some (.error f) ↔ ∃ rest, s.ahead = f.command :: rest ∧ s.inside = false ∧
      f.command.name = ascii "INCLUDE" ∧ open? files f.command = .error f.kind := by
  obtain ⟨passed, inside, ahead⟩ := s
  constructor
  · intro h
    cases ahead with
    | nil => cases h
    | cons c rest =>
      simp only [turn] at h
      split at h
      · cases h
      · split at h
        · cases h
        · split at h
          · rename_i hinclude
            obtain ⟨hname, hinside⟩ := Bool.and_eq_true_iff.1 hinclude
            cases hopen : open? files c with
            | ok file =>
              rw [hopen] at h
              cases h
            | error kind =>
              rw [hopen] at h
              obtain rfl := Except.error.inj (Option.some.inj h)
              exact ⟨rest, rfl, by simpa using hinside, of_decide_eq_true hname, hopen⟩
          · cases h
  · rintro ⟨rest, rfl, rfl, hname, hopen⟩
    rw [turn_include hname, hopen]
    rfl

/-- A turn that passes a command, and then the turns of the commands after it. -/
theorem run_passed {flag after : Bool}
    (hturn : turn files ⟨passed, inside, c :: (cmds ++ rest)⟩ =
      some (.ok ⟨passed ++ [c], flag, cmds ++ rest⟩))
    (hrun : Run files ⟨passed ++ [c], flag, cmds ++ rest⟩ ⟨passed ++ [c] ++ out, after, rest⟩) :
    Run files ⟨passed, inside, c :: cmds ++ rest⟩ ⟨passed ++ c :: out, after, rest⟩ := by
  rw [List.append_assoc, List.singleton_append] at hrun
  exact .head hturn hrun

end Turns

/-! ## Recursive inclusion -/

/-- The commands that a list of commands stands for: an Include outside of functions stands for what
the commands of its file stand for, and any other command for itself. The flags tell whether a
function definition is open before and after. -/
inductive Includes (files : FileTree) : Bool → List Command → List Command → Bool → Prop
  | nil {inside : Bool} : Includes files inside [] [] inside
  | opens {inside after : Bool} {c : Command} {cmds out : List Command} :
      c.name = ascii "FUNCTION" → Includes files true cmds out after →
      Includes files inside (c :: cmds) (c :: out) after
  | closes {inside after : Bool} {c : Command} {cmds out : List Command} :
      c.name = ascii "ENDFUNCTION" → Includes files false cmds out after →
      Includes files inside (c :: cmds) (c :: out) after
  | file {between after : Bool} {c : Command} {path content : Bytes}
      {cmds included out : List Command} :
      c.name = ascii "INCLUDE" → open? files c = .ok (path, content) →
      Includes files false (brought c path content) included between →
      Includes files between cmds out after →
      Includes files false (c :: cmds) (included ++ out) after
  | other {inside after : Bool} {c : Command} {cmds out : List Command} :
      c.name ≠ ascii "FUNCTION" → c.name ≠ ascii "ENDFUNCTION" →
      (c.name = ascii "INCLUDE" → inside = true) → Includes files inside cmds out after →
      Includes files inside (c :: cmds) (c :: out) after

/-- Commands ahead of the loop are passed as the ones they stand for. -/
theorem Includes.run {inside after : Bool} (h : Includes files inside cmds out after) :
    ∀ passed rest, Run files ⟨passed, inside, cmds ++ rest⟩ ⟨passed ++ out, after, rest⟩ := by
  induction h with
  | nil =>
    intro passed rest
    rw [List.append_nil]
    exact .refl
  | opens hname _ ih =>
    intro passed rest
    exact run_passed (turn_opens hname) (ih _ rest)
  | closes hname _ ih =>
    intro passed rest
    exact run_passed (turn_closes hname) (ih _ rest)
  | @file between after c path content cmds included out hname hopen _ _ ihFile ih =>
    intro passed rest
    have hturn : turn files ⟨passed, false, c :: (cmds ++ rest)⟩ =
        some (.ok ⟨passed, false, brought c path content ++ (cmds ++ rest)⟩) := by
      rw [turn_include hname, hopen]
      rfl
    have hrest := ih (passed ++ included) rest
    rw [List.append_assoc] at hrest
    exact .head hturn ((ihFile passed (cmds ++ rest)).trans hrest)
  | other hfunction hend hinclude _ ih =>
    intro passed rest
    exact run_passed (turn_other hfunction hend hinclude) (ih _ rest)

/-! ## Expansion follows the loop -/

variable {inside : Bool} {nested : List Command → Bool → Stage Expansion}

/-- What the result of working in the includes of `cmds` says: it is what they stand for, or the
failure with which the loop ends when these commands are ahead. -/
def Follows (files : FileTree) (inside : Bool) (cmds : List Command)
    (result : Except Failure Expansion) : Prop :=
  (∃ out after, result = .ok (out, after) ∧ Includes files inside cmds out after) ∨
    ∃ f, result = .error f ∧ ∀ passed rest, ∃ s,
      Run files ⟨passed, inside, cmds ++ rest⟩ s ∧ turn files s = some (.error f)

theorem follows_nil : Follows files inside [] (.ok ([], inside)) := .inl ⟨[], inside, rfl, .nil⟩

/-- A command that the loop passes, and the commands after it. -/
theorem follows_passed {flag : Bool}
    (hturn : ∀ passed rest, turn files ⟨passed, inside, c :: rest⟩ =
      some (.ok ⟨passed ++ [c], flag, rest⟩))
    (hincludes : ∀ out after, Includes files flag cmds out after →
      Includes files inside (c :: cmds) (c :: out) after)
    (hrest : Follows files flag cmds (expandList files nested cmds flag).result) :
    Follows files inside (c :: cmds)
      (expandList files nested cmds flag >>= fun x =>
        (pure (c :: x.1, x.2) : Stage Expansion)).result := by
  rcases hrest with ⟨out, after, hout, hof⟩ | ⟨f, hf, hfail⟩
  · exact .inl ⟨c :: out, after, Stage.bind_result_eq_ok.2 ⟨_, hout, rfl⟩, hincludes out after hof⟩
  · refine .inr ⟨f, Stage.bind_result_eq_error.2 (.inl hf), fun passed rest => ?_⟩
    obtain ⟨s, hrun, hs⟩ := hfail (passed ++ [c]) rest
    exact ⟨s, .head (hturn passed (cmds ++ rest)) hrun, hs⟩

/-- The result of working in an Include outside of functions and the commands after it. -/
theorem expandList_include (hname : c.name = ascii "INCLUDE") :
    (expandList files nested (c :: cmds) false).result =
      c.blame (open? files c) >>= fun file =>
        (nested (brought c file.1 file.2) false).result >>= fun x =>
          (expandList files nested cmds x.2).result >>= fun y => .ok (x.1 ++ y.1, y.2) := by
  have hfunction : c.name ≠ ascii "FUNCTION" := by
    rw [hname]
    decide
  have hend : c.name ≠ ascii "ENDFUNCTION" := by
    rw [hname]
    decide
  rw [expandList, if_neg hfunction, if_neg hend, if_pos (by simp [hname])]
  simp only [Stage.bind_result]
  rfl

/-- An Include outside of functions, and the commands after it. -/
theorem follows_include (hname : c.name = ascii "INCLUDE")
    (hfile : ∀ path content, open? files c = .ok (path, content) →
      Follows files false (brought c path content) (nested (brought c path content) false).result)
    (hrest : ∀ flag, Follows files flag cmds (expandList files nested cmds flag).result) :
    Follows files false (c :: cmds) (expandList files nested (c :: cmds) false).result := by
  rw [expandList_include hname]
  cases hopen : open? files c with
  | error kind =>
    refine .inr ⟨⟨kind, c⟩, rfl, fun passed rest => ⟨_, .refl, ?_⟩⟩
    exact turn_eq_error.2 ⟨cmds ++ rest, rfl, rfl, hname, hopen⟩
  | ok file =>
    obtain ⟨path, content⟩ := file
    have hturn : ∀ passed rest, turn files ⟨passed, false, c :: (cmds ++ rest)⟩ =
        some (.ok ⟨passed, false, brought c path content ++ (cmds ++ rest)⟩) := by
      intro passed rest
      rw [turn_include hname, hopen]
      rfl
    rcases hfile path content hopen with ⟨included, between, hin, hof⟩ | ⟨f, hf, hfail⟩
    · rcases hrest between with ⟨out, after, hout, hof'⟩ | ⟨f, hf, hfail⟩
      · refine .inl ⟨included ++ out, after, ?_, .file hname hopen hof hof'⟩
        simp only [Command.blame, hin, hout, bind, Except.bind]
      · refine .inr ⟨f, ?_, fun passed rest => ?_⟩
        · simp only [Command.blame, hin, hf, bind, Except.bind]
        · obtain ⟨s, hrun, hs⟩ := hfail (passed ++ included) rest
          exact ⟨s, .head (hturn passed rest) ((hof.run passed (cmds ++ rest)).trans hrun), hs⟩
    · refine .inr ⟨f, ?_, fun passed rest => ?_⟩
      · simp only [Command.blame, hf, bind, Except.bind]
      · obtain ⟨s, hrun, hs⟩ := hfail passed (cmds ++ rest)
        exact ⟨s, .head (hturn passed rest) hrun, hs⟩

/-- Expansion follows the loop where it does so for the files it opens. -/
theorem follows_expandList
    (hnested : ∀ c ∈ cmds, ∀ path content, open? files c = .ok (path, content) →
      Follows files false (brought c path content) (nested (brought c path content) false).result)
    (inside : Bool) : Follows files inside cmds (expandList files nested cmds inside).result := by
  induction cmds generalizing inside with
  | nil => exact follows_nil
  | cons c cmds ih =>
    obtain ⟨hfile, hfiles⟩ := List.forall_mem_cons.1 hnested
    by_cases hinclude : c.name = ascii "INCLUDE" ∧ inside = false
    · obtain ⟨hname, rfl⟩ := hinclude
      exact follows_include hname hfile (ih hfiles)
    · have hkept : c.name = ascii "INCLUDE" → inside = true := by
        intro hname
        exact eq_true_of_ne_false fun hinside => hinclude ⟨hname, hinside⟩
      unfold expandList
      by_cases hfunction : c.name = ascii "FUNCTION"
      · rw [if_pos hfunction]
        exact follows_passed (fun _ _ => turn_opens hfunction) (fun _ _ h => .opens hfunction h)
          (ih hfiles true)
      · rw [if_neg hfunction]
        by_cases hend : c.name = ascii "ENDFUNCTION"
        · rw [if_pos hend]
          exact follows_passed (fun _ _ => turn_closes hend) (fun _ _ h => .closes hend h)
            (ih hfiles false)
        · rw [if_neg hend, if_neg (by simpa using hkept)]
          exact follows_passed (fun _ _ => turn_other hfunction hend hkept)
            (fun _ _ h => .other hfunction hend hkept h) (ih hfiles inside)

/-- **The depth is never used up.** A depth of at least the number of files that are not yet on the
way to the commands follows the loop. -/
theorem follows_expandWithin (depth : Nat) : ∀ cmds : List Command,
    (∀ c ∈ cmds, Traced files c ∧ files.files.length < c.trace.length + depth) →
      ∀ inside, Follows files inside cmds (expandWithin files depth cmds inside).result := by
  induction depth with
  | zero =>
    intro cmds hcmds inside
    refine follows_expandList (fun c hc path content hopen => ?_) inside
    obtain ⟨htraced, hlt⟩ := hcmds c hc
    -- a command of one more file would have more files on its way than there are
    have hnone : brought c path content = [] := by
      refine List.eq_nil_iff_forall_not_mem.2 fun d hd => ?_
      obtain ⟨hd, hlength⟩ := htraced.brought hopen hd
      have hle := hd.length_le
      omega
    rw [hnone]
    exact follows_nil
  | succ depth ih =>
    intro cmds hcmds inside
    refine follows_expandList (fun c hc path content hopen => ?_) inside
    obtain ⟨htraced, hlt⟩ := hcmds c hc
    refine ih _ (fun d hd => ?_) false
    obtain ⟨hd, hlength⟩ := htraced.brought hopen hd
    exact ⟨hd, by omega⟩

/-! ## Expansion is inclusion -/

/-- Expansion gives what the commands of a script stand for, or the failure with which the loop
ends. -/
theorem expand_cases (files : FileTree) (path : Bytes) (lines : List Bytes) :
    (∃ out after, (expand files (Source.commands path lines)).result = .ok out ∧
      Includes files false (Source.commands path lines) out after) ∨
    ∃ f s, (expand files (Source.commands path lines)).result = .error f ∧
      Run files ⟨[], false, Source.commands path lines⟩ s ∧ turn files s = some (.error f) := by
  have hfollows : Follows files false (Source.commands path lines)
      (expandWithin files files.files.length (Source.commands path lines) false).result := by
    refine follows_expandWithin _ _ (fun c hc => ?_) false
    have htraced : Traced files c ∧ c.trace.length = 1 := traced_of_mem_commands hc
    exact ⟨htraced.1, by omega⟩
  rcases hfollows with ⟨out, after, hout, hof⟩ | ⟨f, hf, hfail⟩
  · exact .inl ⟨out, after, Stage.bind_result_eq_ok.2 ⟨_, hout, rfl⟩, hof⟩
  · obtain ⟨s, hrun, hs⟩ := hfail [] []
    rw [List.append_nil] at hrun
    exact .inr ⟨f, s, Stage.bind_result_eq_error.2 (.inl hf), hrun, hs⟩

theorem Includes.run_start {after : Bool} (h : Includes files false cmds out after) :
    Run files ⟨[], false, cmds⟩ ⟨out, after, []⟩ := by
  have hrun := h.run [] []
  rwa [List.append_nil, List.nil_append] at hrun

/-- Where the loop stops, expansion gives the commands it has passed or the failure it stops
with. -/
theorem expand_of_run {path : Bytes} {lines : List Bytes} {s : Scan}
    (hrun : Run files ⟨[], false, Source.commands path lines⟩ s)
    (hstop : ∀ next, turn files s ≠ some (.ok next)) :
    (turn files s = none ∧ (expand files (Source.commands path lines)).result = .ok s.passed) ∨
      ∃ f, turn files s = some (.error f) ∧
        (expand files (Source.commands path lines)).result = .error f := by
  rcases expand_cases files path lines with ⟨out, after, hout, hof⟩ | ⟨f, s', hf, hrun', hs⟩
  · have hdone : turn files ⟨out, after, []⟩ = none := rfl
    obtain rfl := Loop.run_unique hrun hof.run_start hstop (by simp [hdone])
    exact .inl ⟨hdone, hout⟩
  · obtain rfl := Loop.run_unique hrun hrun' hstop (by simp [hs])
    exact .inr ⟨f, hs, hf⟩

theorem expand_eq_ok {path : Bytes} {lines : List Bytes} :
    (expand files (Source.commands path lines)).result = .ok out ↔
      ∃ after, Run files ⟨[], false, Source.commands path lines⟩ ⟨out, after, []⟩ := by
  constructor
  · intro h
    rcases expand_cases files path lines with ⟨other, after, hother, hof⟩ | ⟨f, s, hf, -, -⟩
    · obtain rfl := Except.ok.inj (h.symm.trans hother)
      exact ⟨after, hof.run_start⟩
    · rw [hf] at h
      cases h
  · rintro ⟨after, hrun⟩
    rcases expand_of_run hrun (by simp [turn]) with ⟨-, hout⟩ | ⟨f, hf, -⟩
    · exact hout
    · cases hf

theorem expand_eq_error {path : Bytes} {lines : List Bytes} {f : Failure} :
    (expand files (Source.commands path lines)).result = .error f ↔
      FirstFailing files (Source.commands path lines) f := by
  constructor
  · intro h
    rcases expand_cases files path lines with ⟨out, after, hout, -⟩ | ⟨g, s, hg, hrun, hs⟩
    · rw [hout] at h
      cases h
    · obtain rfl := Except.error.inj (h.symm.trans hg)
      obtain ⟨rest, hfails⟩ := turn_eq_error.1 hs
      exact ⟨s, rest, hrun, hfails⟩
  · rintro ⟨s, rest, hrun, hfails⟩
    have hs := turn_eq_error.2 ⟨rest, hfails⟩
    rcases expand_of_run hrun (by simp [hs]) with ⟨hnone, -⟩ | ⟨g, hg, hresult⟩
    · rw [hs] at hnone
      cases hnone
    · obtain rfl := Except.error.inj (Option.some.inj (hs.symm.trans hg))
      exact hresult

/-- **Expansion ends and is recursive inclusion.** For the commands of a script and any files, the
loop that works in the includes has no infinite run. It succeeds exactly if the script stands for
some commands, and these are the ones it passes and `expand` gives. It fails exactly at the first
Include outside of functions whose file cannot be opened; and the failure is that of a file that
includes itself exactly if this Include names its own file or one on the way to it. -/
theorem expand_is_inclusion (files : FileTree) (path : Bytes) (lines : List Bytes) :
    Acc (fun next now => turn files now = some (.ok next)) ⟨[], false, Source.commands path lines⟩ ∧
    (∀ out, (expand files (Source.commands path lines)).result = .ok out ↔
      ∃ after, Run files ⟨[], false, Source.commands path lines⟩ ⟨out, after, []⟩) ∧
    (∀ out, (expand files (Source.commands path lines)).result = .ok out ↔
      ∃ after, Includes files false (Source.commands path lines) out after) ∧
    (∀ f, (expand files (Source.commands path lines)).result = .error f ↔
      FirstFailing files (Source.commands path lines) f) ∧
    ∀ c, (expand files (Source.commands path lines)).result = .error ⟨.includeStackOverflow, c⟩ ↔
      (∃ kind, FirstFailing files (Source.commands path lines) ⟨kind, c⟩) ∧
      NamesAncestor files c := by
  refine ⟨?_, fun out => expand_eq_ok, fun out => ⟨fun h => ?_, ?_⟩, fun f => expand_eq_error,
    fun c => ?_⟩
  · rcases expand_cases files path lines with ⟨out, after, -, hof⟩ | ⟨f, s, -, hrun, hs⟩
    · exact Loop.acc_of_run hof.run_start (by simp [turn])
    · exact Loop.acc_of_run hrun (by simp [hs])
  · rcases expand_cases files path lines with ⟨other, after, hother, hof⟩ | ⟨f, s, hf, -, -⟩
    · obtain rfl := Except.ok.inj (h.symm.trans hother)
      exact ⟨after, hof⟩
    · rw [hf] at h
      cases h
  · rintro ⟨after, hof⟩
    exact expand_eq_ok.2 ⟨after, hof.run_start⟩
  · rw [expand_eq_error]
    constructor
    · intro hfirst
      obtain ⟨s, rest, -, -, -, -, hopen⟩ := id hfirst
      exact ⟨⟨_, hfirst⟩, open?_eq_overflow.1 hopen⟩
    · rintro ⟨⟨kind, s, rest, hrun, hahead, hinside, hname, hopen⟩, hancestor⟩
      obtain rfl := Except.error.inj (hopen.symm.trans (open?_eq_overflow.2 hancestor))
      exact ⟨s, rest, hrun, hahead, hinside, hname, hopen⟩

/-- Two files that include a third one. -/
def diamond : FileTree where
  here := []
  files := [([ascii "left"], ascii "Include \"tip\""), ([ascii "right"], ascii "Include \"tip\""),
    ([ascii "tip"], ascii "EndIf")]

-- a file may come in more than once, as long as it does not come in on the way to itself
example : (expand diamond (Source.commands (ascii "main")
    [ascii "Include \"left\"", ascii "Include \"right\""])).result.toOption.map (·.map (·.text)) =
      some [ascii "EndIf", ascii "EndIf"] := by
  decide

end Include

end CheatScript
