import CheatScript.Proofs.CompilerRuns
import CheatScript.Proofs.HeaderLines

/-!
# Proofs: function blocks

The function definitions of a script are the blocks from a FUNCTION command to the next ENDFUNCTION
command. Taking them out splits the commands exactly: those outside the blocks stay in their order,
and each function gets those inside its block. It is refused only if the blocks cannot be told
apart, a header is none, a name comes twice, or a block holds an INCLUDE.
-/

namespace CheatScript.Function

variable {cmds done rest : List Command} {c : Command} {functions fs : List Function} {f : Function}

/-! ## Delimiters -/

/-- Whether a command begins a block. -/
def opens (c : Command) : Bool := c.name == ascii "FUNCTION"

/-- Whether a command ends a block. -/
def closes (c : Command) : Bool := c.name == ascii "ENDFUNCTION"

/-- Whether a command begins or ends a block. -/
def delimits (c : Command) : Bool := opens c || closes c

theorem delimits_of_opens (h : opens c = true) : delimits c = true := by
  rw [delimits, h, Bool.true_or]

theorem delimits_of_closes (h : closes c = true) : delimits c = true := by
  rw [delimits, h, Bool.or_true]

theorem closes_of_opens (h : opens c = true) : closes c = false := by
  rw [opens, beq_iff_eq] at h
  rw [closes, h]
  rfl

/-- The names of the commands that begin and end blocks. -/
def delimiters (cmds : List Command) : List Bytes := (cmds.filter delimits).map (·.name)

/-- `n` times FUNCTION and ENDFUNCTION. -/
def pairs (n : Nat) : List Bytes :=
  (List.replicate n [ascii "FUNCTION", ascii "ENDFUNCTION"]).flatten

/-- Whether FUNCTION and ENDFUNCTION alternate, from a FUNCTION to an ENDFUNCTION. -/
def Alternates (cmds : List Command) : Prop := ∃ n, delimiters cmds = pairs n

theorem delimiters_append (done cmds : List Command) :
    delimiters (done ++ cmds) = delimiters done ++ delimiters cmds := by
  simp [delimiters]

theorem delimiters_cons_of_not (h : delimits c = false) (cmds : List Command) :
    delimiters (c :: cmds) = delimiters cmds := by
  simp [delimiters, h]

theorem delimiters_cons_of_opens (h : opens c = true) (cmds : List Command) :
    delimiters (c :: cmds) = ascii "FUNCTION" :: delimiters cmds := by
  have hname : c.name = ascii "FUNCTION" := by simpa [opens] using h
  simp [delimiters, delimits, h, hname]

theorem delimiters_cons_of_closes (h : closes c = true) (cmds : List Command) :
    delimiters (c :: cmds) = ascii "ENDFUNCTION" :: delimiters cmds := by
  have hname : c.name = ascii "ENDFUNCTION" := by simpa [closes] using h
  simp [delimiters, delimits, h, hname]

theorem countP_opens (cmds : List Command) :
    cmds.countP opens = (delimiters cmds).count (ascii "FUNCTION") := by
  rw [delimiters, List.count, List.countP_map, List.countP_filter]
  refine List.countP_congr fun c _ => ?_
  show opens c = true ↔ (opens c && (opens c || closes c)) = true
  cases opens c <;> simp

theorem countP_closes (cmds : List Command) :
    cmds.countP closes = (delimiters cmds).count (ascii "ENDFUNCTION") := by
  rw [delimiters, List.count, List.countP_map, List.countP_filter]
  refine List.countP_congr fun c _ => ?_
  show closes c = true ↔ (closes c && (opens c || closes c)) = true
  cases closes c <;> simp

theorem pairs_succ (n : Nat) : pairs (n + 1) = ascii "FUNCTION" :: ascii "ENDFUNCTION" :: pairs n :=
  rfl

theorem pairs_add (n k : Nat) : pairs (n + k) = pairs n ++ pairs k := by
  rw [pairs, List.replicate_add, List.flatten_append]
  rfl

theorem count_pairs (n : Nat) :
    (pairs n).count (ascii "FUNCTION") = n ∧ (pairs n).count (ascii "ENDFUNCTION") = n := by
  induction n with
  | zero => exact ⟨rfl, rfl⟩
  | succ n ih =>
    have hne : ascii "FUNCTION" ≠ ascii "ENDFUNCTION" := by decide
    rw [pairs_succ]
    simp [ih, hne, hne.symm]

/-- What follows pairs in a list of pairs is a list of pairs. -/
theorem exists_pairs_of_append {n m : Nat} {names : List Bytes} (h : pairs n ++ names = pairs m) :
    ∃ k, names = pairs k := by
  have hlength (n : Nat) : (pairs n).length = 2 * n := by
    induction n with
    | zero => rfl
    | succ n ih =>
      rw [pairs_succ, List.length_cons, List.length_cons, ih]
      omega
  have hle : n ≤ m := by
    have hlengths := congrArg List.length h
    rw [List.length_append, hlength, hlength] at hlengths
    omega
  obtain ⟨k, rfl⟩ := Nat.exists_eq_add_of_le hle
  rw [pairs_add] at h
  exact ⟨k, List.append_cancel_left h⟩

/-! ## Commands outside and inside of blocks -/

/-- The commands that delimit no block and for which the commands before them pass a test. -/
def pick (test : List Command → Bool) (cmds : List Command) : List Command :=
  (cmds.zipIdx.filter fun p => !delimits p.1 && test (cmds.take p.2)).map Prod.fst

theorem pick_append (test : List Command → Bool) (done cmds : List Command) :
    pick test (done ++ cmds) = pick test done ++ pick (fun before => test (done ++ before))
      cmds := by
  rw [pick, List.zipIdx_append, List.filter_append, List.map_append, Nat.zero_add]
  congr 1
  · refine congrArg (List.map Prod.fst) (List.filter_congr fun p hp => ?_)
    rw [List.take_append_of_le_length (List.snd_lt_of_mem_zipIdx hp).le]
  · rw [List.zipIdx_eq_map_add, List.filter_map, List.map_map]
    refine congrArg (List.map Prod.fst) (List.filter_congr fun p _ => ?_)
    obtain ⟨c, i⟩ := p
    simp only [Function.comp_apply, List.take_length_add_append]

theorem pick_singleton (test : List Command → Bool) (c : Command) :
    pick test [c] = if !delimits c && test [] then [c] else [] := by
  unfold pick
  cases hpick : !delimits c && test [] <;> simp_all

/-- The commands outside of blocks: as many blocks have begun before them as have ended. -/
def outside (cmds : List Command) : List Command :=
  pick (fun before => before.countP opens == before.countP closes) cmds

/-- The commands inside of the block with an index: before them it has begun, and not ended. -/
def inside (n : Nat) (cmds : List Command) : List Command :=
  pick (fun before => before.countP opens == n + 1 && before.countP closes == n) cmds

/-! ## Definitions -/

/-- The function that a header introduces, still without body. -/
def introduced? (c : Command) : Option Function :=
  (header? c.text).map fun header => { name := header.1, parameters := parametersOf header.2 }

/-- The functions that the headers introduce. -/
def introduced (cmds : List Command) : List Function := (cmds.filter opens).filterMap introduced?

/-- The functions with the commands of their blocks. -/
def defined (cmds : List Command) : List Function :=
  (introduced cmds).mapIdx fun n f => { f with body := inside n cmds }

/-- What the definitions of a script have to satisfy besides. -/
structure Definable (cmds : List Command) : Prop where
  headed : ∀ c ∈ cmds, c.name = ascii "FUNCTION" → c.args ≠ [] ∧ (header? c.text).isSome = true
  distinct : ((introduced cmds).map (·.name)).Nodup
  noInclude : ∀ n, ∀ c ∈ inside n cmds, c.name ≠ ascii "INCLUDE"

theorem inside_concat (n : Nat) (done : List Command) (c : Command) :
    inside n (done ++ [c]) = inside n done ++
      if !delimits c && (done.countP opens == n + 1 && done.countP closes == n) then
      [c] else [] := by
  rw [inside, pick_append, pick_singleton, List.append_nil]
  rfl

theorem inside_concat_of_delimits (hc : delimits c = true) (n : Nat) (done : List Command) :
    inside n (done ++ [c]) = inside n done := by
  rw [inside_concat, hc]
  exact List.append_nil _

/-- The commands outside of blocks among `cmds`, where `done` stand before them. -/
def outsideAfter (done cmds : List Command) : List Command :=
  pick (fun before => (done ++ before).countP opens == (done ++ before).countP closes) cmds

theorem outsideAfter_cons (done : List Command) (c : Command) (cmds : List Command) :
    outsideAfter done (c :: cmds) =
      (if !delimits c && done.countP opens == done.countP closes then [c] else []) ++
        outsideAfter (done ++ [c]) cmds := by
  have hsplit := pick_append
    (fun before => (done ++ before).countP opens == (done ++ before).countP closes) [c] cmds
  simp only [pick_singleton, List.append_nil, ← List.append_assoc] at hsplit
  exact hsplit

/-- Nothing is inside a block that has not begun. -/
theorem inside_eq_nil {n : Nat} (h : done.countP opens ≤ n) : inside n done = [] := by
  refine List.map_eq_nil_iff.2 (List.filter_eq_nil_iff.2 fun p _ htest => ?_)
  have hle : (done.take p.2).countP opens ≤ done.countP opens :=
    (List.take_sublist p.2 done).countP_le
  simp only [Bool.and_eq_true, beq_iff_eq] at htest
  omega

theorem introduced_append (done cmds : List Command) :
    introduced (done ++ cmds) = introduced done ++ introduced cmds := by
  simp [introduced]

theorem introduced_singleton_of_opens (hc : opens c = true) :
    introduced [c] = (introduced? c).toList := by
  cases hheader : introduced? c <;> simp [introduced, hc, hheader]

theorem introduced_singleton_of_not (hc : opens c = false) : introduced [c] = [] := by
  simp [introduced, hc]

theorem body_of_introduced? (h : introduced? c = some f) : f.body = [] := by
  obtain ⟨header, -, rfl⟩ := Option.map_eq_some_iff.1 h
  rfl

theorem map_name_defined (cmds : List Command) :
    (defined cmds).map (·.name) = (introduced cmds).map (·.name) :=
  List.ext_getElem (by simp [defined]) (by simp [defined])

/-- A list of commands that can be extended meets the conditions itself. -/
theorem Definable.of_append (h : Definable (done ++ cmds)) : Definable done where
  headed := fun c hc => h.headed c (List.mem_append_left cmds hc)
  distinct := by
    have hdistinct := h.distinct
    rw [introduced_append, List.map_append] at hdistinct
    exact (List.nodup_append.1 hdistinct).1
  noInclude := fun n c hc => by
    refine h.noInclude n c ?_
    rw [inside, pick_append]
    exact List.mem_append_left _ hc

theorem introduced_concat_of_opens (hc : opens c = true) (hf : introduced? c = some f)
    (done : List Command) : introduced (done ++ [c]) = introduced done ++ [f] := by
  rw [introduced_append, introduced_singleton_of_opens hc, hf]
  rfl

theorem introduced_concat_of_not (hc : opens c = false) (done : List Command) :
    introduced (done ++ [c]) = introduced done := by
  rw [introduced_append, introduced_singleton_of_not hc, List.append_nil]

theorem Definable.concat (h : Definable done) (hc : opens c = false)
    (hinside : ∀ n, ∀ d ∈ inside n (done ++ [c]), d.name ≠ ascii "INCLUDE") :
    Definable (done ++ [c]) where
  headed := by
    refine List.forall_mem_append.2 ⟨h.headed, List.forall_mem_singleton.2 fun hname => ?_⟩
    simp [opens, hname] at hc
  distinct := by
    rw [introduced_concat_of_not hc]
    exact h.distinct
  noInclude := hinside

theorem Definable.concat_of_opens (h : Definable done) (hc : opens c = true) (hargs : c.args ≠ [])
    (hf : introduced? c = some f) (hnew : f.name ∉ (introduced done).map (·.name)) :
    Definable (done ++ [c]) where
  headed := by
    refine List.forall_mem_append.2 ⟨h.headed, List.forall_mem_singleton.2 fun _ => ?_⟩
    obtain ⟨header, hheader, -⟩ := Option.map_eq_some_iff.1 hf
    exact ⟨hargs, by rw [hheader]; rfl⟩
  distinct := by
    rw [introduced_concat_of_opens hc hf, List.map_append, List.map_singleton, List.nodup_append]
    refine ⟨h.distinct, by simp, fun name hname other hother => ?_⟩
    rw [List.mem_singleton.1 hother]
    exact fun heq => hnew (heq ▸ hname)
  noInclude := by
    intro n
    rw [inside_concat_of_delimits (delimits_of_opens hc)]
    exact h.noInclude n

/-! ## Extraction in one pass -/

/-- Extraction has read the commands `done`: it has found `functions`, and `current` is open. -/
structure Reads (done : List Command) (functions : List Function) (current : Option Function) :
    Prop where
  delimiters_eq : delimiters done = pairs functions.length ++ current.toList.map fun _ =>
    ascii "FUNCTION"
  defined_eq : functions ++ current.toList = defined done
  definable : Definable done

namespace Reads

variable {current : Option Function}

theorem exists_pairs (h : Reads done functions current) (halternates : Alternates (done ++ cmds)) :
    ∃ k, (current.toList.map fun _ => ascii "FUNCTION") ++ delimiters cmds = pairs k := by
  obtain ⟨m, hm⟩ := halternates
  rw [delimiters_append, h.delimiters_eq, List.append_assoc] at hm
  exact exists_pairs_of_append hm

theorem countP_none (h : Reads done functions none) :
    done.countP opens = functions.length ∧ done.countP closes = functions.length := by
  have hdelimiters := h.delimiters_eq
  rw [Option.toList_none, List.map_nil, List.append_nil] at hdelimiters
  rw [countP_opens, countP_closes, hdelimiters]
  exact count_pairs _

theorem countP_some (h : Reads done functions (some f)) :
    done.countP opens = functions.length + 1 ∧ done.countP closes = functions.length := by
  rw [countP_opens, countP_closes, h.delimiters_eq, List.count_append, List.count_append,
    (count_pairs _).1, (count_pairs _).2]
  exact ⟨rfl, rfl⟩

theorem map_name (h : Reads done functions none) :
    functions.map (·.name) = (introduced done).map (·.name) := by
  rw [← map_name_defined, ← h.defined_eq, Option.toList_none, List.append_nil]

theorem outsideAfter_none (h : Reads done functions none) (hc : delimits c = false)
    (cmds : List Command) :
    outsideAfter done (c :: cmds) = c :: outsideAfter (done ++ [c]) cmds := by
  obtain ⟨hopens, hcloses⟩ := h.countP_none
  rw [outsideAfter_cons, hc, hopens, hcloses, if_pos (by simp)]
  rfl

theorem outsideAfter_some (h : Reads done functions (some f)) (c : Command) (cmds : List Command) :
    outsideAfter done (c :: cmds) = outsideAfter (done ++ [c]) cmds := by
  obtain ⟨hopens, hcloses⟩ := h.countP_some
  rw [outsideAfter_cons, hopens, hcloses, if_neg (by simp)]
  rfl

/-- A command that begins no block and is inside of none changes no definition. -/
theorem skip (h : Reads done functions current) {functions' : List Function}
    {current' : Option Function}
    (hopens : opens c = false) (hinside : ∀ n, inside n (done ++ [c]) = inside n done)
    (hdelimiters : delimiters (done ++ [c]) =
      pairs functions'.length ++ current'.toList.map fun _ => ascii "FUNCTION")
    (hfunctions : functions' ++ current'.toList = functions ++ current.toList) :
    Reads (done ++ [c]) functions' current' := by
  refine ⟨hdelimiters, ?_, h.definable.concat hopens fun n => ?_⟩
  · rw [hfunctions, h.defined_eq, defined, defined, introduced_concat_of_not hopens]
    simp only [hinside]
  · rw [hinside]
    exact h.definable.noInclude n

theorem plain (h : Reads done functions none) (hc : delimits c = false) :
    Reads (done ++ [c]) functions none := by
  have hopens : opens c = false := (Bool.or_eq_false_iff.1 hc).1
  refine h.skip hopens (fun n => ?_) ?_ rfl
  · obtain ⟨hcountOpens, hcountCloses⟩ := h.countP_none
    rw [inside_concat, if_neg, List.append_nil]
    simp only [Bool.and_eq_true, beq_iff_eq]
    omega
  · rw [delimiters_append, h.delimiters_eq, delimiters_cons_of_not hc]
    simp [delimiters]

theorem ends (h : Reads done functions (some f)) (hc : closes c = true) :
    Reads (done ++ [c]) (functions ++ [f]) none := by
  have hopens : opens c = false := by
    cases hopens : opens c with
    | false => rfl
    | true => rw [closes_of_opens hopens] at hc; cases hc
  refine h.skip hopens (fun n => inside_concat_of_delimits (delimits_of_closes hc) n done) ?_
    (by simp)
  rw [delimiters_append, h.delimiters_eq, delimiters_cons_of_closes hc, List.length_append,
    List.length_singleton, pairs_add, List.append_assoc]
  exact (List.append_nil _).symm

theorem begins (h : Reads done functions none) (hc : opens c = true) (hargs : c.args ≠ [])
    (hf : introduced? c = some f) (hnew : f.name ∉ functions.map (·.name)) :
    Reads (done ++ [c]) functions (some f) := by
  have hfunctions : functions = defined done := by simpa using h.defined_eq
  have hlength : (introduced done).length = functions.length := by
    simp [hfunctions, defined]
  refine ⟨?_, ?_, h.definable.concat_of_opens hc hargs hf (h.map_name ▸ hnew)⟩
  · rw [delimiters_append, h.delimiters_eq, delimiters_cons_of_opens hc]
    simp [delimiters]
  · have hbody : inside functions.length done = f.body := by
      rw [inside_eq_nil h.countP_none.1.le, body_of_introduced? hf]
    rw [defined, introduced_concat_of_opens hc hf, List.mapIdx_concat, hlength]
    simp only [inside_concat_of_delimits (delimits_of_opens hc), hbody]
    rw [hfunctions]
    rfl

theorem adds (h : Reads done functions (some f)) (hc : delimits c = false)
    (hinclude : c.name ≠ ascii "INCLUDE") :
    Reads (done ++ [c]) functions (some { f with body := f.body ++ [c] }) := by
  have hopens : opens c = false := (Bool.or_eq_false_iff.1 hc).1
  have hinside (n : Nat) : inside n (done ++ [c]) =
      inside n done ++ if n = functions.length then [c] else [] := by
    obtain ⟨hcountOpens, hcountCloses⟩ := h.countP_some
    have htest : (!delimits c && (done.countP opens == n + 1 && done.countP closes == n)) =
        decide (n = functions.length) := by
      rw [hc, hcountOpens, hcountCloses, Bool.eq_iff_iff]
      simp only [Bool.not_false, Bool.true_and, Bool.and_eq_true, beq_iff_eq, decide_eq_true_eq]
      omega
    rw [inside_concat, htest]
    simp only [decide_eq_true_eq]
  refine ⟨?_, ?_, h.definable.concat hopens fun n d hd => ?_⟩
  · rw [delimiters_append, h.delimiters_eq, delimiters_cons_of_not hc]
    simp [delimiters]
  · -- the open function is the last one, and only its body grows
    have hsame : functions.mapIdx (fun n g =>
        { g with body := g.body ++ if n = functions.length then [c] else [] }) = functions := by
      refine List.ext_getElem (by simp) fun i hi hi' => ?_
      rw [List.getElem_mapIdx, if_neg hi'.ne, List.append_nil]
    calc functions ++ [{ f with body := f.body ++ [c] }]
        = (functions ++ [f]).mapIdx (fun n g =>
            { g with body := g.body ++ if n = functions.length then [c] else [] }) := by
          rw [List.mapIdx_concat, hsame, if_pos rfl]
      _ = (defined done).mapIdx (fun n g =>
            { g with body := g.body ++ if n = functions.length then [c] else [] }) := by
          rw [← h.defined_eq]
          rfl
      _ = defined (done ++ [c]) := by
          rw [defined, defined, List.mapIdx_mapIdx, introduced_concat_of_not hopens]
          simp only [hinside]
          rfl
  · rw [hinside] at hd
    rcases List.mem_append.1 hd with hd | hd
    · exact h.definable.noInclude n d hd
    · split at hd
      · rw [List.mem_singleton.1 hd]
        exact hinclude
      · cases hd

end Reads

theorem ofHeader_eq_ok : ofHeader c = .ok f ↔ c.args ≠ [] ∧ introduced? c = some f := by
  unfold ofHeader introduced?
  by_cases hargs : c.args = []
  · simp [hargs]
  · cases header? c.text <;> simp [hargs]

theorem start_eq_ok : start functions c cmds = .ok f ↔
    cmds.any closes = true ∧ c.args ≠ [] ∧ introduced? c = some f ∧
    f.name ∉ functions.map (·.name) := by
  have hcloses : cmds.any (·.name == ascii "ENDFUNCTION") = cmds.any closes := rfl
  rw [start, hcloses]
  cases cmds.any closes with
  | false => simp
  | true =>
    have hfound (name : Bytes) : (find? functions name).isSome = true ↔
        name ∈ functions.map (·.name) := by
      simp [find?, List.find?_isSome]
    rw [if_pos rfl, Outcome.bind_eq_ok]
    constructor
    · rintro ⟨g, hg, hnew⟩
      split at hnew
      · cases hnew
      · next hnot =>
        obtain rfl := Except.ok.inj hnew
        obtain ⟨hargs, hintroduced⟩ := ofHeader_eq_ok.1 hg
        exact ⟨rfl, hargs, hintroduced, (hfound _).not.1 hnot⟩
    · rintro ⟨-, hargs, hintroduced, hnew⟩
      refine ⟨f, ofHeader_eq_ok.2 ⟨hargs, hintroduced⟩, ?_⟩
      rw [if_neg ((hfound _).not.2 hnew)]
      rfl

theorem name_ne_of_delimits (h : delimits c = false) :
    c.name ≠ ascii "ENDFUNCTION" ∧ c.name ≠ ascii "FUNCTION" := by
  obtain ⟨hopens, hcloses⟩ := Bool.or_eq_false_iff.1 h
  exact ⟨by simpa [closes] using hcloses, by simpa [opens] using hopens⟩

theorem extractFrom_plain (hc : delimits c = false) :
    (extractFrom functions none (c :: cmds)).result = .ok (fs, rest) ↔
      ∃ more, rest = c :: more ∧ (extractFrom functions none cmds).result = .ok (fs, more) := by
  obtain ⟨hend, hfunction⟩ := name_ne_of_delimits hc
  rw [extractFrom, if_neg hend, if_neg hfunction, Stage.bind_result_eq_ok]
  constructor
  · rintro ⟨⟨fs', more⟩, hresult, hpure⟩
    obtain ⟨rfl, rfl⟩ := Prod.mk.inj (Stage.pure_result_eq_ok.1 hpure)
    exact ⟨more, rfl, hresult⟩
  · rintro ⟨more, rfl, hresult⟩
    exact ⟨(fs, more), hresult, rfl⟩

theorem extractFrom_begins (hc : opens c = true) :
    (extractFrom functions none (c :: cmds)).result = .ok (fs, rest) ↔
      ∃ f, start functions c cmds = .ok f ∧
        (extractFrom functions (some f) cmds).result = .ok (fs, rest) := by
  have hfunction : c.name = ascii "FUNCTION" := by simpa [opens] using hc
  have hend : c.name ≠ ascii "ENDFUNCTION" := by rw [hfunction]; decide
  rw [extractFrom, if_neg hend, if_pos hfunction, Stage.bind_result_eq_ok]
  refine exists_congr fun f => and_congr_left fun _ => ?_
  exact Command.blame_eq_ok

theorem extractFrom_ends (hc : closes c = true) :
    (extractFrom functions (some f) (c :: cmds)).result =
    (extractFrom (functions ++ [f]) none cmds).result := by
  have hend : c.name = ascii "ENDFUNCTION" := by simpa [closes] using hc
  rw [extractFrom, if_pos hend, Stage.bind_result]
  rfl

theorem extractFrom_adds (hc : delimits c = false) (hinclude : c.name ≠ ascii "INCLUDE") :
    extractFrom functions (some f) (c :: cmds) =
      extractFrom functions (some { f with body := f.body ++ [c] }) cmds := by
  obtain ⟨hend, hfunction⟩ := name_ne_of_delimits hc
  rw [extractFrom, if_neg hend, if_neg hfunction, if_neg hinclude]

theorem extractFrom_ne_ok_of_closes (hc : closes c = true) :
    (extractFrom functions none (c :: cmds)).result ≠ .ok (fs, rest) := by
  have hend : c.name = ascii "ENDFUNCTION" := by simpa [closes] using hc
  rw [extractFrom, if_pos hend]
  intro hresult
  cases hresult

theorem extractFrom_ne_ok_of_opens (hc : opens c = true) :
    (extractFrom functions (some f) (c :: cmds)).result ≠ .ok (fs, rest) := by
  have hfunction : c.name = ascii "FUNCTION" := by simpa [opens] using hc
  have hend : c.name ≠ ascii "ENDFUNCTION" := by rw [hfunction]; decide
  rw [extractFrom, if_neg hend, if_pos hfunction]
  intro hresult
  cases hresult

theorem extractFrom_ne_ok_of_include (hc : c.name = ascii "INCLUDE") :
    (extractFrom functions (some f) (c :: cmds)).result ≠ .ok (fs, rest) := by
  have hne : c.name ≠ ascii "ENDFUNCTION" ∧ c.name ≠ ascii "FUNCTION" := by rw [hc]; decide
  rw [extractFrom, if_neg hne.1, if_neg hne.2, if_pos hc]
  intro hresult
  cases hresult

theorem Reads.not_alternates_of_closes (h : Reads done functions none) (hc : closes c = true) :
    ¬ Alternates (done ++ c :: cmds) := by
  intro halternates
  obtain ⟨k, hk⟩ := h.exists_pairs halternates
  rw [delimiters_cons_of_closes hc] at hk
  cases k with
  | zero => cases hk
  | succ k => exact absurd (List.cons.inj hk).1 (by decide)

theorem Reads.not_alternates_of_opens (h : Reads done functions (some f)) (hc : opens c = true) :
    ¬ Alternates (done ++ c :: cmds) := by
  intro halternates
  obtain ⟨k, hk⟩ := h.exists_pairs halternates
  rw [delimiters_cons_of_opens hc] at hk
  cases k with
  | zero => cases hk
  | succ k => exact absurd (List.cons.inj (List.cons.inj hk).2).1 (by decide)

theorem Reads.not_definable_of_include (h : Reads done functions (some f)) (hc : delimits c = false)
    (hinclude : c.name = ascii "INCLUDE") : ¬ Definable (done ++ [c]) := by
  intro hdefinable
  obtain ⟨hopens, hcloses⟩ := h.countP_some
  refine hdefinable.noInclude functions.length c ?_ hinclude
  rw [inside_concat, hc, hopens, hcloses]
  simp

/-- A block that begins where the conditions hold can be started. -/
theorem Reads.exists_start (h : Reads done functions none) (hc : opens c = true)
    (halternates : Alternates (done ++ c :: cmds)) (hdefinable : Definable (done ++ [c])) :
    ∃ f, start functions c cmds = .ok f := by
  obtain ⟨k, hk⟩ := h.exists_pairs halternates
  rw [delimiters_cons_of_opens hc] at hk
  -- behind the pairs comes a FUNCTION, so the next delimiter is an ENDFUNCTION
  have hcloses : cmds.any closes = true := by
    cases k with
    | zero => cases hk
    | succ k =>
      have hmem : ascii "ENDFUNCTION" ∈ delimiters cmds := by
        rw [(List.cons.inj hk).2]
        exact List.mem_cons_self
      obtain ⟨d, hd, hname⟩ := List.mem_map.1 hmem
      exact List.any_eq_true.2 ⟨d, (List.mem_filter.1 hd).1, by simp [closes, hname]⟩
  have hname : c.name = ascii "FUNCTION" := by simpa [opens] using hc
  obtain ⟨hargs, hheader⟩ := hdefinable.headed c (by simp) hname
  obtain ⟨f, hf⟩ : ∃ f, introduced? c = some f :=
    Option.isSome_iff_exists.1 (by simpa [introduced?] using hheader)
  have hdistinct := hdefinable.distinct
  rw [introduced_concat_of_opens hc hf, List.map_append, ← h.map_name,
    List.nodup_append] at hdistinct
  exact ⟨f,
    start_eq_ok.2 ⟨hcloses, hargs, hf, fun hmem => hdistinct.2.2 _ hmem f.name (by simp) rfl⟩⟩

theorem reads_nil : Reads [] [] none := ⟨rfl, rfl, nofun, List.nodup_nil, nofun⟩

/-- Where `done` has been read, the rest is accepted if and only if all commands together are blocks
that meet the conditions. -/
theorem extractFrom_eq_ok {current : Option Function} (h : Reads done functions current)
    (hclosed : current.isSome = true → cmds.any closes = true) :
    (extractFrom functions current cmds).result = .ok (fs, rest) ↔
      (Alternates (done ++ cmds) ∧ Definable (done ++ cmds)) ∧ fs = defined (done ++ cmds) ∧
        rest = outsideAfter done cmds := by
  -- what is known of the commands that were read goes along with those still to be read
  induction cmds generalizing done functions current rest with
  | nil =>
    cases current with
    | some f => cases hclosed rfl
    | none =>
      have hfunctions : functions = defined done := by simpa using h.defined_eq
      have halternates : Alternates done := ⟨functions.length, by simpa using h.delimiters_eq⟩
      have hresult : (extractFrom functions none []).result = .ok (functions, []) := rfl
      have houtside : outsideAfter done [] = [] := rfl
      rw [hresult, List.append_nil, houtside]
      simp [halternates, h.definable, hfunctions, eq_comm]
  | cons c cmds ih =>
    cases current with
    | none =>
      cases hcloses : closes c with
      | true =>
        exact iff_of_false (extractFrom_ne_ok_of_closes hcloses) fun hblocks =>
          h.not_alternates_of_closes hcloses hblocks.1.1
      | false =>
        cases hopens : opens c with
        | true =>
          have houtside : outsideAfter done (c :: cmds) = outsideAfter (done ++ [c]) cmds := by
            rw [outsideAfter_cons, delimits_of_opens hopens]
            rfl
          rw [extractFrom_begins hopens, houtside]
          constructor
          · rintro ⟨f, hstart, hresult⟩
            obtain ⟨hclosed, hargs, hf, hnew⟩ := start_eq_ok.1 hstart
            rw [List.append_cons]
            exact (ih (h.begins hopens hargs hf hnew) fun _ => hclosed).1 hresult
          · rintro ⟨⟨halternates, hdefinable⟩, hrest⟩
            have hstart := h.exists_start hopens halternates
            rw [List.append_cons] at halternates hdefinable hrest
            obtain ⟨f, hstart⟩ := hstart hdefinable.of_append
            obtain ⟨hclosed, hargs, hf, hnew⟩ := start_eq_ok.1 hstart
            have hreads := h.begins hopens hargs hf hnew
            exact ⟨f, hstart, (ih hreads fun _ => hclosed).2 ⟨⟨halternates, hdefinable⟩, hrest⟩⟩
        | false =>
          have hplain : delimits c = false := by rw [delimits, hopens, hcloses]; rfl
          have hmore (more : List Command) :=
            @ih (done ++ [c]) more functions none (h.plain hplain) nofun
          rw [extractFrom_plain hplain, h.outsideAfter_none hplain, List.append_cons]
          constructor
          · rintro ⟨more, rfl, hresult⟩
            obtain ⟨hblocks, hfs, rfl⟩ := (hmore more).1 hresult
            exact ⟨hblocks, hfs, rfl⟩
          · rintro ⟨hblocks, hfs, rfl⟩
            exact ⟨_, rfl, (hmore _).2 ⟨hblocks, hfs, rfl⟩⟩
    | some f =>
      cases hopens : opens c with
      | true =>
        exact iff_of_false (extractFrom_ne_ok_of_opens hopens) fun hblocks =>
          h.not_alternates_of_opens hopens hblocks.1.1
      | false =>
        rw [h.outsideAfter_some, List.append_cons]
        cases hcloses : closes c with
        | true =>
          rw [extractFrom_ends hcloses]
          exact ih (h.ends hcloses) nofun
        | false =>
          have hplain : delimits c = false := by rw [delimits, hopens, hcloses]; rfl
          by_cases hinclude : c.name = ascii "INCLUDE"
          · have hdefinable : ¬ Definable (done ++ [c] ++ cmds) := fun hdefinable =>
              h.not_definable_of_include hplain hinclude hdefinable.of_append
            exact iff_of_false (extractFrom_ne_ok_of_include hinclude) fun hblocks =>
              hdefinable hblocks.1.2
          · rw [extractFrom_adds hplain hinclude]
            refine ih (h.adds hplain hinclude) fun _ => ?_
            simpa [hcloses] using hclosed rfl

theorem extract_eq_ok : (extract cmds).result = .ok (fs, rest) ↔
    (Alternates cmds ∧ Definable cmds) ∧ fs = defined cmds ∧ rest = outside cmds :=
  extractFrom_eq_ok reads_nil nofun

end CheatScript.Function

namespace CheatScript.Compiler

/-! ## Extraction by the compiler -/

/-- Extraction changes nothing but the functions. -/
theorem extractFrom_frame (inside : Bool) (cmds : List Command) (c : Compiler) :
    ∃ functions, (extractFrom inside cmds c).2 = { c with functions := functions } := by
  induction cmds generalizing inside c with
  | nil => exact ⟨c.functions, rfl⟩
  | cons cmd cmds ih =>
    cases inside with
    | false =>
      rw [extractFrom]
      split
      · exact ⟨c.functions, rfl⟩
      · split
        · rw [Task.read_bind]
          cases hstart : cmd.blame (Function.start c.functions cmd cmds) with
          | error f => exact ⟨c.functions, rfl⟩
          | ok f => exact ih true (c.addFunction f)
        · obtain ⟨functions, hframe⟩ := ih false c
          cases hrest : extractFrom false cmds c with
          | mk result d =>
            rw [hrest] at hframe
            cases result with
            | error f =>
              exact ⟨functions, (congrArg Prod.snd (Task.bind_of_error hrest)).trans hframe⟩
            | ok rest => exact ⟨functions, (congrArg Prod.snd (Task.bind_of_ok hrest)).trans hframe⟩
    | true =>
      rw [extractFrom]
      split
      · exact ih false c
      · split
        · exact ⟨c.functions, rfl⟩
        · split
          · exact ⟨c.functions, rfl⟩
          · exact ih true (c.addToBody cmd)

/-- **Functions are taken out exactly.** The compiler accepts the commands if and only if FUNCTION
and ENDFUNCTION alternate, every FUNCTION line is a header, the names are distinct and no block
holds an INCLUDE. It then gives the commands outside of the blocks in their order, and its functions
are those of the blocks. A line of a header always has the arguments that are asked for. -/
theorem extractFrom_partitions (c d : Compiler) (cmds rest : List Command) :
    (extractFrom false cmds { c with functions := [] } = (.ok rest, d) ↔
      (Function.Alternates cmds ∧ Function.Definable cmds) ∧ rest = Function.outside cmds ∧
        d = { c with functions := Function.defined cmds }) ∧
    ∀ line, (Command.ofLine line).name = ascii "FUNCTION" → (Function.header? line).isSome = true →
      (Command.ofLine line).args ≠ [] := by
  refine ⟨?_, fun line => Function.args_ne_nil_of_header?⟩
  obtain ⟨functions, hframe⟩ := extractFrom_frame false cmds { c with functions := [] }
  have hagree := (extractFrom_mirrors cmds { c with functions := [] }).1.agree
  generalize extractFrom false cmds { c with functions := [] } = out at hframe hagree
  obtain ⟨result, e⟩ := out
  obtain rfl : e = { c with functions := functions } := hframe
  generalize hextract : (Function.extractFrom [] none cmds).result = blocks at hagree
  cases hagree with
  | error f =>
    refine iff_of_false nofun fun h => ?_
    cases hextract.symm.trans (Function.extract_eq_ok.2 ⟨h.1, rfl, rfl⟩)
  | @ok found blocks hab =>
    obtain ⟨rfl, -⟩ := hab
    obtain ⟨hblocks, hfunctions, rfl⟩ := Function.extract_eq_ok.1 hextract
    obtain rfl : functions = Function.defined cmds := hfunctions
    constructor
    · rintro ⟨⟩
      exact ⟨hblocks, rfl, rfl⟩
    · rintro ⟨-, rfl, rfl⟩
      rfl

end CheatScript.Compiler
