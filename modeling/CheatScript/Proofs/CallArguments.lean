import CheatScript.Proofs.CallExpansion

/-!
# Proofs: the arguments of a call

A call puts its arguments in the place of the parameters through a table of definitions, and a name
in the table is expanded until no bound name is left. So arguments take the place of all parameters
at once only where no argument names a parameter that is bound to something else: then a command of
the body is the one in which each token that names a parameter gives way to the terms of its
argument. An argument that names another parameter is replaced in turn, or has no expansion at all.
-/

namespace CheatScript

theorem tidyMark_eq (token : Bytes) :
    tidyMark token = (splitMark token).1 ++ (splitMark token).2 := by
  cases token with
  | nil => rfl
  | cons c s =>
    by_cases hmark : c = Byte.plus ∨ c = Byte.comma
    · simp [tidyMark, splitMark, hmark]
    · simp [tidyMark, splitMark, hmark]

/-! ## Tables without names among their values -/

namespace DefinitionTable

variable {t : DefinitionTable} {d : Definition} {name : Bytes} {k : Int}

theorem find?_of_definitions_eq (h : t.definitions name = [d]) (hk : d.position ≤ k) :
    t.find? name k = some d := by
  simp [find?, h, hk]

/-- A name whose values name nothing in the table stands for its values. -/
theorem expand_of_find? (hfind : t.find? name k = some d)
    (hfree : ∀ value ∈ d.values, t.declares (splitMark value).2 = false) :
    t.expand name k = some d.values := by
  obtain ⟨depth, hdepth⟩ : ∃ depth, t.byName.length = depth + 1 := by
    have hpos := List.length_pos_of_mem (mem_names_of_find? hfind)
    rw [List.length_map] at hpos
    exact ⟨t.byName.length - 1, by omega⟩
  rw [expand, hdepth, expandWithin, if_neg List.not_mem_nil, hfind]
  simp only
  rw [Outcome.mapM_eq_some_map (g := ([·])) fun value hvalue => by simp [hfree value hvalue],
    Option.map_some, ← List.flatMap_def, List.flatMap_singleton']

end DefinitionTable

namespace Call

variable {functions : List Function} {f : Function} {call c : Command}
  {parameters args : List Bytes} {body : List Command} {name arg : Bytes}

/-! ## Arguments in the place of parameters -/

/-- The tokens that take the place of a token of the body. Where it names a parameter these are the
terms of the argument, the first behind the mark of the token; other tokens stay, without the blanks
after their mark. -/
def passed (parameters args : List Bytes) (token : Bytes) : List Bytes :=
  match (parameters.zip args).lookup (splitMark token).2 with
  | none => [tidyMark token]
  | some arg => match valuesOf arg with
    | [] => []
    | first :: rest => ((splitMark token).1 ++ first) :: rest.map tidyMark

/-- A command of the body as the call brings it in, with all arguments in place. A call that passes
every parameter its own name changes no token. -/
def brought (f : Function) (args : List Bytes) (call c : Command) : Command :=
  { c.broughtBy call with
    position := 0
    callers := call.callers ++ [f.name]
    args := if args = f.parameters then c.args else c.args.flatMap (passed f.parameters args) }

/-- Whether arguments mean the same under the bindings of their call as without them. -/
structure Uncaptured (parameters args : List Bytes) : Prop where
  /-- Every argument has a term: it is not made of plus signs alone. -/
  spelled : ∀ arg ∈ args, valuesOf arg ≠ []
  /-- A parameter that gets its own name is one term. -/
  own : ∀ pair ∈ parameters.zip args, pair.2 = pair.1 → Byte.plus ∉ pair.2
  /-- No term of an argument names a parameter that stands for something else. -/
  free : ∀ pair ∈ parameters.zip args, pair.2 ≠ pair.1 → ∀ term ∈ valuesOf pair.2,
    ∀ other ∈ parameters.zip args, other.1 = (splitMark term).2 → other.2 = other.1

/-! ## The bindings of a call -/

theorem filter_bindings {pairs : List (Bytes × Bytes)} (hdistinct : (pairs.map Prod.fst).Nodup)
    (hpair : (name, arg) ∈ pairs) (hne : arg ≠ name) :
    (pairs.filterMap binding?).filter (fun d => decide (name = d.name)) =
      [⟨name, valuesOf arg, 0⟩] := by
  induction pairs with
  | nil => cases hpair
  | cons pair pairs ih =>
    obtain ⟨hnew, hdistinct⟩ := List.nodup_cons.1 hdistinct
    rcases List.mem_cons.1 hpair with rfl | hlater
    · have hothers : ∀ d ∈ pairs.filterMap binding?, ¬ decide (name = d.name) = true := by
        intro d hd hname
        obtain ⟨other, hother, hbound⟩ := List.mem_filterMap.1 hd
        obtain ⟨-, rfl⟩ := binding?_eq_some.1 hbound
        exact hnew (List.mem_map.2 ⟨other, hother, (of_decide_eq_true hname).symm⟩)
      rw [List.filterMap_cons_some (binding?_eq_some.2 ⟨hne, rfl⟩),
        List.filter_cons_of_pos (by simp), List.filter_eq_nil_iff.2 hothers]
    · have hname : name ≠ pair.1 := by
        rintro rfl
        exact hnew (List.mem_map.2 ⟨_, hlater, rfl⟩)
      cases hbound : binding? pair with
      | none => rw [List.filterMap_cons_none hbound, ih hdistinct hlater]
      | some d =>
        obtain ⟨-, rfl⟩ := binding?_eq_some.1 hbound
        rw [List.filterMap_cons_some hbound, List.filter_cons_of_neg (by simpa using hname),
          ih hdistinct hlater]

theorem map_fst_zip (hlength : args.length = parameters.length) :
    (parameters.zip args).map Prod.fst = parameters :=
  List.map_fst_zip hlength.ge

/-- A parameter that is bound stands for the terms of its argument. -/
theorem expand_bindings (hlength : args.length = parameters.length) (hdistinct : parameters.Nodup)
    (hfree : Uncaptured parameters args) (hpair : (name, arg) ∈ parameters.zip args)
    (hne : arg ≠ name) : (bindings parameters args).expand name 0 = some (valuesOf arg) := by
  have hdefinitions : (bindings parameters args).definitions name = [⟨name, valuesOf arg, 0⟩] := by
    rw [bindings_eq, DefinitionTable.definitions_ofList]
    · exact filter_bindings ((map_fst_zip hlength).symm ▸ hdistinct) hpair hne
    · refine List.Pairwise.filterMap _ (R := fun _ _ => True) ?_
        (List.pairwise_of_forall fun _ _ => trivial)
      intro pair pair' _ d hd d' hd' _
      obtain ⟨-, rfl⟩ := binding?_eq_some.1 hd
      obtain ⟨-, rfl⟩ := binding?_eq_some.1 hd'
      exact Int.le_refl 0
  have hfind := DefinitionTable.find?_of_definitions_eq hdefinitions (Int.le_refl 0)
  refine DefinitionTable.expand_of_find? hfind fun value hvalue => ?_
  rw [Bool.eq_false_iff]
  intro hdeclares
  obtain ⟨other, hother, hbound⟩ := declares_bindings.1 hdeclares
  exact hbound (hfree.free _ hpair hne value hvalue _ hother rfl)

theorem lookup_zip (hlength : args.length = parameters.length) (hdistinct : parameters.Nodup)
    (hpair : (name, arg) ∈ parameters.zip args) : (parameters.zip args).lookup name = some arg := by
  obtain ⟨before, after, hsplit⟩ := List.append_of_mem hpair
  refine List.lookup_eq_some_iff.2 ⟨before, after, hsplit, fun pair hbefore => ?_⟩
  have hkeys := map_fst_zip hlength
  rw [hsplit, List.map_append, List.map_cons] at hkeys
  rw [← hkeys] at hdistinct
  have hne := (List.nodup_append.1 hdistinct).2.2 pair.1 (List.mem_map_of_mem hbefore) name
    List.mem_cons_self
  simpa using Ne.symm hne

theorem valuesOf_of_not_mem (h : Byte.plus ∉ arg) : valuesOf arg = [arg] := by
  unfold valuesOf
  rw [if_neg]
  simpa using h

theorem passed_of_lookup {token first : Bytes} {rest : List Bytes}
    (hlookup : (parameters.zip args).lookup (splitMark token).2 = some arg)
    (hvalues : valuesOf arg = first :: rest) :
    passed parameters args token = ((splitMark token).1 ++ first) :: rest.map tidyMark := by
  simp only [passed, hlookup, hvalues]

/-- One pass through the bindings puts the arguments in place. -/
theorem substituteToken_bindings (hlength : args.length = parameters.length)
    (hdistinct : parameters.Nodup) (hfree : Uncaptured parameters args) (token : Bytes) :
    (bindings parameters args).substituteToken 0 token = some (passed parameters args token) := by
  unfold DefinitionTable.substituteToken
  simp only
  cases hlookup : (parameters.zip args).lookup (splitMark token).2 with
  | none =>
    have hunbound : ¬ (bindings parameters args).declares (splitMark token).2 = true := by
      intro hdeclares
      obtain ⟨arg, hpair, -⟩ := declares_bindings.1 hdeclares
      rw [lookup_zip hlength hdistinct hpair] at hlookup
      cases hlookup
    rw [if_neg hunbound]
    simp only [passed, hlookup]
  | some arg =>
    obtain ⟨before, after, hsplit, -⟩ := List.lookup_eq_some_iff.1 hlookup
    have hpair : ((splitMark token).2, arg) ∈ parameters.zip args := by simp [hsplit]
    by_cases hown : arg = (splitMark token).2
    · -- the own name of a parameter is not bound
      have hunbound : ¬ (bindings parameters args).declares (splitMark token).2 = true := by
        intro hdeclares
        obtain ⟨other, hother, hne⟩ := declares_bindings.1 hdeclares
        rw [lookup_zip hlength hdistinct hother] at hlookup
        exact hne ((Option.some.inj hlookup).trans hown)
      have hvalues : valuesOf arg = [arg] := valuesOf_of_not_mem (hfree.own _ hpair hown)
      rw [if_neg hunbound, passed_of_lookup hlookup hvalues, tidyMark_eq, hown]
      rfl
    · rw [if_pos (declares_bindings.2 ⟨arg, hpair, hown⟩),
        expand_bindings hlength hdistinct hfree hpair hown]
      cases hvalues : valuesOf arg with
      | nil => exact absurd hvalues (hfree.spelled arg (List.of_mem_zip hpair).2)
      | cons first rest => rw [passed_of_lookup hlookup hvalues]

theorem size_bindings (hlength : args.length = parameters.length) :
    (bindings parameters args).size = 0 ↔ args = parameters := by
  rw [bindings_eq, DefinitionTable.size_ofList, List.length_eq_zero_iff, List.filterMap_eq_nil_iff]
  constructor
  · intro hnone
    have hsame : List.Forall₂ (· = ·) parameters args := by
      refine List.forall₂_iff_zip.2 ⟨hlength.symm, fun {parameter arg} hpair => ?_⟩
      by_contra hne
      have hbound : binding? (parameter, arg) = some _ := binding?_eq_some.2 ⟨Ne.symm hne, rfl⟩
      rw [hnone _ hpair] at hbound
      cases hbound
    rw [List.forall₂_eq_eq_eq] at hsame
    exact hsame.symm
  · rintro rfl ⟨parameter, arg⟩ hpair
    have hsame : List.Forall₂ (· = ·) args args := List.forall₂_refl args
    exact if_pos ((List.forall₂_iff_zip.1 hsame).2 hpair).symm

/-! ## The commands of the body -/

theorem splitList_error {inString escaped : Bool} {list : List Char} {kind : Fault}
    (h : splitList inString escaped list = .error kind) : kind = .wrongSyntax := by
  induction list generalizing inString escaped with
  | nil => cases h
  | cons ch rest ih =>
    have hkeep {more : Except Fault (List (List Char))}
        {next : List (List Char) → Except Fault (List (List Char))}
        (hmore : (more >>= next) = .error kind)
        (hnext : ∀ args, next args ≠ .error kind) : more = .error kind := by
      rcases Outcome.bind_eq_error.1 hmore with hfirst | ⟨args, -, hargs⟩
      · exact hfirst
      · exact absurd hargs (hnext args)
    unfold splitList at h
    simp only at h
    split at h
    · exact ih (hkeep h fun args => by rintro ⟨⟩)
    · split at h
      · exact ih (hkeep h fun args => by cases args <;> rintro ⟨⟩)
      · split at h
        · exact ih (hkeep h fun args => by cases args <;> rintro ⟨⟩)
        · split at h
          · exact (Except.error.inj h).symm
          · exact ih (hkeep h fun args => by cases args <;> rintro ⟨⟩)

theorem listArguments_error {list : Bytes} {kind : Fault} (h : listArguments list = .error kind) :
    kind = .wrongSyntax := by
  rcases Outcome.bind_eq_error.1 h with hsplit | ⟨args, -, hargs⟩
  · exact splitList_error hsplit
  · cases hargs

theorem substituteList_of_ne {t : DefinitionTable} (h : c.name ≠ ascii "CALL") :
    substituteList t c = .ok c := by
  unfold substituteList
  rw [if_neg h]
  rfl

/-- Where every bound name has an expansion, only a malformed list of a nested call is refused. -/
theorem substituteList_error {t : DefinitionTable} {failure : Failure}
    (hexpand : ∀ name, t.declares name = true → ∃ values, t.expand name 0 = some values)
    (h : substituteList t c = .error failure) :
    c.name = ascii "CALL" ∧ failure = ⟨.wrongSyntax, c⟩ := by
  unfold substituteList at h
  split at h
  · rename_i hcall
    refine ⟨hcall, ?_⟩
    split at h
    · rename_i callee list rest hargs
      rcases Outcome.bind_eq_error.1 h with hlist | ⟨args, -, hlist⟩
      · cases harguments : listArguments list with
        | error kind =>
          rw [harguments] at hlist
          obtain rfl := listArguments_error harguments
          exact (Except.error.inj hlist).symm
        | ok args =>
          rw [harguments] at hlist
          cases hlist
      · have hnames (names : List Bytes) (list : Bytes) :
            ∃ done, names.foldlM (substituteName t) list = some done := by
          induction names generalizing list with
          | nil => exact ⟨list, rfl⟩
          | cons name names ih =>
            obtain ⟨next, hnext⟩ : ∃ next, substituteName t list name = some next := by
              unfold substituteName
              by_cases hdeclares : t.declares name = true
              · obtain ⟨values, hvalues⟩ := hexpand name hdeclares
                exact ⟨_, by rw [if_pos hdeclares, hvalues]; rfl⟩
              · exact ⟨list, if_neg hdeclares⟩
            rw [List.foldlM_cons, hnext]
            exact ih next
        simp only at hlist
        obtain ⟨done, hdone⟩ := hnames ((args.flatMap Token.splitTerms).map termName) list
        rw [hdone] at hlist
        cases hlist
    · cases h
  · cases h

/-- A call brings in the commands of the body with all arguments in place, and then looks at the
lists of nested calls. -/
theorem inline_eq (hresolve : resolve functions call = .ok (f, args))
    (hdistinct : f.parameters.Nodup) (hfree : Uncaptured f.parameters args) :
    inline functions call =
      if args = f.parameters then .ok (f.body.map (brought f args call))
      else (f.body.map (brought f args call)).mapM
        (substituteList (bindings f.parameters args)) := by
  obtain ⟨-, -, hlength⟩ := resolve_eq_ok hresolve
  have hstart : inline functions call =
      if (bindings f.parameters args).size = 0 then .ok (bodyOf f call)
      else (bindings f.parameters args).substituteAll (bodyOf f call) >>=
        List.mapM (substituteList (bindings f.parameters args)) := by
    unfold inline
    rw [Command.blame_eq_ok.2 hresolve]
    rfl
  by_cases hown : args = f.parameters
  · rw [hstart, if_pos ((size_bindings hlength).2 hown), if_pos hown, bodyOf]
    congr 2
    funext c
    rw [brought, if_pos hown]
    rfl
  · have hsubstituted : (bindings f.parameters args).substituteAll (bodyOf f call) =
        .ok (f.body.map (brought f args call)) := by
      rw [DefinitionTable.substituteAll, Outcome.mapM_eq_ok, bodyOf, List.forall₂_map_left_iff,
        List.forall₂_map_right_iff, List.forall₂_same]
      intro c hc
      rw [DefinitionTable.substitute,
        Outcome.mapM_eq_some_map fun token _ =>
          substituteToken_bindings hlength hdistinct hfree token,
        brought, if_neg hown, List.flatMap_def]
      rfl
    rw [hstart, if_neg (mt (size_bindings hlength).1 hown), if_neg hown, hsubstituted]
    rfl

/-- Where no argument names a parameter that stands for something else, all arguments take their
places at once: a command that is no call comes in with the terms of the arguments for the
parameters. No cycle is found, and the call is refused only for a nested call whose list of
arguments is malformed. -/
theorem inline_passed (hresolve : resolve functions call = .ok (f, args))
    (hdistinct : f.parameters.Nodup) (hfree : Uncaptured f.parameters args) :
    (∀ body, inline functions call = .ok body → List.Forall₂
      (fun c b => c.name ≠ ascii "CALL" → b = brought f args call c) f.body body) ∧
    ∀ failure, inline functions call = .error failure →
      ∃ c ∈ f.body, c.name = ascii "CALL" ∧ failure = ⟨.wrongSyntax, brought f args call c⟩ := by
  rw [inline_eq hresolve hdistinct hfree]
  obtain ⟨-, -, hlength⟩ := resolve_eq_ok hresolve
  have hexpand (name : Bytes) (hname : (bindings f.parameters args).declares name = true) :
      ∃ values, (bindings f.parameters args).expand name 0 = some values := by
    obtain ⟨arg, hpair, hne⟩ := declares_bindings.1 hname
    exact ⟨_, expand_bindings hlength hdistinct hfree hpair hne⟩
  split
  · refine ⟨fun body hbody => ?_, fun failure hfailure => ?_⟩
    · obtain rfl := Except.ok.inj hbody
      rw [List.forall₂_map_right_iff, List.forall₂_same]
      intro c _ _
      rfl
    · cases hfailure
  · refine ⟨fun body hbody => ?_, fun failure hfailure => ?_⟩
    · have hlists := List.forall₂_map_left_iff.1 (Outcome.mapM_eq_ok.1 hbody)
      refine hlists.imp fun c b hlist hcall => ?_
      have hkept := substituteList_of_ne (t := bindings f.parameters args)
        (c := brought f args call c) hcall
      rw [hkept] at hlist
      exact (Except.ok.inj hlist).symm
    · obtain ⟨b, hb, hrefused⟩ := Outcome.exists_of_mapM_eq_error hfailure
      obtain ⟨c, hc, rfl⟩ := List.mem_map.1 hb
      exact ⟨c, hc, substituteList_error hexpand hrefused⟩

/-- A function that writes a value to an address and to the word after it. -/
def put : Function :=
  ⟨ascii "Put", [ascii "addr", ascii "value"],
    [Command.ofLine (ascii "Write32 addr value"), Command.ofLine (ascii "Write32 addr + 4 value")]⟩

theorem inline_passed_put :
    let call := Command.ofLine (ascii "Call Put(base+0x10,value)")
    let args := [ascii "base+0x10", ascii "value"]
    Uncaptured put.parameters args ∧
      inline [put] call = .ok (put.body.map (brought put args call)) ∧
      (put.body.map (brought put args call)).map (·.args) =
        [[ascii "base", ascii "+0x10", ascii "value"],
          [ascii "base", ascii "+0x10", ascii "+4", ascii "value"]] := by
  intro call args
  have hfree : Uncaptured put.parameters args := ⟨by decide, by decide, by decide⟩
  have hresolve : resolve [put] call = .ok (put, args) := rfl
  obtain ⟨hok, herror⟩ := inline_passed hresolve (by decide) hfree
  have hwrites : ∀ c ∈ put.body, c.name ≠ ascii "CALL" := by decide
  refine ⟨hfree, ?_, rfl⟩
  cases hinline : inline [put] call with
  | error failure =>
    obtain ⟨c, hc, hcall, -⟩ := herror failure hinline
    exact absurd hcall (hwrites c hc)
  | ok body =>
    have hbody := (List.forall₂_and_left _ _).2 ⟨hwrites, hok body hinline⟩
    have hsame : List.Forall₂ (· = ·) (put.body.map (brought put args call)) body :=
      List.forall₂_map_left_iff.2 (hbody.imp fun c b hb => (hb.2 hb.1).symm)
    rw [List.forall₂_eq_eq_eq] at hsame
    rw [hsame]

/-! ## Arguments that name parameters -/

/-- A function that writes its second parameter to its first. -/
def store : Function := ⟨ascii "F", [ascii "a", ascii "b"], [Command.ofLine (ascii "Write32 a b")]⟩

/-- The argument `b` of the first parameter is taken for the second parameter, where both arguments
in place at once leave it as it is. Two arguments that name each other's parameters are a cycle. -/
theorem inline_captured :
    inline [store] (Command.ofLine (ascii "Call F(b,0x20)")) = .ok
      [{ Command.ofLine (ascii "Write32 a b") with
          args := [ascii "0x20", ascii "0x20"], callers := [ascii "F"] }] ∧
    (store.body.map (brought store [ascii "b", ascii "0x20"]
      (Command.ofLine (ascii "Call F(b,0x20)")))).map (·.args) = [[ascii "b", ascii "0x20"]] ∧
    inline [store] (Command.ofLine (ascii "Call F(b,a)")) = .error ⟨.setStackOverflow,
      { Command.ofLine (ascii "Write32 a b") with callers := [ascii "F"] }⟩ :=
  ⟨rfl, rfl, rfl⟩

end Call

end CheatScript
