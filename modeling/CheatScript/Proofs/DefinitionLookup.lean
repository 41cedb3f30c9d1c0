import CheatScript.Definition
import Mathlib.Data.Finset.Card
import Mathlib.Data.List.Induction
import Mathlib.Data.List.Perm.Subperm
import Mathlib.Data.List.TakeWhile

/-!
# Proofs: the table of definitions

What the table holds after definitions have been added one by one, and which definition a position
sees. A name that is seen is declared and is one of the names of the table, so no chain of names in
expansion is longer than the table, and expansion is the same as one without a bound on its depth.
-/

namespace CheatScript.DefinitionTable

variable {t : DefinitionTable} {d : Definition} {name : Bytes} {k : Int}

/-! ## Adding definitions -/

theorem lookup_addTo (d : Definition) (entries : List (Bytes × List Definition)) (name : Bytes) :
    (addTo d entries).lookup name =
      if name = d.name then some (insert d ((entries.lookup name).getD []))
      else entries.lookup name := by
  induction entries with
  | nil =>
    by_cases h : name = d.name
    · simp [addTo, h, insert]
    · simp [addTo, h]
  | cons entry rest ih =>
    obtain ⟨key, ds⟩ := entry
    by_cases hkey : key = d.name
    · by_cases h : name = d.name
      · simp [addTo, hkey, h]
      · simp [addTo, hkey, h, List.lookup_cons, beq_eq_false_iff_ne.2 h]
    · by_cases h : name = key
      · subst h
        simp [addTo, hkey]
      · simp [addTo, hkey, List.lookup_cons, beq_eq_false_iff_ne.2 h, ih]

theorem definitions_add (t : DefinitionTable) (d : Definition) (name : Bytes) :
    (t.add d).definitions name =
      if name = d.name then insert d (t.definitions name) else t.definitions name := by
  unfold definitions add
  rw [lookup_addTo]
  split <;> rfl

/-- A definition at the last position goes to the end. -/
theorem insert_of_forall_le {ds : List Definition} (h : ∀ e ∈ ds, e.position ≤ d.position) :
    insert d ds = ds ++ [d] := by
  have hall : ∀ e ∈ ds, decide (e.position ≤ d.position) = true := by simpa using h
  have htake : ds.takeWhile (fun e => decide (e.position ≤ d.position)) = ds :=
    List.takeWhile_eq_self_iff.2 hall
  have hdrop : ds.dropWhile (fun e => decide (e.position ≤ d.position)) = [] :=
    List.dropWhile_eq_nil_iff.2 hall
  rw [insert, htake, hdrop]

theorem ofList_append (ds : List Definition) (d : Definition) :
    ofList (ds ++ [d]) = (ofList ds).add d := by
  simp [ofList]

/-- Definitions stay in their order where those of one name do not go back. -/
theorem definitions_ofList {ds : List Definition}
    (h : ds.Pairwise (fun d e => d.name = e.name → d.position ≤ e.position)) (name : Bytes) :
    (ofList ds).definitions name = ds.filter (fun d => decide (name = d.name)) := by
  induction ds using List.reverseRecOn with
  | nil => rfl
  | append_singleton ds d ih =>
    obtain ⟨hds, -, hlast⟩ := List.pairwise_append.1 h
    rw [ofList_append, definitions_add, ih hds, List.filter_append]
    by_cases hname : name = d.name
    · have hle : ∀ e ∈ ds.filter (fun e => decide (name = e.name)), e.position ≤ d.position := by
        intro e he
        obtain ⟨hmem, hsame⟩ := List.mem_filter.1 he
        have hnames : e.name = d.name := (of_decide_eq_true hsame).symm.trans hname
        exact hlast e hmem d (List.mem_singleton_self d) hnames
      rw [if_pos hname, insert_of_forall_le hle]
      simp [hname]
    · simp [hname]

theorem declares_ofList {ds : List Definition} :
    (ofList ds).declares name = true ↔ ∃ d ∈ ds, d.name = name := by
  induction ds using List.reverseRecOn with
  | nil => simp [ofList, declares]
  | append_singleton ds d ih =>
    unfold declares at ih ⊢
    rw [ofList_append, add, lookup_addTo]
    by_cases hname : name = d.name
    · rw [if_pos hname]
      exact ⟨fun _ => ⟨d, by simp, hname.symm⟩, fun _ => rfl⟩
    · rw [if_neg hname, ih]
      simp [Ne.symm hname]

theorem size_addTo (d : Definition) (entries : List (Bytes × List Definition)) (n : Nat) :
    (addTo d entries).foldl (fun n entry => n + entry.2.length) n =
      entries.foldl (fun n entry => n + entry.2.length) n + 1 := by
  have hinsert (ds : List Definition) : (insert d ds).length = ds.length + 1 := by
    have hsplit := congrArg List.length
      (List.takeWhile_append_dropWhile (p := fun e => decide (e.position ≤ d.position)) (l := ds))
    simp only [insert, List.length_append, List.length_cons] at hsplit ⊢
    omega
  induction entries generalizing n with
  | nil => rfl
  | cons entry rest ih =>
    obtain ⟨key, ds⟩ := entry
    by_cases hkey : key = d.name
    · rw [addTo, if_pos hkey, List.foldl_cons, List.foldl_cons, hinsert]
      have hshift (m : Nat) : rest.foldl (fun n entry => n + entry.2.length) (m + 1) =
          rest.foldl (fun n entry => n + entry.2.length) m + 1 := by
        clear ih
        induction rest generalizing m with
        | nil => rfl
        | cons entry rest ih =>
          rw [List.foldl_cons, List.foldl_cons, ← ih, Nat.add_right_comm]
      exact hshift (n + ds.length)
    · rw [addTo, if_neg hkey, List.foldl_cons, List.foldl_cons, ih]

theorem size_ofList (ds : List Definition) : (ofList ds).size = ds.length := by
  induction ds using List.reverseRecOn with
  | nil => rfl
  | append_singleton ds d ih =>
    rw [ofList_append, List.length_append, List.length_singleton, ← ih]
    exact size_addTo d (ofList ds).byName 0

/-! ## The definition a position sees -/

theorem takeWhile_eq_filter {ds : List Definition}
    (h : ds.Pairwise (fun d e => d.position ≤ e.position)) (k : Int) :
    ds.takeWhile (fun d => decide (d.position ≤ k)) =
      ds.filter (fun d => decide (d.position ≤ k)) := by
  induction ds with
  | nil => rfl
  | cons d ds ih =>
    obtain ⟨hd, hds⟩ := List.pairwise_cons.1 h
    by_cases hk : d.position ≤ k
    · rw [List.takeWhile_cons_of_pos (by simpa using hk),
        List.filter_cons_of_pos (by simpa using hk), ih hds]
    · have hlater : ∀ e ∈ ds, ¬ decide (e.position ≤ k) = true := by
        intro e he hle
        have hge := hd e he
        have hle' := of_decide_eq_true hle
        omega
      rw [List.takeWhile_cons_of_neg (by simpa using hk),
        List.filter_cons_of_neg (by simpa using hk), List.filter_eq_nil_iff.2 hlater]

theorem find?_position_eq {ds : List Definition}
    (h : ds.Pairwise (fun d e => d.position < e.position)) (hd : d ∈ ds) :
    ds.find? (fun e => e.position == d.position) = some d := by
  induction ds with
  | nil => cases hd
  | cons e ds ih =>
    obtain ⟨he, hds⟩ := List.pairwise_cons.1 h
    rcases List.mem_cons.1 hd with rfl | hmem
    · simp
    · have hne : (e.position == d.position) = false := by
        have hlt := he d hmem
        simp only [beq_eq_false_iff_ne]
        omega
      rw [List.find?_cons, hne]
      exact ih hds hmem

/-- Where the positions grow, a position sees the last definition not after it. -/
theorem find?_eq_getLast? (h : (t.definitions name).Pairwise (fun d e => d.position < e.position)) :
    t.find? name k =
      ((t.definitions name).filter (fun d => decide (d.position ≤ k))).getLast? := by
  unfold find?
  simp only [takeWhile_eq_filter (h.imp Int.le_of_lt)]
  cases hlast : ((t.definitions name).filter (fun d => decide (d.position ≤ k))).getLast? with
  | none => rfl
  | some d => exact find?_position_eq (h.filter _) (List.mem_of_getLast? hlast)

theorem mem_definitions_of_find? (h : t.find? name k = some d) : d ∈ t.definitions name := by
  unfold find? at h
  obtain ⟨last, -, hfound⟩ := Option.bind_eq_some_iff.1 h
  exact (List.takeWhile_sublist _).subset (List.mem_of_find?_eq_some hfound)

theorem lookup_isSome_of_find? (h : t.find? name k = some d) : (t.byName.lookup name).isSome := by
  have hmem := mem_definitions_of_find? h
  unfold definitions at hmem
  cases hlookup : t.byName.lookup name with
  | none => simp [hlookup] at hmem
  | some ds => rfl

theorem declares_of_find? (h : t.find? name k = some d) : t.declares name = true :=
  lookup_isSome_of_find? h

theorem mem_names_of_find? (h : t.find? name k = some d) : name ∈ t.byName.map Prod.fst := by
  obtain ⟨ds, hlookup⟩ := Option.isSome_iff_exists.1 (lookup_isSome_of_find? h)
  obtain ⟨l₁, l₂, hsplit, -⟩ := List.lookup_eq_some_iff.1 hlookup
  rw [hsplit]
  simp

/-! ## Expansion -/

/-- Distinct names that are seen from a position are no more than the names of the table. -/
theorem length_le_names {names : List Bytes} (hnodup : names.Nodup)
    (hseen : ∀ n ∈ names, (t.find? n k).isSome) : names.length ≤ t.byName.length := by
  have hsub : names ⊆ t.byName.map Prod.fst := by
    intro n hn
    obtain ⟨d, hd⟩ := Option.isSome_iff_exists.1 (hseen n hn)
    exact mem_names_of_find? hd
  calc names.length ≤ (t.byName.map Prod.fst).length := (hnodup.subperm hsub).length_le
    _ = t.byName.length := List.length_map _

theorem markFirst_ne_nil {mark : Bytes} {tokens : List Bytes} (h : tokens ≠ []) :
    markFirst mark tokens ≠ [] := by
  cases tokens with
  | nil => exact absurd rfl h
  | cons first rest => simp [markFirst]

/-- What takes the place of a value token, by the tokens that the name in it stands for. -/
def replaceValue (t : DefinitionTable) (token : Bytes) (tokens? : Option (List Bytes)) :
    Option (List Bytes) :=
  if t.declares (splitMark token).2 then
    match tokens? with
    | none => none
    | some [] => some [token]
    | some tokens => some (markFirst (splitMark token).1 tokens)
  else some [token]

theorem replaceValue_eq_none_iff {token : Bytes} {tokens? : Option (List Bytes)} :
    t.replaceValue token tokens? = none ↔ t.declares (splitMark token).2 = true ∧
    tokens? = none := by
  unfold replaceValue
  split
  · rename_i hdeclared
    split <;> simp_all
  · simp_all

theorem replaceValue_ne_nil {token : Bytes} {tokens? : Option (List Bytes)} {tokens : List Bytes}
    (h : t.replaceValue token tokens? = some tokens) : tokens ≠ [] := by
  unfold replaceValue at h
  split at h
  · split at h
    · cases h
    · obtain rfl := Option.some.inj h
      exact List.cons_ne_nil _ _
    · rename_i hnil
      obtain rfl := Option.some.inj h
      exact markFirst_ne_nil fun hempty => hnil (by rw [hempty])
  · obtain rfl := Option.some.inj h
    exact List.cons_ne_nil _ _

section Active

variable {active : List Bytes} {depth : Nat}

theorem expandWithin_of_mem (h : name ∈ active) : t.expandWithin k depth active name = none := by
  rw [expandWithin, if_pos h]

theorem expandWithin_unseen (h : name ∉ active) (hnone : t.find? name k = none) :
    t.expandWithin k depth active name = some [] := by
  rw [expandWithin, if_neg h, hnone]

theorem expandWithin_seen (h : name ∉ active) (hseen : t.find? name k = some d) :
    t.expandWithin k (depth + 1) active name = (d.values.mapM fun token =>
      t.replaceValue token (t.expandWithin k depth (active ++ [name]) (splitMark token).2)).map
        List.flatten := by
  rw [expandWithin, if_neg h, hseen]
  rfl

/-! ## Expansion without a bound -/

/-- One more name on the way leaves fewer names that may still come. -/
theorem card_rest_lt {names longer : List Bytes} (hname : name ∈ names) (hactive : name ∉ active)
    (hlonger : ∀ n, n ∈ longer ↔ n = name ∨ n ∈ active) :
    (names.toFinset \ longer.toFinset).card < (names.toFinset \ active.toFinset).card := by
  have hrest : name ∈ names.toFinset \ active.toFinset := by
    rw [Finset.mem_sdiff, List.mem_toFinset, List.mem_toFinset]
    exact ⟨hname, hactive⟩
  have hgone : name ∉ names.toFinset \ longer.toFinset := by simp [hlonger]
  refine Finset.card_lt_card (Finset.ssubset_iff_of_subset ?_ |>.2 ⟨name, hrest, hgone⟩)
  refine Finset.sdiff_subset_sdiff subset_rfl fun n hn => ?_
  rw [List.mem_toFinset] at hn ⊢
  exact (hlonger n).2 (.inr hn)

/-- The tokens a name stands for, seen from a position; none if a definition on the way leads back
to one of `active`. Nothing but the table bounds the recursion. -/
def resolve (t : DefinitionTable) (k : Int) (active : List Bytes) (name : Bytes) :
    Option (List Bytes) :=
  if name ∈ active then none
  else match _hseen : t.find? name k with
    | none => some []
    | some d =>
      (d.values.mapM fun token =>
        let (mark, bare) := splitMark token
        if t.declares bare then
          match resolve t k (active ++ [name]) bare with
          | none => none
          | some [] => some [token]
          | some tokens => some (markFirst mark tokens)
        else some [token]).map List.flatten
termination_by ((t.byName.map Prod.fst).toFinset \ active.toFinset).card
decreasing_by
  exact card_rest_lt (mem_names_of_find? ‹t.find? name k = some d›) ‹name ∉ active›
    (by simp [or_comm])

theorem resolve_of_mem (h : name ∈ active) : t.resolve k active name = none := by
  rw [resolve, if_pos h]

theorem resolve_unseen (h : name ∉ active) (hnone : t.find? name k = none) :
    t.resolve k active name = some [] := by
  rw [resolve, if_neg h]
  split
  · rfl
  · simp_all

theorem resolve_seen (h : name ∉ active) (hseen : t.find? name k = some d) :
    t.resolve k active name = (d.values.mapM fun token =>
      t.replaceValue token (t.resolve k (active ++ [name]) (splitMark token).2)).map
          List.flatten := by
  rw [resolve, if_neg h]
  split
  · simp_all
  · rename_i found hfound
    obtain rfl := Option.some.inj (hseen.symm.trans hfound)
    rfl

/-- Names on the way of an expansion: distinct names that the position sees. -/
structure OnTheWay (t : DefinitionTable) (k : Int) (active : List Bytes) : Prop where
  nodup : active.Nodup
  seen : ∀ n ∈ active, (t.find? n k).isSome

namespace OnTheWay

theorem nil : OnTheWay t k [] := ⟨List.nodup_nil, by simp⟩

theorem append (h : OnTheWay t k active) (hactive : name ∉ active)
    (hseen : t.find? name k = some d) : OnTheWay t k (active ++ [name]) := by
  refine ⟨List.nodup_append.2 ⟨h.nodup, by simp, ?_⟩, ?_⟩
  · rintro n hn m hm rfl
    exact hactive (List.mem_singleton.1 hm ▸ hn)
  · exact List.forall_mem_append.2 ⟨h.seen, by simp [hseen]⟩

theorem unseen_not_mem (h : OnTheWay t k active) (hnone : t.find? name k = none) :
    name ∉ active := by
  intro hmem
  have hsome := h.seen name hmem
  rw [hnone] at hsome
  cases hsome

end OnTheWay

/-- A depth that makes up for the names of the table that are not on the way is never used up. -/
theorem expandWithin_eq_resolve (h : OnTheWay t k active)
    (hdepth : t.byName.length ≤ depth + active.length) (name : Bytes) :
    t.expandWithin k depth active name = t.resolve k active name := by
  induction depth using Nat.strong_induction_on generalizing active name with
  | _ depth ih =>
    by_cases hactive : name ∈ active
    · rw [expandWithin_of_mem hactive, resolve_of_mem hactive]
    · cases hseen : t.find? name k with
      | none => rw [expandWithin_unseen hactive hseen, resolve_unseen hactive hseen]
      | some d =>
        have hnext := h.append hactive hseen
        have hlength := length_le_names hnext.nodup hnext.seen
        rw [List.length_append, List.length_singleton] at hlength
        obtain ⟨depth, rfl⟩ : ∃ n, depth = n + 1 := ⟨depth - 1, by omega⟩
        rw [expandWithin_seen hactive hseen, resolve_seen hactive hseen]
        congr 2
        funext token
        rw [ih depth (Nat.lt_succ_self depth) hnext]
        rw [List.length_append, List.length_singleton]
        omega

theorem expand_eq_resolve (t : DefinitionTable) (name : Bytes) (k : Int) :
    t.expand name k = t.resolve k [] name :=
  expandWithin_eq_resolve .nil (Nat.le_refl _) name

/-- A name whose definition has a value stands for something. -/
theorem resolve_ne_nil (hvalues : ∀ n d, t.find? n k = some d → d.values ≠ []) {tokens : List Bytes}
    (h : t.resolve k active name = some tokens) (hseen : t.find? name k = some d) :
    tokens ≠ [] := by
  have hactive : name ∉ active := by
    intro hmem
    rw [resolve_of_mem hmem] at h
    cases h
  rw [resolve_seen hactive hseen] at h
  obtain ⟨parts, hparts, rfl⟩ := Option.map_eq_some_iff.1 h
  obtain ⟨value, values, hsplit⟩ := List.exists_cons_of_ne_nil (hvalues name d hseen)
  rw [hsplit, List.mapM_cons] at hparts
  obtain ⟨first, hfirst, hrest⟩ := Option.bind_eq_some_iff.1 hparts
  obtain ⟨rest, -, hrest⟩ := Option.bind_eq_some_iff.1 hrest
  obtain rfl := Option.some.inj hrest
  -- the first value alone leaves a token
  simp [replaceValue_ne_nil hfirst]

end Active

end CheatScript.DefinitionTable
