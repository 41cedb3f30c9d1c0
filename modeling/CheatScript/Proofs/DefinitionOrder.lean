import CheatScript.Proofs.DefinitionLookup

/-!
# Proofs: the order of definitions

Definitions may be added in any order of their positions. The table keeps those of each name sorted
by position, and those of one position in the order in which they came, so a lookup finds what a
scan of all additions would find: of the definitions of the name at or before the position, the
first one that was added with the greatest position. Searching the sorted list by halves and walking
back over the definitions of one position comes to the same.
-/

namespace CheatScript.DefinitionTable

variable {added ds : List Definition} {d : Definition} {name : Bytes} {k : Int}

/-- Whether a list holds the definitions that were added, sorted by position, with those of one
position in the order in which they were added. -/
structure Arranges (added ds : List Definition) : Prop where
  sorted : ds.Pairwise fun d e => d.position ≤ e.position
  stable : ∀ p, ds.filter (fun e => decide (e.position = p)) =
    added.filter fun e => decide (e.position = p)

/-! ## Adding -/

theorem dropWhile_eq_filter (h : ds.Pairwise fun d e => d.position ≤ e.position) (k : Int) :
    ds.dropWhile (fun d => decide (d.position ≤ k)) =
      ds.filter fun d => !decide (d.position ≤ k) := by
  induction ds with
  | nil => rfl
  | cons d ds ih =>
    obtain ⟨hd, hds⟩ := List.pairwise_cons.1 h
    by_cases hk : d.position ≤ k
    · rw [List.dropWhile_cons_of_pos (by simpa using hk),
        List.filter_cons_of_neg (by simpa using hk), ih hds]
    · have hlater : ∀ e ∈ d :: ds, (!decide (e.position ≤ k)) = true := by
        intro e he
        have hge : d.position ≤ e.position := by
          rcases List.mem_cons.1 he with rfl | hmem
          · exact Int.le_refl _
          · exact hd e hmem
        simp only [Bool.not_eq_true', decide_eq_false_iff_not]
        omega
      rw [List.dropWhile_cons_of_neg (by simpa using hk), List.filter_eq_self.2 hlater]

/-- In a sorted list a definition goes between those at or before its position and those after
it. -/
theorem insert_eq_filter (h : ds.Pairwise fun d e => d.position ≤ e.position) (d : Definition) :
    insert d ds = ds.filter (fun e => decide (e.position ≤ d.position)) ++
      d :: ds.filter (fun e => !decide (e.position ≤ d.position)) := by
  rw [insert, takeWhile_eq_filter h, dropWhile_eq_filter h]

namespace Arranges

theorem nil : Arranges [] [] := ⟨.nil, fun _ => rfl⟩

theorem mem_iff (h : Arranges added ds) : d ∈ ds ↔ d ∈ added := by
  have hmem (l : List Definition) : d ∈ l ↔ d ∈ l.filter fun e =>
      decide (e.position = d.position) := by
    simp
  rw [hmem ds, h.stable, ← hmem added]

theorem insert_sorted (h : Arranges added ds) (d : Definition) :
    (insert d ds).Pairwise fun d e => d.position ≤ e.position := by
  rw [insert_eq_filter h.sorted, List.pairwise_append, List.pairwise_cons]
  have hbefore : ∀ e ∈ ds.filter (fun e => decide (e.position ≤ d.position)),
      e.position ≤ d.position := by
    intro e he
    simpa using (List.mem_filter.1 he).2
  have hafter : ∀ e ∈ ds.filter (fun e => !decide (e.position ≤ d.position)),
      d.position ≤ e.position := by
    intro e he
    have hgt : d.position < e.position := by simpa using (List.mem_filter.1 he).2
    exact Int.le_of_lt hgt
  refine ⟨h.sorted.filter _, ⟨hafter, h.sorted.filter _⟩, fun e he e' he' => ?_⟩
  rcases List.mem_cons.1 he' with rfl | he'
  · exact hbefore e he
  · exact Int.le_trans (hbefore e he) (hafter e' he')

/-- What is added comes after the definitions of the same position and changes nothing at the other
positions. -/
theorem insert_stable (h : Arranges added ds) (d : Definition) (p : Int) :
    (insert d ds).filter (fun e => decide (e.position = p)) =
      (added ++ [d]).filter fun e => decide (e.position = p) := by
  -- of the two halves, one holds the whole position and the other nothing of it
  have hwhole {q : Definition → Bool} (hq : ∀ e : Definition, e.position = p → q e = true) :
      (ds.filter q).filter (fun e => decide (e.position = p)) =
        ds.filter fun e => decide (e.position = p) := by
    rw [List.filter_filter]
    refine List.filter_congr fun e _ => ?_
    by_cases he : e.position = p
    · simp [he, hq e he]
    · simp [he]
  have hnone {q : Definition → Bool} (hq : ∀ e : Definition, e.position = p → q e = false) :
      (ds.filter q).filter (fun e => decide (e.position = p)) = [] := by
    rw [List.filter_filter, List.filter_eq_nil_iff]
    intro e _ he
    rw [Bool.and_eq_true, decide_eq_true_eq] at he
    rw [hq e he.1] at he
    exact Bool.false_ne_true he.2
  rw [insert_eq_filter h.sorted, List.filter_append, List.filter_append, ← h.stable]
  by_cases hp : p ≤ d.position
  · rw [hwhole (fun e he => by simpa [he] using hp), ← List.singleton_append, List.filter_append,
      hnone (fun e he => by simpa [he] using hp), List.append_nil]
  · have hd : ¬ d.position = p := by omega
    rw [hnone (fun e he => by simpa [he] using hp), List.filter_cons_of_neg (by simpa using hd),
      hwhole (fun e he => by simpa [he] using hp), List.filter_singleton]
    simp [hd]

/-- One more addition keeps the arrangement. -/
theorem insert (h : Arranges added ds) (d : Definition) :
    Arranges (added ++ [d]) (DefinitionTable.insert d ds) :=
  ⟨h.insert_sorted d, h.insert_stable d⟩

end Arranges

/-- After any additions, the table arranges those of each name. -/
theorem arranges_definitions (ds : List Definition) (name : Bytes) :
    Arranges (ds.filter fun d => decide (d.name = name)) ((ofList ds).definitions name) := by
  induction ds using List.reverseRecOn with
  | nil => exact .nil
  | append_singleton ds d ih =>
    rw [ofList_append, definitions_add, List.filter_append]
    by_cases hname : name = d.name
    · rw [if_pos hname, List.filter_cons_of_pos (by simp [hname]), List.filter_nil]
      exact ih.insert d
    · rw [if_neg hname, List.filter_cons_of_neg (by simp [Ne.symm hname]), List.filter_nil,
        List.append_nil]
      exact ih

/-! ## Looking up -/

theorem position_le_getLast? {last : Definition}
    (h : ds.Pairwise fun d e => d.position ≤ e.position)
    (hlast : ds.getLast? = some last) (hd : d ∈ ds) : d.position ≤ last.position := by
  obtain ⟨front, rfl⟩ := List.getLast?_eq_some_iff.1 hlast
  rcases List.mem_append.1 hd with hmem | hmem
  · exact (List.pairwise_append.1 h).2.2 d hmem last (List.mem_singleton_self last)
  · rw [List.mem_singleton.1 hmem]

namespace Arranges

variable {t : DefinitionTable}

theorem find?_eq_none_iff (h : Arranges added (t.definitions name)) :
    t.find? name k = none ↔ ∀ d ∈ added, k < d.position := by
  have hfirst : (t.definitions name).filter (fun d => decide (d.position ≤ k)) = [] ↔
      ∀ d ∈ added, k < d.position := by
    simp [List.filter_eq_nil_iff, h.mem_iff]
  rw [find?, takeWhile_eq_filter h.sorted, ← hfirst]
  constructor
  · intro hnone
    by_contra hne
    obtain ⟨last, hlast⟩ := Option.isSome_iff_exists.1 (List.getLast?_isSome.2 hne)
    rw [hlast, Option.bind_some, List.find?_eq_none] at hnone
    exact hnone last (List.mem_of_getLast? hlast) (by simp)
  · intro hnil
    rw [hnil]
    rfl

/-- The definition found has the greatest position that is not after the given one, and is the first
that was added with it. -/
theorem find?_eq_some_iff (h : Arranges added (t.definitions name)) :
    t.find? name k = some d ↔
      d.position ≤ k ∧ (∀ e ∈ added, e.position ≤ k → e.position ≤ d.position) ∧
        added.find? (fun e => decide (e.position = d.position)) = some d := by
  set older := (t.definitions name).filter fun e => decide (e.position ≤ k) with holder
  have hfind : t.find? name k =
      older.getLast?.bind fun last => older.find? fun e => e.position == last.position := by
    rw [find?, takeWhile_eq_filter h.sorted]
  -- a position that is not later than the given one has the same definitions in both lists
  have hfirst {p : Int} (hp : p ≤ k) : older.find? (fun e => e.position == p) =
      added.find? fun e => decide (e.position = p) := by
    rw [← List.head?_filter, ← List.head?_filter, ← h.stable, holder, List.filter_filter]
    congr 1
    refine List.filter_congr fun e _ => ?_
    by_cases he : e.position = p
    · simp [he, hp]
    · simp [he]
  have holder_mem {e : Definition} : e ∈ older ↔ e ∈ added ∧ e.position ≤ k := by
    rw [holder, List.mem_filter, h.mem_iff, decide_eq_true_eq]
  rw [hfind]
  constructor
  · intro hfound
    obtain ⟨last, hlast, hfound⟩ := Option.bind_eq_some_iff.1 hfound
    have hle : last.position ≤ k := (holder_mem.1 (List.mem_of_getLast? hlast)).2
    have hposition : d.position = last.position := by
      simpa using List.find?_some hfound
    rw [hfirst hle] at hfound
    rw [hposition]
    refine ⟨hle, fun e he hek => ?_, hfound⟩
    exact position_le_getLast? (h.sorted.filter _) hlast (holder_mem.2 ⟨he, hek⟩)
  · rintro ⟨hle, hgreatest, hfound⟩
    have hd : d ∈ older := holder_mem.2 ⟨List.mem_of_find?_eq_some hfound, hle⟩
    obtain ⟨last, hlast⟩ :=
      Option.isSome_iff_exists.1 (List.getLast?_isSome.2 (List.ne_nil_of_mem hd))
    have hlast_mem := holder_mem.1 (List.mem_of_getLast? hlast)
    have hposition : last.position = d.position :=
      Int.le_antisymm (hgreatest last hlast_mem.1 hlast_mem.2)
        (position_le_getLast? (h.sorted.filter _) hlast hd)
    rw [hlast, Option.bind_some, hposition, hfirst hle, hfound]

end Arranges

/-! ## Searching by halves -/

/-- The first index between `lo` and `hi` whose definition is after a position, found by halves. -/
def search (ds : List Definition) (k : Int) (lo hi : Nat) : Nat :=
  if lo < hi then
    let mid := (lo + hi) / 2
    if ds[mid]?.any (k < ·.position) then search ds k lo mid else search ds k (mid + 1) hi
  else lo
termination_by hi - lo
decreasing_by all_goals omega

/-- The first index whose definitions up to the given one have one position. -/
def walkBack (ds : List Definition) : Nat → Nat
  | 0 => 0
  | i + 1 =>
    if ds[i]?.map Definition.position = ds[i + 1]?.map Definition.position then
      walkBack ds i else i + 1

/-- The definition that a search and a walk back find. -/
def searchBack? (ds : List Definition) (k : Int) : Option Definition :=
  match search ds k 0 ds.length with
  | 0 => none
  | i + 1 => ds[walkBack ds i]?

section Search

variable {i : Nat}

theorem takeWhile_eq_take (ds : List Definition) (k : Int) :
    ds.takeWhile (fun d => decide (d.position ≤ k)) =
      ds.take (ds.takeWhile fun d => decide (d.position ≤ k)).length :=
  List.prefix_iff_eq_take.1 (List.takeWhile_prefix _)

/-- In a sorted list the definitions after a position are those behind the ones at or before it. -/
theorem after_iff (h : ds.Pairwise fun d e => d.position ≤ e.position) (hi : ds[i]? = some d)
    (k : Int) : k < d.position ↔ (ds.takeWhile fun d => decide (d.position ≤ k)).length ≤ i := by
  rw [takeWhile_eq_filter h]
  induction ds generalizing i with
  | nil => cases hi
  | cons e ds ih =>
    obtain ⟨he, hds⟩ := List.pairwise_cons.1 h
    by_cases hek : e.position ≤ k
    · rw [List.filter_cons_of_pos (by simpa using hek), List.length_cons]
      cases i with
      | zero =>
        obtain rfl := Option.some.inj hi
        omega
      | succ i =>
        rw [ih hds hi]
        omega
    · have hlater : ∀ e' ∈ e :: ds, ¬ decide (e'.position ≤ k) = true := by
        intro e' he'
        have hge : e.position ≤ e'.position := by
          rcases List.mem_cons.1 he' with rfl | hmem
          · exact Int.le_refl _
          · exact he e' hmem
        simp only [decide_eq_true_eq]
        omega
      have hd := hlater d (List.mem_of_getElem? hi)
      simp only [decide_eq_true_eq] at hd
      rw [List.filter_eq_nil_iff.2 hlater]
      simp only [List.length_nil, Nat.zero_le, iff_true]
      omega

/-- Halving keeps the index between its bounds. -/
theorem search_eq (h : ds.Pairwise fun d e => d.position ≤ e.position) (k : Int) {lo hi : Nat}
    (hlo : lo ≤ (ds.takeWhile fun d => decide (d.position ≤ k)).length)
    (hhi : (ds.takeWhile fun d => decide (d.position ≤ k)).length ≤ hi) (hlength : hi ≤ ds.length) :
    search ds k lo hi = (ds.takeWhile fun d => decide (d.position ≤ k)).length := by
  fun_induction search ds k lo hi with
  | case1 lo hi hlt mid hafter ih =>
    have hmid : ds[mid]? = some ds[mid] := List.getElem?_eq_getElem (by omega)
    rw [hmid, Option.any_some, decide_eq_true_eq, after_iff h hmid] at hafter
    exact ih hlo hafter (by omega)
  | case2 lo hi hlt mid hbefore ih =>
    have hmid : ds[mid]? = some ds[mid] := List.getElem?_eq_getElem (by omega)
    rw [hmid, Option.any_some, decide_eq_true_eq, after_iff h hmid] at hbefore
    exact ih (by omega) hhi hlength
  | case3 lo hi hdone => omega

/-- Before a definition that is later than the one in front of it, none has its position. -/
theorem find?_take_eq_none (h : ds.Pairwise fun d e => d.position ≤ e.position)
    (hi : ds[i + 1]? = some d) {e : Definition} (hprevious : ds[i]? = some e)
    (hdiffers : e.position ≠ d.position) :
    (ds.take (i + 1)).find? (·.position == d.position) = none := by
  obtain ⟨hlt, rfl⟩ := List.getElem?_eq_some_iff.1 hi
  obtain ⟨_, rfl⟩ := List.getElem?_eq_some_iff.1 hprevious
  have horder := List.pairwise_iff_getElem.1 h
  have hlast : ds[i].position < ds[i + 1].position :=
    lt_of_le_of_ne (horder i (i + 1) (by omega) hlt (by omega)) hdiffers
  refine List.find?_eq_none.2 fun e he => ?_
  obtain ⟨j, hj, rfl⟩ := List.mem_take_iff_getElem.1 he
  have hle : ds[j].position ≤ ds[i].position := by
    rcases Nat.lt_or_eq_of_le (show j ≤ i by omega) with hlt' | rfl
    · exact horder j i (by omega) (by omega) hlt'
    · exact Int.le_refl _
  simp only [beq_iff_eq]
  omega

/-- Walking back from a definition leads to the first one with its position. -/
theorem getElem?_walkBack (h : ds.Pairwise fun d e => d.position ≤ e.position)
    (hi : ds[i]? = some d) :
    ds[walkBack ds i]? = (ds.take (i + 1)).find? (·.position == d.position) := by
  induction i generalizing d with
  | zero =>
    cases ds with
    | nil => cases hi
    | cons e ds =>
      obtain rfl := Option.some.inj hi
      simp [walkBack]
  | succ i ih =>
    have hlt : i + 1 < ds.length := (List.getElem?_eq_some_iff.1 hi).1
    have hprevious : ds[i]? = some ds[i] := List.getElem?_eq_getElem (by omega)
    have htake : ds.take (i + 2) = ds.take (i + 1) ++ [d] := by
      rw [List.take_add_one, hi]
      rfl
    rw [walkBack, hi, hprevious, Option.map_some, Option.map_some, htake, List.find?_append]
    split
    · next hsame =>
      have hposition : ds[i].position = d.position := Option.some.inj hsame
      rw [ih hprevious, hposition]
      have hfound : ((ds.take (i + 1)).find? (·.position == d.position)).isSome := by
        refine List.find?_isSome.2 ⟨ds[i], ?_, by simpa using hposition⟩
        exact List.mem_take_iff_getElem.2 ⟨i, by omega, rfl⟩
      obtain ⟨e, he⟩ := Option.isSome_iff_exists.1 hfound
      rw [he]
      rfl
    · next hdiffers =>
      rw [find?_take_eq_none h hi hprevious fun heq => hdiffers (congrArg some heq), hi]
      simp

/-- **Searching by halves finds what a lookup finds.** -/
theorem searchBack?_eq_find? (ds : List Definition) (name : Bytes) (k : Int) :
    searchBack? ((ofList ds).definitions name) k = (ofList ds).find? name k := by
  have h := (arranges_definitions ds name).sorted
  have hsearch := search_eq h k (Nat.zero_le _) (List.takeWhile_sublist _).length_le (Nat.le_refl _)
  have htake := takeWhile_eq_take ((ofList ds).definitions name) k
  rw [searchBack?, hsearch, find?]
  cases hm : (((ofList ds).definitions name).takeWhile fun d => decide (d.position ≤ k)).length with
  | zero =>
    rw [List.eq_nil_of_length_eq_zero hm]
    rfl
  | succ i =>
    rw [hm] at htake
    have hlt : i < ((ofList ds).definitions name).length := by
      have hle := (List.takeWhile_sublist
        (l := (ofList ds).definitions name) fun d => decide (d.position ≤ k)).length_le
      omega
    have hlast := List.getElem?_eq_getElem hlt
    have hgetLast : (((ofList ds).definitions name).take (i + 1)).getLast? =
        some ((ofList ds).definitions name)[i] := by
      rw [List.getLast?_take, if_neg (Nat.succ_ne_zero i), Nat.add_sub_cancel, hlast]
      rfl
    rw [htake, hgetLast, Option.bind_some]
    exact getElem?_walkBack h hlast

/-- A definition is put in at the index that searching by halves finds. -/
theorem insert_eq_search (h : ds.Pairwise fun d e => d.position ≤ e.position) (d : Definition) :
    insert d ds = ds.take (search ds d.position 0 ds.length) ++
      d :: ds.drop (search ds d.position 0 ds.length) := by
  have hsplit := List.takeWhile_append_dropWhile (p := fun e => decide (e.position ≤ d.position))
    (l := ds)
  have hdrop : ds.drop (ds.takeWhile fun e => decide (e.position ≤ d.position)).length =
      ds.dropWhile fun e => decide (e.position ≤ d.position) := by
    have hleft : (ds.takeWhile (fun e => decide (e.position ≤ d.position)) ++
        ds.dropWhile fun e => decide (e.position ≤ d.position)).drop
          (ds.takeWhile fun e => decide (e.position ≤ d.position)).length =
        ds.dropWhile fun e => decide (e.position ≤ d.position) := List.drop_left
    rwa [hsplit] at hleft
  rw [search_eq h _ (Nat.zero_le _) (List.takeWhile_sublist _).length_le (Nat.le_refl _),
    ← takeWhile_eq_take, hdrop, insert]

end Search

/-- **Lookup is a scan of all additions.** After any additions in any order, a name seen from a
position is, of the definitions of that name at or before the position, the first one that was added
with the greatest position, and is not found exactly if there is none. The definitions of each name
are sorted by position, those of one position are in the order in which they were added, and all
additions count. -/
theorem find?_ofList_scans (ds : List Definition) (name : Bytes) :
    (∀ k d, (ofList ds).find? name k = some d ↔
      d.position ≤ k ∧ (∀ e ∈ ds, e.name = name → e.position ≤ k → e.position ≤ d.position) ∧
        ds.find? (fun e => decide (e.name = name ∧ e.position = d.position)) = some d) ∧
    (∀ k, (ofList ds).find? name k = none ↔ ∀ d ∈ ds, d.name = name → k < d.position) ∧
    ((ofList ds).definitions name).Pairwise (fun d e => d.position ≤ e.position) ∧
    (∀ p, ((ofList ds).definitions name).filter (fun d => decide (d.position = p)) =
      ds.filter fun d => decide (d.name = name ∧ d.position = p)) ∧
    (ofList ds).size = ds.length := by
  have h := arranges_definitions ds name
  refine ⟨fun k d => ?_, fun k => ?_, h.sorted, fun p => ?_, size_ofList ds⟩
  · rw [h.find?_eq_some_iff, List.find?_filter]
    simp
  · rw [h.find?_eq_none_iff]
    simp
  · rw [h.stable, List.filter_filter]
    simp [and_comm]

/-- Definitions that come out of order and twice at one position, seen from before, between and
after them. -/
example :
    let t := ofList [⟨ascii "x", [ascii "late"], 7⟩, ⟨ascii "x", [ascii "first"], -2⟩,
      ⟨ascii "y", [ascii "other"], 0⟩, ⟨ascii "x", [ascii "second"], -2⟩]
    (t.find? (ascii "x") (-3) = none ∧
      t.find? (ascii "x") 6 = some ⟨ascii "x", [ascii "first"], -2⟩) ∧
      t.find? (ascii "x") 7 = some ⟨ascii "x", [ascii "late"], 7⟩ := by
  decide

end CheatScript.DefinitionTable
