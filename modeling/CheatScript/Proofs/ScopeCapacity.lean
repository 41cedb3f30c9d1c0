import CheatScript.Proofs.ScopeWeight

/-!
# Proofs: which scopes can be split

Splitting fails exactly on a piece that does not fit a part of its own: a part starts with the
conditions around the piece, and all of them but the outermost count as lines of it. What splitting
gives is what the loop ends with that closes and opens scopes again one too long scope after the
other; as long as no more than 255 scopes are open at once, that loop ends.
-/

namespace CheatScript.Scope

open Outcome

/-! ## Oversized pieces -/

/-- Whether a piece inside `depth` open scopes fits no part: with the conditions around it but the
outermost it has more than 255 lines. -/
def Oversized (depth : Nat) (p : Piece) : Prop := 1 ≤ depth ∧ maxLines < p.weight + (depth - 1)

/-- The piece after `pre` is the first oversized one of the pieces; `depth` scopes are open in
front. -/
structure FirstOversized (depth : Nat) (pieces pre : List Piece) (p : Piece) : Prop where
  mem : pre ++ [p] <+: pieces
  oversized : Oversized (depthAfter depth pre) p
  first : ∀ pre' p', pre' ++ [p'] <+: pre → ¬ Oversized (depthAfter depth pre') p'

theorem firstOversized_head {depth : Nat} {p : Piece} {rest : List Piece} (h : Oversized depth p) :
    FirstOversized depth (p :: rest) [] p :=
  ⟨⟨rest, rfl⟩, h, fun pre' p' hpre => absurd hpre (by simp)⟩

theorem firstOversized_cons_iff {depth : Nat} {q p : Piece} {rest pre : List Piece}
    (h : ¬ Oversized depth q) :
    FirstOversized depth (q :: rest) pre p ↔
      ∃ pre', pre = q :: pre' ∧ FirstOversized (depthAfter depth [q]) rest pre' p := by
  constructor
  · rintro ⟨hmem, hover, hfirst⟩
    cases pre with
    | nil =>
      obtain rfl : p = q := by simpa using hmem
      exact absurd hover h
    | cons q' pre =>
      obtain ⟨rfl, hmem'⟩ := List.cons_prefix_cons.1 hmem
      refine ⟨pre, rfl, hmem', ?_, fun pre' p' hp => ?_⟩
      · rwa [← depthAfter_append]
      · rw [← depthAfter_append]
        exact hfirst (q' :: pre') p' (List.cons_prefix_cons.2 ⟨rfl, hp⟩)
  · rintro ⟨pre, rfl, hmem, hover, hfirst⟩
    refine ⟨List.cons_prefix_cons.2 ⟨rfl, hmem⟩, ?_, fun pre' p' hp => ?_⟩
    · rwa [← depthAfter_append] at hover
    · cases pre' with
      | nil =>
        obtain rfl : p' = q := by simpa using hp
        exact h
      | cons q' pre' =>
        obtain ⟨rfl, hp'⟩ := List.cons_prefix_cons.1 hp
        have := hfirst pre' p' hp'
        rwa [← depthAfter_append] at this

/-- If any piece is oversized, one is the first. -/
theorem exists_firstOversized {depth : Nat} {pieces pre : List Piece} {p : Piece}
    (hmem : pre ++ [p] <+: pieces) (h : Oversized (depthAfter depth pre) p) :
    ∃ pre' p', FirstOversized depth pieces pre' p' := by
  induction pieces generalizing depth pre with
  | nil => simp at hmem
  | cons q rest ih =>
    by_cases hq : Oversized depth q
    · exact ⟨[], q, firstOversized_head hq⟩
    · cases pre with
      | nil =>
        obtain rfl : p = q := by simpa using hmem
        exact absurd h hq
      | cons q' pre =>
        obtain ⟨rfl, hmem'⟩ := List.cons_prefix_cons.1 hmem
        have hover : Oversized (depthAfter (depthAfter depth [q']) pre) p := by
          rwa [← depthAfter_append]
        obtain ⟨pre', p', hfirst⟩ := ih hmem' hover
        exact ⟨q' :: pre', p', (firstOversized_cons_iff hq).2 ⟨pre', rfl, hfirst⟩⟩

/-- At most 255 scopes are open at once, where `depth` are open in front. -/
def Bounded (depth : Nat) (pieces : List Piece) : Prop :=
  ∀ l, l <+: pieces → depthAfter depth l ≤ maxLines

theorem Bounded.tail {tests : List OpenTest} {p : Piece} {rest : List Piece}
    (h : Bounded tests.length (p :: rest)) : Bounded (openAfter tests p).length rest := by
  intro l hl
  rw [length_openAfter]
  exact h (p :: l) (List.cons_prefix_cons.2 ⟨rfl, hl⟩)

theorem Bounded.head_test {depth : Nat} {c : Command} {k : Condition} {rest : List Piece}
    (h : Bounded depth (.test c k :: rest)) : depth + 1 ≤ maxLines :=
  h [.test c k] (List.cons_prefix_cons.2 ⟨rfl, List.nil_prefix⟩)

/-- What a part that holds the conditions of the open scopes has to do with its lines. -/
structure PartLines (tests : List OpenTest) (lines : Nat) : Prop where
  headers : tests.length ≤ lines + 1
  bound : lines ≤ maxLines

theorem PartLines.step {tests : List OpenTest} {lines : Nat} {p : Piece}
    (h : PartLines tests lines) (hfit : lines + p.weight ≤ maxLines) :
    PartLines (openAfter tests p) (lines + p.weight) := by
  refine ⟨?_, hfit⟩
  have := h.headers
  cases p <;> simp only [openAfter, Piece.weight, List.length_append, List.length_singleton,
    List.length_dropLast] <;> omega

theorem PartLines.start (p : Piece) : PartLines (openAfter [] p) 0 := by
  refine ⟨?_, Nat.zero_le _⟩
  cases p <;> simp [openAfter]

theorem fits_output_iff {depth lines : Nat} {c : Command} {f : Fragment} {rest : List Piece} :
    fits depth lines (.output c f) rest = true ↔ lines + f.weight ≤ maxLines := by
  unfold fits
  rw [Bool.and_true, decide_eq_true_iff]
  rfl

theorem fits_close_iff {depth lines : Nat} {rest : List Piece} :
    fits depth lines .close rest = true ↔ lines ≤ maxLines := by
  unfold fits
  rw [Bool.and_true, decide_eq_true_iff]
  rfl

theorem fits_test_iff {depth lines : Nat} {c : Command} {k : Condition} {rest : List Piece} :
    fits depth lines (.test c k) rest = true ↔
      lines + 1 ≤ maxLines ∧ (lines + 1 < maxLines ∨ (weightFrom depth rest).getD 0 = 0) := by
  unfold fits
  rw [Bool.and_eq_true, decide_eq_true_iff, Bool.or_eq_true, decide_eq_true_iff, beq_iff_eq]
  rfl

/-- A condition fits a fresh part, unless 255 scopes are open already. -/
theorem fits_fresh_test {tests : List OpenTest} {c : Command} {k : Condition} {rest : List Piece}
    (h : Bounded (tests.length + 1) (.test c k :: rest)) :
    fits (tests.length + 1) tests.length (.test c k) rest = true := by
  have := h.head_test
  exact fits_test_iff.2 ⟨by omega, Or.inl (by omega)⟩

/-- **Splitting fails exactly at the first oversized piece.** -/
theorem splitFrom_eq_error_iff {tests : List OpenTest} {lines : Nat} {pieces : List Piece}
    (hp : PartLines tests lines) (hb : Bounded tests.length pieces) (f : Failure) :
    splitFrom tests lines pieces = .error f ↔
      ∃ pre p c, FirstOversized tests.length pieces pre p ∧ commandOf? p = some c ∧
        f = ⟨.ifScopeTooLarge, c⟩ := by
  induction pieces generalizing tests lines with
  | nil =>
    simp only [splitFrom, reduceCtorEq, false_iff, not_exists, not_and]
    intro pre p c h
    exact absurd h.mem (by simp)
  | cons p rest ih =>
    -- a piece that goes to a part is not oversized, so the first oversized one is among the rest
    have hstep : ∀ lines', PartLines (openAfter tests p) lines' → ¬ Oversized tests.length p →
        ∀ add : List Piece → List Piece,
        ((do let out ← splitFrom (openAfter tests p) lines' rest; return add out) = .error f ↔
          ∃ pre q c, FirstOversized tests.length (p :: rest) pre q ∧ commandOf? q = some c ∧
            f = ⟨.ifScopeTooLarge, c⟩) := by
      intro lines' hp' hsmall add
      have hlen : depthAfter tests.length [p] = (openAfter tests p).length :=
        (length_openAfter tests p []).symm
      have herr : ((do let out ← splitFrom (openAfter tests p) lines' rest; return add out)
          = .error f) ↔ splitFrom (openAfter tests p) lines' rest = .error f := by
        rw [bind_eq_error]
        simp [pure, Except.pure]
      rw [herr, ih hp' hb.tail]
      constructor
      · rintro ⟨pre, q, c, hfirst, hc, hf⟩
        exact ⟨p :: pre, q, c, (firstOversized_cons_iff hsmall).2 ⟨pre, rfl, hlen ▸ hfirst⟩, hc, hf⟩
      · rintro ⟨pre, q, c, hfirst, hc, hf⟩
        obtain ⟨pre', rfl, hfirst'⟩ := (firstOversized_cons_iff hsmall).1 hfirst
        exact ⟨pre', q, c, hlen ▸ hfirst', hc, hf⟩
    cases tests with
    | nil => exact hstep 0 (PartLines.start p) (fun h => absurd h.1 (by simp)) (p :: ·)
    | cons t tests =>
      have hh := hp.headers
      rw [List.length_cons] at hh
      have hsmall : tests.length + p.weight ≤ maxLines → ¬ Oversized (t :: tests).length p := by
        rintro hw ⟨-, hover⟩
        simp only [List.length_cons] at hover
        omega
      simp only [splitFrom]
      split
      next hfit =>
        have hw := weight_le_of_fits hfit
        exact hstep _ (hp.step hw) (hsmall (by omega)) (p :: ·)
      next hfull =>
        split
        next hfit =>
          have hw := weight_le_of_fits hfit
          have hfresh : PartLines (t :: tests) tests.length := ⟨by simp, by omega⟩
          exact hstep _ (hfresh.step hw) (hsmall hw) (reopen (t :: tests) ++ p :: ·)
        next hnofit =>
          cases p with
          | test c k => exact absurd (fits_fresh_test hb) hnofit
          | close => exact absurd (fits_close_iff.2 hp.bound) hfull
          | output c g =>
            have hover : Oversized (t :: tests).length (.output c g) := by
              rw [fits_output_iff] at hnofit
              refine ⟨by simp, ?_⟩
              simp only [List.length_cons, Piece.weight]
              omega
            simp only [commandOf?, Command.refuse, Except.error.injEq]
            constructor
            · rintro rfl
              exact ⟨[], _, c, firstOversized_head hover, rfl, rfl⟩
            · rintro ⟨pre, q, c', ⟨hmem, -, hfirst⟩, hc', rfl⟩
              cases pre with
              | nil =>
                obtain rfl : q = .output c g := by simpa using hmem
                obtain rfl := Option.some.inj hc'
                rfl
              | cons q' pre =>
                obtain ⟨rfl, -⟩ := List.cons_prefix_cons.1 hmem
                exact absurd hover (hfirst [] _ (List.cons_prefix_cons.2 ⟨rfl, List.nil_prefix⟩))

/-! ## The loop

The same result is reached scope by scope. A scope that is too long is looked through up to where a
part is full; all open scopes are closed there and opened again, and the loop goes on with the
pieces it has then, the new ones included. -/

/-- What looking through a scope that is too long comes to. -/
inductive Look
  /-- The scope ends. -/
  | ends
  /-- A part is full before the pieces `after`, where `tests` are open. -/
  | cut (before : List Piece) (tests : List OpenTest) (after : List Piece)
  /-- A piece that does not even fit a fresh part. -/
  | stuck (p : Piece)

/-- The look with one more piece in front. -/
def Look.push (p : Piece) : Look → Look
  | .cut before tests after => .cut (p :: before) tests after
  | l => l

/-- The lines in front of a piece. The line of a condition that would be the last one of a part is
counted twice, which moves the condition to the next part. -/
def countedLines (lines : Nat) : Piece → Nat
  | .test _ _ => if lines + 1 = maxLines then lines + 1 else lines
  | _ => lines

/-- Looks through a scope from a place on where `tests` are open and the part has `lines` lines. A
fresh part has to be shorter than the one it follows. -/
def look : (tests : List OpenTest) → (lines : Nat) → List Piece → Look
  | _, _, [] => .ends
  | tests, lines, p :: rest =>
    if maxLines < countedLines lines p + p.weight then
      if countedLines lines p ≤ tests.length - 1 then .stuck p else .cut [] tests (p :: rest)
    else match openAfter tests p with
      | [] => .ends
      | t :: tests => (look (t :: tests) (lines + p.weight) rest).push p

/-- `Loop pieces r`: the loop, started on the pieces, ends with `r`. -/
inductive Loop : List Piece → Except Failure (List Piece) → Prop
  /-- No piece is left. -/
  | done : Loop [] (.ok [])
  /-- A piece that is no condition is passed. -/
  | skip {p : Piece} {rest : List Piece} {r : Except Failure (List Piece)}
      (hp : ∀ c k, p ≠ .test c k) (h : Loop rest r) : Loop (p :: rest) (r.map (p :: ·))
  /-- A condition whose scope is short enough is passed. -/
  | short {c : Command} {k : Condition} {rest : List Piece} {r : Except Failure (List Piece)}
      (hw : weight rest ≤ maxLines) (h : Loop rest r) :
      Loop (.test c k :: rest) (r.map (.test c k :: ·))
  /-- A scope that ends before a part is full is passed. -/
  | ends {c : Command} {k : Condition} {rest : List Piece} {r : Except Failure (List Piece)}
      (hw : maxLines < weight rest) (hl : look [(c, k)] 0 rest = .ends) (h : Loop rest r) :
      Loop (.test c k :: rest) (r.map (.test c k :: ·))
  /-- A scope is cut; the pieces after its condition are looked at again. -/
  | cut {c : Command} {k : Condition} {rest before after : List Piece} {tests : List OpenTest}
      {r : Except Failure (List Piece)} (hw : maxLines < weight rest)
      (hl : look [(c, k)] 0 rest = .cut before tests after)
      (h : Loop (before ++ (reopen tests ++ after)) r) :
      Loop (.test c k :: rest) (r.map (.test c k :: ·))
  /-- A scope that cannot be cut is too large. -/
  | stuck {c c' : Command} {k : Condition} {rest : List Piece} {p : Piece}
      (hw : maxLines < weight rest) (hl : look [(c, k)] 0 rest = .stuck p)
      (hc : commandOf? p = some c') : Loop (.test c k :: rest) (.error ⟨.ifScopeTooLarge, c'⟩)

/-- The loop ends in one way only. -/
theorem Loop.unique {pieces : List Piece} {r r' : Except Failure (List Piece)} (h : Loop pieces r)
    (h' : Loop pieces r') : r = r' := by
  induction h generalizing r' with
  | done => cases h' with
    | done => rfl
  | skip hp _ ih => cases h' with
    | skip _ h' => rw [ih h']
    | short => exact absurd rfl (hp _ _)
    | ends => exact absurd rfl (hp _ _)
    | cut => exact absurd rfl (hp _ _)
    | stuck => exact absurd rfl (hp _ _)
  | short hw _ ih => cases h' with
    | skip hp _ => exact absurd rfl (hp _ _)
    | short _ h' => rw [ih h']
    | ends hw' => omega
    | cut hw' => omega
    | stuck hw' => omega
  | ends hw hl _ ih => cases h' with
    | skip hp _ => exact absurd rfl (hp _ _)
    | short hw' _ => omega
    | ends _ _ h' => rw [ih h']
    | cut _ hl' _ => simp [hl] at hl'
    | stuck _ hl' _ => simp [hl] at hl'
  | cut hw hl _ ih => cases h' with
    | skip hp _ => exact absurd rfl (hp _ _)
    | short hw' _ => omega
    | ends _ hl' _ => simp [hl] at hl'
    | cut _ hl' h' =>
      obtain ⟨rfl, rfl, rfl⟩ := Look.cut.inj (hl.symm.trans hl')
      rw [ih h']
    | stuck _ hl' _ => simp [hl] at hl'
  | stuck hw hl hc => cases h' with
    | skip hp _ => exact absurd rfl (hp _ _)
    | short hw' _ => omega
    | ends _ hl' _ => simp [hl] at hl'
    | cut _ hl' _ => simp [hl] at hl'
    | stuck _ hl' hc' =>
      obtain rfl := Look.stuck.inj (hl.symm.trans hl')
      obtain rfl := Option.some.inj (hc.symm.trans hc')
      rfl

/-! ### Steps of the splitting -/

theorem bind_return_eq_map {α β : Type} (x : Except Failure α) (f : α → β) :
    (do let a ← x; return f a) = x.map f := by
  cases x <;> rfl

theorem map_map_eq {α β γ : Type} (x : Except Failure α) (f : α → β) (g : β → γ) :
    (x.map f).map g = x.map (g ∘ f) := by
  cases x <;> rfl

theorem splitFrom_outside (lines : Nat) (p : Piece) (rest : List Piece) :
    splitFrom [] lines (p :: rest) = (splitFrom (openAfter [] p) 0 rest).map (p :: ·) := by
  rw [splitFrom, bind_return_eq_map]

theorem splitFrom_nil_lines (lines : Nat) (l : List Piece) :
    splitFrom [] lines l = splitFrom [] 0 l := by
  cases l with
  | nil => rfl
  | cons p l => rw [splitFrom_outside, splitFrom_outside]

theorem splitFrom_same {t : OpenTest} {tests : List OpenTest} {lines : Nat} {p : Piece}
    {rest : List Piece} (h : fits (tests.length + 1) lines p rest = true) :
    splitFrom (t :: tests) lines (p :: rest)
      = (splitFrom (openAfter (t :: tests) p) (lines + p.weight) rest).map (p :: ·) := by
  simp only [splitFrom]
  rw [if_pos h, bind_return_eq_map]

/-- A piece that does not fit the part is split off like one that meets a fresh part. -/
theorem splitFrom_full {t : OpenTest} {tests : List OpenTest} {lines : Nat} {p : Piece}
    {rest : List Piece} (hp : p ≠ .close) (h : ¬ fits (tests.length + 1) lines p rest = true) :
    splitFrom (t :: tests) lines (p :: rest)
      = (splitFrom (t :: tests) tests.length (p :: rest)).map (reopen (t :: tests) ++ ·) := by
  by_cases hfresh : fits (tests.length + 1) tests.length p rest = true
  · rw [splitFrom_same hfresh, map_map_eq]
    simp only [splitFrom]
    rw [if_neg h, if_pos hfresh, bind_return_eq_map]
    rfl
  · simp only [splitFrom, if_neg h, if_neg hfresh]
    cases p with
    | test c k => rfl
    | close => exact absurd rfl hp
    | output c f => rfl

/-- The conditions at the start of a fresh part fit it. -/
theorem splitFrom_tests (t : OpenTest) (done tests : List OpenTest) (l : List Piece)
    (h : done.length + tests.length < maxLines) :
    splitFrom (t :: done) done.length (tests.map OpenTest.piece ++ l)
      = (splitFrom (t :: (done ++ tests)) (done ++ tests).length l).map
          (tests.map OpenTest.piece ++ ·) := by
  induction tests generalizing done with
  | nil =>
    rw [List.append_nil, List.map_nil, List.nil_append]
    cases splitFrom (t :: done) done.length l <;> rfl
  | cons u tests ih =>
    rw [List.length_cons] at h
    have hfit : fits (done.length + 1) done.length u.piece (tests.map OpenTest.piece ++ l) = true :=
      fits_test_iff.2 ⟨by omega, Or.inl (by omega)⟩
    have hopen : openAfter (t :: done) u.piece = t :: (done ++ [u]) := rfl
    have hlines : done.length + u.piece.weight = (done ++ [u]).length := by
      rw [List.length_append]
      rfl
    rw [List.map_cons, List.cons_append, splitFrom_same hfit, hopen, hlines,
      ih _ (by rw [List.length_append, List.length_singleton]; omega), map_map_eq,
      List.append_assoc]
    rfl

/-! ### Looking through a scope -/

/-- What is open after a piece inside a scope: nothing after the end of the outermost scope, or
scopes whose lines still to come are those in front of the piece without it. -/
theorem openAfter_cases (t : OpenTest) (tests : List OpenTest) (p : Piece) (rest : List Piece)
    {w : Nat} (hw : weightFrom tests.length (p :: rest) = some w) :
    (p = .close ∧ openAfter (t :: tests) p = []) ∨
    ∃ t' tests' w', openAfter (t :: tests) p = t' :: tests' ∧
      weightFrom tests'.length rest = some w' ∧ w = p.weight + w' := by
  cases p with
  | test c k =>
    rw [weightFrom_test] at hw
    obtain ⟨w', hw', rfl⟩ := Option.map_eq_some_iff.1 hw
    refine Or.inr ⟨t, tests ++ [(c, k)], w', rfl, ?_, Nat.add_comm _ _⟩
    rw [List.length_append]
    exact hw'
  | close =>
    rcases List.eq_nil_or_concat tests with rfl | ⟨tests', u, rfl⟩
    · exact Or.inl ⟨rfl, rfl⟩
    · rw [List.concat_eq_append] at hw ⊢
      rw [List.length_append, List.length_singleton, weightFrom_close_succ] at hw
      refine Or.inr ⟨t, tests', w, ?_, hw, (Nat.zero_add w).symm⟩
      rw [openAfter, ← List.cons_append, List.dropLast_concat]
  | output c f =>
    rw [weightFrom_output] at hw
    obtain ⟨w', hw', rfl⟩ := Option.map_eq_some_iff.1 hw
    exact Or.inr ⟨t, tests, w', rfl, hw', Nat.add_comm _ _⟩

/-- The ends that close a part fit it. -/
theorem parts_closes (tests : List OpenTest) {lines : Nat} (h : lines ≤ maxLines) (n : Nat) :
    Parts tests lines (List.replicate n .close) (List.replicate n .close) := by
  induction n generalizing tests lines with
  | zero => exact .nil _ _
  | succ n ih =>
    rw [List.replicate_succ]
    cases tests with
    | nil => exact .outside (ih _ (Nat.zero_le _))
    | cons t tests => exact .same h (ih _ h)

/-- In a scope that is too long, a piece that counts as too long for the part is no end of a scope,
and it does not fit the part. -/
theorem not_fits_of_full {depth lines w : Nat} {p : Piece} {rest : List Piece}
    (hbound : lines ≤ maxLines)
    (hw : weightFrom depth (p :: rest) = some w) (hbig : maxLines < lines + w)
    (h : maxLines < countedLines lines p + p.weight) :
    p ≠ .close ∧ ¬ fits (depth + 1) lines p rest = true := by
  cases p with
  | test c k =>
    rw [weightFrom_test] at hw
    obtain ⟨w', hw', rfl⟩ := Option.map_eq_some_iff.1 hw
    simp only [countedLines, Piece.weight] at h
    refine ⟨(by rintro ⟨⟩), ?_⟩
    rw [fits_test_iff, hw', Option.getD_some]
    split at h <;> omega
  | close =>
    simp only [countedLines, Piece.weight] at h
    omega
  | output c f =>
    simp only [countedLines, Piece.weight] at h
    refine ⟨(by rintro ⟨⟩), ?_⟩
    rw [fits_output_iff]
    omega

theorem le_countedLines (lines : Nat) (p : Piece) : lines ≤ countedLines lines p := by
  cases p with
  | test c k =>
    simp only [countedLines]
    split <;> omega
  | close => exact Nat.le_refl _
  | output c f => exact Nat.le_refl _

theorem weight_le_of_counted {lines : Nat} {p : Piece}
    (h : countedLines lines p + p.weight ≤ maxLines) : lines + p.weight ≤ maxLines :=
  Nat.le_trans (Nat.add_le_add_right (le_countedLines lines p) _) h

/-- A piece that counts as short enough fits the part. -/
theorem fits_of_counted {depth lines : Nat} {p : Piece} {rest : List Piece}
    (hbound : lines ≤ maxLines)
    (h : countedLines lines p + p.weight ≤ maxLines) : fits (depth + 1) lines p rest = true := by
  have hweight := weight_le_of_counted h
  cases p with
  | test c k =>
    simp only [countedLines, Piece.weight] at h
    refine fits_test_iff.2 ⟨hweight, Or.inl ?_⟩
    split at h <;> omega
  | close => exact fits_close_iff.2 hbound
  | output c f => exact fits_output_iff.2 hweight

/-- What `look` finds in a scope that is too long. -/
inductive Looked (t : OpenTest) (tests : List OpenTest) (lines : Nat) (l : List Piece) : Prop
  /-- A piece at which splitting fails. -/
  | stuck (p : Piece) (c : Command) (hlook : look (t :: tests) lines l = .stuck p)
      (hc : commandOf? p = some c)
      (hsplit : splitFrom (t :: tests) lines l = .error ⟨.ifScopeTooLarge, c⟩)
  /-- A place to cut, where the part so far is longer than the conditions of a fresh part. -/
  | cut (before : List Piece) (t' : OpenTest) (tests' : List OpenTest) (after : List Piece)
      (hlook : look (t :: tests) lines l = .cut before (t' :: tests') after)
      (hl : l = before ++ after) (hdepth : depthAfter (tests.length + 1) before = tests'.length + 1)
      (hparts : Parts (t :: tests) lines (before ++ List.replicate (tests'.length + 1) .close)
        (before ++ List.replicate (tests'.length + 1) .close))
      (hlong : tests'.length < lines + (before.map Piece.weight).sum)
      (hsplit : splitFrom (t :: tests) lines l = (splitFrom (t' :: tests') tests'.length after).map
        fun out => before ++ (reopen (t' :: tests') ++ out))

/-- The part is full in front of a piece: the scope is cut there, unless the part is a fresh one. -/
theorem looked_of_full {t : OpenTest} {tests : List OpenTest} {lines w : Nat} {p : Piece}
    {rest : List Piece} (hp : PartLines (t :: tests) lines)
    (hb : Bounded (tests.length + 1) (p :: rest))
    (hw : weightFrom tests.length (p :: rest) = some w) (hbig : maxLines < lines + w)
    (hfull : maxLines < countedLines lines p + p.weight) : Looked t tests lines (p :: rest) := by
  obtain ⟨hclose, hnofit⟩ := not_fits_of_full hp.bound hw hbig hfull
  have hheaders : tests.length ≤ lines := Nat.le_of_succ_le_succ hp.headers
  have hcut (hlong : tests.length < lines)
      (hroom : ¬ countedLines lines p ≤ (t :: tests).length - 1) :
      Looked t tests lines (p :: rest) := by
    refine .cut [] t tests (p :: rest) ?_ rfl rfl (parts_closes _ hp.bound _) hlong
      (splitFrom_full hclose hnofit)
    rw [look, if_pos hfull, if_neg hroom]
  cases p with
  | test c k =>
    -- a condition always finds room in a fresh part
    have hroom := hb.head_test
    have hcounted : tests.length < lines := by
      simp only [countedLines, Piece.weight] at hfull
      split at hfull <;> omega
    refine hcut hcounted (Nat.not_le.2 ?_)
    exact Nat.lt_of_lt_of_le hcounted (le_countedLines lines _)
  | close => exact absurd rfl hclose
  | output c f =>
    by_cases hstuck : lines ≤ tests.length
    · obtain rfl : lines = tests.length := Nat.le_antisymm hstuck hheaders
      refine .stuck (.output c f) c ?_ rfl ?_
      · rw [look, if_pos hfull]
        exact if_pos (Nat.le_refl _)
      · simp only [splitFrom, if_neg hnofit]
        rfl
    · exact hcut (Nat.lt_of_not_le hstuck) hstuck

/-- A piece goes to the part: what is found is found behind it. -/
theorem Looked.push {t t₁ : OpenTest} {tests tests₁ : List OpenTest} {lines : Nat} {p : Piece}
    {rest : List Piece} (hbound : lines ≤ maxLines)
    (hfit : countedLines lines p + p.weight ≤ maxLines)
    (hopen : openAfter (t :: tests) p = t₁ :: tests₁)
    (h : Looked t₁ tests₁ (lines + p.weight) rest) : Looked t tests lines (p :: rest) := by
  have hlook : look (t :: tests) lines (p :: rest) =
      (look (t₁ :: tests₁) (lines + p.weight) rest).push p := by
    rw [look, if_neg (Nat.not_lt.2 hfit), hopen]
  have hstep : splitFrom (t :: tests) lines (p :: rest) =
      (splitFrom (t₁ :: tests₁) (lines + p.weight) rest).map (p :: ·) := by
    rw [splitFrom_same (fits_of_counted hbound hfit), hopen]
  cases h with
  | stuck q c hfound hc hsplit =>
    refine .stuck q c ?_ hc ?_
    · rw [hlook, hfound]
      rfl
    · rw [hstep, hsplit]
      rfl
  | cut before t' tests' after hfound hl hdepth hparts hlong hsplit =>
    have hweight := weight_le_of_counted hfit
    have hopened : depthAfter (tests.length + 1) [p] = tests₁.length + 1 := by
      have hlength := length_openAfter (t :: tests) p []
      rw [hopen] at hlength
      exact hlength.symm
    refine .cut (p :: before) t' tests' after ?_ (congrArg (List.cons p) hl) ?_
      (.same hweight (hopen ▸ hparts)) ?_ ?_
    · rw [hlook, hfound]
      rfl
    · rw [← List.singleton_append, depthAfter_append, hopened, hdepth]
    · rw [List.map_cons, List.sum_cons]
      omega
    · rw [hstep, hsplit, map_map_eq]
      rfl

/-- A scope that is too long is looked through up to a piece before which it is cut or splitting
fails. -/
theorem look_spec {t : OpenTest} {tests : List OpenTest} {lines w : Nat} {l : List Piece}
    (hp : PartLines (t :: tests) lines) (hb : Bounded (tests.length + 1) l)
    (hw : weightFrom tests.length l = some w) (hbig : maxLines < lines + w) :
    Looked t tests lines l := by
  induction l generalizing t tests lines w with
  | nil => simp at hw
  | cons p rest ih =>
    have hbound := hp.bound
    by_cases hfull : maxLines < countedLines lines p + p.weight
    · exact looked_of_full hp hb hw hbig hfull
    · rw [Nat.not_lt] at hfull
      rcases openAfter_cases t tests p rest hw with ⟨rfl, hopen⟩ | ⟨t₁, tests₁, w₁, hopen, hw₁, rfl⟩
      · -- the scope would end here, but it is longer than a part
        cases tests with
        | nil =>
          obtain rfl := Option.some.inj hw
          omega
        | cons u tests => simp [openAfter] at hopen
      · have hp₁ := hp.step (weight_le_of_counted hfull)
        have hb₁ : Bounded (openAfter (t :: tests) p).length rest := Bounded.tail hb
        rw [hopen] at hp₁ hb₁
        exact (ih hp₁ hb₁ hw₁ (by omega)).push hbound hfull hopen

/-! ### The loop ends -/

/-- The loop passes a whole part: its scopes are short, and they end in it. -/
theorem loop_part {part l : List Piece} {r : Except Failure (List Piece)}
    (hclosed : ∀ c k rest, .test c k :: rest <:+ part → ∃ n ≤ maxLines, weightFrom 0 rest = some n)
    (h : Loop l r) : Loop (part ++ l) (r.map (part ++ ·)) := by
  induction part with
  | nil =>
    have hid : r.map (fun out => [] ++ out) = r := by cases r <;> rfl
    rw [hid]
    exact h
  | cons p part ih =>
    have hrest := ih fun c k rest hs => hclosed c k rest (hs.trans (List.suffix_cons _ _))
    have hmap : r.map (fun out => p :: part ++ out) = (r.map (part ++ ·)).map (p :: ·) := by
      rw [map_map_eq]
      rfl
    rw [hmap, List.cons_append]
    by_cases hp : ∃ c k, p = .test c k
    · obtain ⟨c, k, rfl⟩ := hp
      obtain ⟨n, hn, hw⟩ := hclosed c k part (List.suffix_refl _)
      refine .short ?_ hrest
      rw [weight, weightFrom_append hw]
      exact hn
    · exact .skip (fun c k he => hp ⟨c, k, he⟩) hrest

theorem Parts.closed_short {t : OpenTest} {part : List Piece} (h : Parts [t] 0 part part)
    (hd : depthAfter 1 part = 0) (c : Command) (k : Condition) (rest : List Piece)
    (hs : .test c k :: rest <:+ part) : ∃ n ≤ maxLines, weightFrom 0 rest = some n := by
  obtain ⟨n, hn⟩ := closed_of_suffix ((depthAfter_eq_zero_iff 1 part).1 hd).1 hs
  exact ⟨n, (h.small (Nat.zero_le _)).2 c k rest hs n hn, hn⟩

/-- A scope that fits the part is passed as a whole, and splitting copies it. -/
theorem loop_short {t : OpenTest} {tests : List OpenTest} {lines w : Nat} {l : List Piece}
    (hw : weightFrom tests.length l = some w) (hfit : lines + w ≤ maxLines)
    (hd : depthAfter (tests.length + 1) l = 0) (hb : Bounded (tests.length + 1) l)
    (hafter : ∀ after : List Piece, after.length < l.length → depthAfter 0 after = 0 →
      Bounded 0 after → Loop after (splitFrom [] 0 after)) :
    Loop l (splitFrom (t :: tests) lines l) := by
  induction l generalizing t tests lines w with
  | nil => simp at hw
  | cons p rest ih =>
    have hd' : depthAfter (openAfter (t :: tests) p).length rest = 0 := by
      rw [length_openAfter]
      exact hd
    have hb' : Bounded (openAfter (t :: tests) p).length rest := Bounded.tail hb
    rcases openAfter_cases t tests p rest hw with ⟨rfl, hopen⟩ | ⟨t₁, tests₁, w₁, hopen, hw₁, rfl⟩
    · rw [hopen] at hd' hb'
      have hf : fits (tests.length + 1) lines .close rest = true := fits_close_iff.2 (by omega)
      rw [splitFrom_same hf, hopen, splitFrom_nil_lines]
      exact .skip (by simp) (hafter rest (by simp) hd' hb')
    · rw [hopen] at hd' hb'
      have hrest : Loop rest (splitFrom (t₁ :: tests₁) (lines + p.weight) rest) :=
        ih hw₁ (by omega) hd' hb' fun after hlen => hafter after (by rw [List.length_cons]; omega)
      cases p with
      | test c k =>
        rw [weightFrom_test] at hw
        obtain ⟨w, hw', hweight⟩ := Option.map_eq_some_iff.1 hw
        simp only [Piece.weight] at hfit hweight
        have hf : fits (tests.length + 1) lines (.test c k) rest = true := by
          rw [fits_test_iff, hw', Option.getD_some]
          omega
        rw [splitFrom_same hf, hopen]
        refine .short ?_ hrest
        -- the lines of an inner scope are among those of the outermost one
        have hinner : ∀ d, ∀ w, weightFrom d rest = some w → ∃ v ≤ w,
            weightFrom 0 rest = some v := by
          intro d
          induction d with
          | zero => exact fun w hw => ⟨w, Nat.le_refl _, hw⟩
          | succ d ihd =>
            intro w hw
            obtain ⟨v, hv, hvw⟩ := weightFrom_mono hw
            obtain ⟨u, hu, huw⟩ := ihd v hvw
            exact ⟨u, by omega, huw⟩
        obtain ⟨v, hv, hvw⟩ := hinner _ _ hw'
        rw [weight, hvw, Option.getD_some]
        omega
      | close =>
        have hf : fits (tests.length + 1) lines .close rest = true := fits_close_iff.2 (by omega)
        rw [splitFrom_same hf, hopen]
        exact .skip (by simp) hrest
      | output c f =>
        have hf : fits (tests.length + 1) lines (.output c f) rest = true := by
          rw [fits_output_iff]
          simp only [Piece.weight] at hfit
          omega
        rw [splitFrom_same hf, hopen]
        exact .skip (by simp) hrest

/-- As many scopes as pieces are open only after conditions alone, and these are a line each. -/
theorem weight_of_depthAfter {d : Nat} {l : List Piece} (h : d + l.length ≤ depthAfter d l) :
    (l.map Piece.weight).sum = l.length ∧ depthAfter d l = d + l.length := by
  induction l generalizing d with
  | nil => exact ⟨rfl, rfl⟩
  | cons p l ih =>
    rw [List.length_cons] at h ⊢
    cases p with
    | test c k =>
      rw [depthAfter] at h ⊢
      obtain ⟨hsum, hd⟩ := ih (d := d + 1) (by omega)
      rw [List.map_cons, List.sum_cons, hsum, hd]
      exact ⟨Nat.add_comm _ _, by omega⟩
    | close =>
      -- an end opens no scope, and the pieces after it cannot make up for it
      have := depthAfter_le (d - 1) l
      rw [depthAfter] at h
      omega
    | output c f =>
      have := depthAfter_le d l
      rw [depthAfter] at h
      omega

theorem Bounded.tests {d : Nat} {tests : List OpenTest} {l : List Piece}
    (hd : d + tests.length ≤ maxLines) (h : Bounded (d + tests.length) l) :
    Bounded d (tests.map OpenTest.piece ++ l) := by
  induction tests generalizing d with
  | nil => exact h
  | cons t tests ih =>
    rw [List.length_cons] at hd h
    have hrest : Bounded (d + 1) (tests.map OpenTest.piece ++ l) :=
      ih (by omega) (by rwa [show d + 1 + tests.length = d + (tests.length + 1) by omega])
    intro m hm
    cases m with
    | nil => exact Nat.le_trans (Nat.le_add_right _ _) hd
    | cons p m =>
      obtain ⟨rfl, hm'⟩ := List.cons_prefix_cons.1 hm
      exact hrest m hm'

/-- The loop goes on after a cut: it passes the part in front of the cut and starts again at the
conditions that are opened again. -/
theorem loop_cut {t t' : OpenTest} {tests : List OpenTest} {before after : List Piece}
    (hd : depthAfter 1 (before ++ after) = 0) (hb : Bounded 1 (before ++ after))
    (hdb : depthAfter 1 before = tests.length + 1)
    (hparts : Parts [t] 0 (before ++ List.replicate (tests.length + 1) .close)
      (before ++ List.replicate (tests.length + 1) .close))
    (hlong : tests.length < 0 + (before.map Piece.weight).sum)
    (hrest : ((t' :: tests).map OpenTest.piece ++ after).length < (before ++ after).length + 1 →
      depthAfter 0 ((t' :: tests).map OpenTest.piece ++ after) = 0 →
      Bounded 0 ((t' :: tests).map OpenTest.piece ++ after) →
      Loop ((t' :: tests).map OpenTest.piece ++ after)
        (splitFrom [] 0 ((t' :: tests).map OpenTest.piece ++ after))) :
    Loop (before ++ (reopen (t' :: tests) ++ after))
      ((splitFrom (t' :: tests) tests.length after).map
        fun out => before ++ (reopen (t' :: tests) ++ out)) := by
  have hmax : tests.length + 1 ≤ maxLines := hdb ▸ hb before (List.prefix_append _ _)
  have hshorter : tests.length < before.length := by
    by_contra hle
    rw [Nat.not_lt] at hle
    have := weight_of_depthAfter (d := 1) (l := before) (by omega)
    omega
  have hclosed : depthAfter 0 ((t' :: tests).map OpenTest.piece ++ after) = 0 := by
    rw [depthAfter_append, depthAfter_tests, List.length_cons,
      Nat.zero_add, ← hdb, ← depthAfter_append]
    exact hd
  have hbound : Bounded 0 ((t' :: tests).map OpenTest.piece ++ after) := by
    refine Bounded.tests (by rw [List.length_cons]; omega) fun l hl => ?_
    rw [List.length_cons, Nat.zero_add, ← hdb, ← depthAfter_append]
    exact hb _ ((List.prefix_append_right_inj before).2 hl)
  have hsplit : splitFrom [] 0 ((t' :: tests).map OpenTest.piece ++ after)
      = (splitFrom (t' :: tests) tests.length after).map
        ((t' :: tests).map OpenTest.piece ++ ·) := by
    have htests := splitFrom_tests t' [] tests after (by simp; omega)
    rw [List.map_cons, List.cons_append, splitFrom_outside]
    rw [show openAfter [] t'.piece = [t'] from rfl,
      show (0 : Nat) = ([] : List OpenTest).length from rfl, htests, map_map_eq]
    rfl
  have hloop := hrest (by simp; omega) hclosed hbound
  rw [hsplit] at hloop
  have hend : depthAfter 1 (before ++ List.replicate (tests.length + 1) .close) = 0 := by
    rw [depthAfter_append, hdb, depthAfter_replicate_close, Nat.sub_self]
  have hall := loop_part (hparts.closed_short hend) hloop
  rw [map_map_eq] at hall
  simpa [reopen, Function.comp_def] using hall

/-- **The loop ends, and with what splitting gives.** Each cut leaves a shorter list to go on with:
the conditions that are opened again are fewer than the pieces in front of the cut. -/
theorem loop_split {pieces : List Piece} (hd : depthAfter 0 pieces = 0) (hb : Bounded 0 pieces) :
    Loop pieces (splitFrom [] 0 pieces) := by
  have main : ∀ n, ∀ l : List Piece, l.length = n → depthAfter 0 l = 0 → Bounded 0 l →
      Loop l (splitFrom [] 0 l) := by
    intro n
    induction n using Nat.strongRecOn with
    | ind n ih =>
      intro l hn hd hb
      subst hn
      cases l with
      | nil => exact .done
      | cons p rest =>
        have hd' : depthAfter (openAfter [] p).length rest = 0 := by
          rw [length_openAfter]
          exact hd
        have hb' : Bounded (openAfter [] p).length rest := Bounded.tail hb
        have hrest : ∀ after : List Piece, after.length < (p :: rest).length →
            depthAfter 0 after = 0 → Bounded 0 after → Loop after (splitFrom [] 0 after) :=
          fun after hlen => ih after.length hlen after rfl
        rw [splitFrom_outside]
        cases p with
        | close => exact .skip (by simp) (hrest rest (by simp) hd' hb')
        | output c f => exact .skip (by simp) (hrest rest (by simp) hd' hb')
        | test c k =>
          rw [show openAfter [] (.test c k) = [(c, k)] from rfl] at hd' hb' ⊢
          have hclosed := ((depthAfter_eq_zero_iff 1 rest).1 hd').2 0 Nat.zero_lt_one
          obtain ⟨w, hw⟩ := Option.isSome_iff_exists.1 hclosed
          have hweight : weight rest = w := by rw [weight, hw, Option.getD_some]
          by_cases hshort : w ≤ maxLines
          · refine .short (hweight ▸ hshort) (loop_short hw (by omega) hd' hb' ?_)
            exact fun after hlen => hrest after (by rw [List.length_cons]; omega)
          · rw [Nat.not_le] at hshort
            have hp : PartLines [(c, k)] 0 := PartLines.start (.test c k)
            rcases look_spec hp hb' hw (by omega) with
              ⟨q, c', hlook, hc, hsplit⟩ |
              ⟨before, t', tests', after, hlook, rfl, hdb, hparts, hlong, hsplit⟩
            · rw [hsplit]
              exact .stuck (hweight ▸ hshort) hlook hc
            · rw [hsplit]
              refine .cut (hweight ▸ hshort) hlook ?_
              exact loop_cut hd' hb' hdb hparts hlong (hrest _)
  exact main pieces.length pieces rfl hd hb

/-! ## Capacity -/

/-- An oversized piece is no end of a scope, so there is a command to blame. -/
theorem commandOf?_of_oversized {pieces pre : List Piece} {p : Piece} (hb : Bounded 0 pieces)
    (h : FirstOversized 0 pieces pre p) : ∃ c, commandOf? p = some c := by
  cases p with
  | test c k => exact ⟨c, rfl⟩
  | output c f => exact ⟨c, rfl⟩
  | close =>
    have hopen := hb pre ((List.prefix_append _ _).trans h.mem)
    have hover := h.oversized.2
    simp only [Piece.weight] at hover
    omega

/-- **Which scopes can be split, and what splitting gives.** Let every scope be closed and at most
255 be open at once. Then the loop that cuts one too long scope after the other ends, with the
result of `split`. It fails exactly if some piece inside `d` scopes has more than `255 - (d - 1)`
lines, and then blames the first such piece. Otherwise every condition of the result has its end, at
most 255 lines after it. -/
theorem split_capacity {pieces : List Piece} (hclosed : unclosed? pieces = none)
    (hb : Bounded 0 pieces) :
    (∀ r, Loop pieces r ↔ r = split pieces) ∧
    ((∃ f, split pieces = .error f) ↔
      ∃ pre p, pre ++ [p] <+: pieces ∧ Oversized (depthAfter 0 pre) p) ∧
    (∀ f, split pieces = .error f → ∃ pre p c, FirstOversized 0 pieces pre p ∧
      commandOf? p = some c ∧ f = ⟨.ifScopeTooLarge, c⟩) ∧
    ∀ out, split pieces = .ok out → ∀ c k rest, .test c k :: rest <:+ out →
      ∃ n ≤ 0xFF, weightFrom 0 rest = some n := by
  have hdepth := (unclosed?_eq_none_iff pieces).1 hclosed
  have hloop : Loop pieces (split pieces) := loop_split hdepth hb
  have herror : ∀ f, split pieces = .error f ↔ ∃ pre p c, FirstOversized 0 pieces pre p ∧
      commandOf? p = some c ∧ f = ⟨.ifScopeTooLarge, c⟩ :=
    splitFrom_eq_error_iff ⟨Nat.zero_le _, Nat.zero_le _⟩ hb
  refine ⟨fun r => ⟨fun h => h.unique hloop, fun h => h ▸ hloop⟩, ⟨?_, ?_⟩,
    fun f => (herror f).1, ?_⟩
  · rintro ⟨f, hf⟩
    obtain ⟨pre, p, c, hfirst, -⟩ := (herror f).1 hf
    exact ⟨pre, p, hfirst.mem, hfirst.oversized⟩
  · rintro ⟨pre, p, hmem, hover⟩
    obtain ⟨pre', p', hfirst⟩ := exists_firstOversized hmem hover
    obtain ⟨c, hc⟩ := commandOf?_of_oversized hb hfirst
    exact ⟨_, (herror _).2 ⟨pre', p', c, hfirst, hc, rfl⟩⟩
  · intro out hout c k rest hs
    have hparts := parts_of_splitFrom (Nat.zero_le _) hout
    have hend : unclosed? out = none := by
      rw [unclosed?_eq_none_iff]
      exact hparts.depthAfter_eq.trans hdepth
    obtain ⟨n, hn⟩ := closed_of_suffix hend hs
    exact ⟨n, (hparts.small (Nat.zero_le _)).2 c k rest hs n hn, hn⟩

/-- A scope in a scope, around a text of 200 lines and one of 255. -/
def tooLong : List Piece :=
  let c := Command.ofLine (ascii "If 0x100 =. 1")
  let k : Condition := ⟨0x100, .equal, .byte, 1⟩
  [.test c k, .test c k, .output c (.block (List.replicate 199 Byte.newline)),
   .output (Command.ofLine (ascii "SendRawWeight")) (.block (List.replicate 254 Byte.newline)),
   .close, .close]

set_option maxRecDepth 4000 in
theorem split_tooLong :
    split tooLong = .error ⟨.ifScopeTooLarge, Command.ofLine (ascii "SendRawWeight")⟩ := by
  rfl

theorem bounded_tooLong : Bounded 0 tooLong := by
  intro l hl
  have hlen : l.length ≤ 6 := hl.length_le
  have hdepth := depthAfter_le 0 l
  rw [maxLines]
  omega

theorem split_capacity_tooLong :
    unclosed? tooLong = none ∧ Bounded 0 tooLong ∧
      Loop tooLong (.error ⟨.ifScopeTooLarge, Command.ofLine (ascii "SendRawWeight")⟩) :=
  ⟨rfl, bounded_tooLong, ((split_capacity rfl bounded_tooLong).1 _).2 split_tooLong.symm⟩

end CheatScript.Scope
