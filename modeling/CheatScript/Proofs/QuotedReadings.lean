import CheatScript.Proofs.TokenSpans
import Mathlib.Data.List.Induction

/-!
# Proofs: the readings of a quoted string

A quoted string is a quote, then items, as many as there can be, and then a quote if there is one.
An item is an escape, which is a backslash and any byte but a newline, or else any byte but a quote.
A matcher that backtracks tries every way to read a text in this form, in a fixed order. It comes to
many ends more than once: a run of backslashes can be read in exponentially many ways.

The walk over a text visits every position once, and still finds the same ends in the same order.
Positions only grow along a reading, so when the walk comes back to a position it has left that
position for good, and all ends of the readings from there are known.
-/

namespace CheatScript

/-! ## Backtracking -/

/-- A pattern for a part of a text. -/
inductive Pattern
  /-- A byte of a class. -/
  | byte (accepts : UInt8 → Bool)
  /-- One pattern and then another. -/
  | seq (first next : Pattern)
  /-- One pattern or else another. -/
  | alt (first other : Pattern)
  /-- A pattern any number of times, preferably once more. -/
  | many (item : Pattern)
  /-- A pattern or nothing, preferably the pattern. -/
  | optional (item : Pattern)

namespace Pattern

/-- The ends of any number of turns from position `i`, where `turn` has the ends of one turn. Every
turn goes forward inside a text of the given size. -/
def turns (turn : Nat → List Nat) (size i : Nat) : List Nat :=
  ((turn i).flatMap fun j => if i < j ∧ j ≤ size then turns turn size j else []) ++ [i]
termination_by size - i

/-- The ends of the matches that start at position `i` of a text, in the order in which a matcher
that backtracks tries them and as often as it does. -/
def ends (s : Bytes) : Pattern → Nat → List Nat
  | byte accepts, i => if s[i]?.any accepts then [i + 1] else []
  | seq first next, i => (first.ends s i).flatMap (next.ends s)
  | alt first other, i => first.ends s i ++ other.ends s i
  | many item, i => turns (item.ends s) s.length i
  | optional item, i => item.ends s i ++ [i]

/-- One more turn, or what comes after the turns. -/
theorem ends_seq_many (item next : Pattern) (s : Bytes) (i : Nat) :
    ((many item).seq next).ends s i =
      ((item.ends s i).flatMap fun j =>
        if i < j ∧ j ≤ s.length then ((many item).seq next).ends s j else []) ++ next.ends s i := by
  rw [ends, ends, turns, List.flatMap_append, List.flatMap_assoc, List.flatMap_singleton]
  congr 2
  funext j
  split
  · rfl
  · rfl

end Pattern

namespace Quote

open Pattern

/-- A backslash and the byte that it escapes. -/
def escape : Pattern := (byte (· == Byte.backslash)).seq (byte (· != Byte.newline))

/-- The items of a quoted string and the closing quote if there is one. -/
def body : Pattern :=
  (many (escape.alt (byte (· != Byte.quote)))).seq (optional (byte (· == Byte.quote)))

/-- A quoted string. -/
def quotedString : Pattern := (byte (· == Byte.quote)).seq body

/-! ## The readings as a matcher tries them -/

variable {p : Nat} {c : UInt8} {s r : Bytes}

/-- The ends of the readings in which a byte escapes the next one. -/
def escapeSpans (p : Nat) (c : UInt8) (s : Bytes) : List Nat :=
  if c = Byte.backslash && escapes s then spans (p + 2) s.tail else []

theorem spans_cons (p : Nat) (c : UInt8) (s : Bytes) :
    spans p (c :: s) =
      escapeSpans p c s ++ (if c = Byte.quote then [p + 1] else spans (p + 1) s) ++ [p] := by
  cases s with
  | nil => simp [spans, escapeSpans, escapes]
  | cons d s => rw [spans, escapeSpans]; rfl

theorem getElem?_of_drop (h : s.drop p = c :: r) : s[p]? = some c := by
  rw [← List.head?_drop, h, List.head?_cons]

theorem drop_succ_of_drop (h : s.drop p = c :: r) : s.drop (p + 1) = r := by
  rw [← List.tail_drop, h, List.tail_cons]

theorem escapes_eq (s : Bytes) : escapes s = s.head?.any (· != Byte.newline) := by
  cases s <;> rfl

theorem ends_item (h : s.drop p = c :: r) :
    (escape.alt (byte (· != Byte.quote))).ends s p =
      (if c = Byte.backslash && escapes r then [p + 2] else []) ++
        (if c = Byte.quote then [] else [p + 1]) := by
  have hnext : s[p + 1]?.any (· != Byte.newline) = escapes r := by
    rw [escapes_eq, ← drop_succ_of_drop h, List.head?_drop]
  simp only [escape, ends, getElem?_of_drop h, Option.any_some]
  by_cases hc : c = Byte.backslash
  · simp [hc, hnext]
  · simp [hc]

/-- From a position on, a matcher tries the readings of the bytes that remain. -/
theorem ends_body (h : s.drop p = r) : body.ends s p = spans p r := by
  induction r using escape_induction generalizing p with
  | nil =>
    have hnone : s[p]? = none := by rw [← List.head?_drop, h]; rfl
    rw [body, ends_seq_many]
    simp [escape, ends, hnone, spans]
  | cons c r ih ihEscape =>
    have hlength : s.length = p + (r.length + 1) := by
      have hdrop := congrArg List.length h
      rw [List.length_drop, List.length_cons] at hdrop
      omega
    have hrest : s.drop (p + 1) = r := drop_succ_of_drop h
    have hescapes : ((if c = Byte.backslash && escapes r then [p + 2] else []).flatMap fun j =>
        if p < j ∧ j ≤ s.length then body.ends s j else []) = escapeSpans p c r := by
      rw [escapeSpans]
      split
      · next hboth =>
        have htwo : p < p + 2 ∧ p + 2 ≤ s.length := by
          have htail := length_tail_of_escapes hboth
          omega
        rw [List.flatMap_singleton, if_pos htwo, ihEscape (by rw [← hrest, List.tail_drop])]
      · rfl
    have hone : p < p + 1 ∧ p + 1 ≤ s.length := by omega
    rw [body, ends_seq_many, ← body, ends_item h, List.flatMap_append, hescapes, spans_cons]
    -- A quote is no item, and only a quote can close.
    by_cases hc : c = Byte.quote
    · simp [ends, getElem?_of_drop h, hc]
    · simp [ends, getElem?_of_drop h, hc, hone, ih hrest]

/-! ## The readings that a walk has tried -/

theorem eraseDups_concat (l : List Nat) (e : Nat) :
    (l ++ [e]).eraseDups = if e ∈ l then l.eraseDups else l.eraseDups ++ [e] := by
  rw [List.eraseDups_append]
  split
  · next he => simp [List.removeAll, he]
  · next he => simp [List.removeAll, he, List.eraseDups_cons]

theorem eraseDups_append_of_subset {l m : List Nat} (h : m ⊆ l) :
    (l ++ m).eraseDups = l.eraseDups := by
  have hnone : m.removeAll l = [] := by
    rw [List.removeAll, List.filter_eq_nil_iff]
    intro e he
    simp [h he]
  rw [List.eraseDups_append, hnone, List.eraseDups_nil, List.append_nil]

/-- Whether a walk that is about to go on at position `p`, where the bytes `s` remain, has tried the
readings with the ends `l`. From `p` on, it has been only at positions from where it has tried all
readings. -/
structure Tried (p : Nat) (s : Bytes) (l : List Nat) (w : Walk) : Prop where
  ends : w.ends.reverse = l.eraseDups
  found : ∀ e, w.found.contains e = true ↔ e ∈ l
  visited : ∀ k, w.visited.contains (p + k) = true → spans (p + k) (s.drop k) ⊆ l

namespace Tried

variable {l m : List Nat} {w : Walk}

theorem start (p : Nat) (s : Bytes) : Tried p s [] {} where
  ends := rfl
  found e := by simp
  visited k hk := by
    rw [Positions.contains_empty] at hk
    cases hk

theorem tail (h : Tried p s l w) : Tried (p + 1) s.tail l w where
  ends := h.ends
  found := h.found
  visited k hk := by
    rw [Nat.add_assoc, Nat.add_comm 1 k] at hk ⊢
    rw [List.drop_tail]
    exact h.visited (k + 1) hk

/-- A walk that comes back to a position has tried the readings from there. -/
theorem back (h : Tried (p + 1) s.tail l w) (hp : w.visited.contains p = true → spans p s ⊆ l) :
    Tried p s l w where
  ends := h.ends
  found := h.found
  visited k hk := by
    cases k with
    | zero => exact hp hk
    | succ k =>
      rw [Nat.add_comm k 1, ← Nat.add_assoc] at hk ⊢
      rw [Nat.add_comm 1 k, ← List.drop_tail]
      exact h.visited k hk

/-- The position that a walk is at may be open: the readings from there are still being tried. -/
theorem visit (h : Tried p s l w) : Tried (p + 1) s.tail l (w.visit p) where
  ends := h.ends
  found := h.found
  visited k hk := by
    have hne : p ≠ p + 1 + k := by omega
    refine h.tail.visited k ?_
    simpa [Walk.visit, hne] using hk

/-- Readings whose ends are known need not be tried. -/
theorem append_of_subset (h : Tried p s l w) (hm : m ⊆ l) : Tried p s (l ++ m) w where
  ends := by rw [h.ends, eraseDups_append_of_subset hm]
  found e := by
    rw [h.found, List.mem_append, or_iff_left_of_imp (@hm e)]
  visited k hk := List.subset_append_of_subset_left m (h.visited k hk)

theorem addEnd (h : Tried p s l w) (e : Nat) : Tried p s (l ++ [e]) (w.addEnd e) := by
  rw [Walk.addEnd]
  split
  · next hfound =>
    exact h.append_of_subset (List.cons_subset.2 ⟨(h.found e).1 hfound, List.nil_subset l⟩)
  · next hfound =>
    have hnew : e ∉ l := fun he => hfound ((h.found e).2 he)
    refine ⟨?_, fun q => ?_, fun k hk => List.subset_append_of_subset_left [e] (h.visited k hk)⟩
    · rw [List.reverse_cons, h.ends, eraseDups_concat, if_neg hnew]
    · rw [Positions.contains_insert, Bool.or_eq_true, h.found, beq_iff_eq, List.mem_append,
        List.mem_singleton, eq_comm]

end Tried

variable {l : List Nat} {w : Walk}

/-- A walk from a position on goes to no position before it. -/
theorem contains_visited_walk {q : Nat} (h : q < p) (s : Bytes) (w : Walk) :
    (walk p s w).visited.contains q = w.visited.contains q := by
  refine walk_preserves (P := fun w' => w'.visited.contains q = w.visited.contains q) p s
    (fun w' r hle hw => ?_) (fun w' e _ _ hw => ?_) rfl
  · have hne : r ≠ q := by omega
    simp [Walk.visit, hw, hne]
  · rw [Walk.addEnd]
    split
    · exact hw
    · exact hw

theorem Tried.walk_of_visited (h : Tried p s l w) (hp : w.visited.contains p = true) :
    Tried p s (l ++ spans p s) (Quote.walk p s w) := by
  have hsame : Quote.walk p s w = w := by
    cases s with
    | nil => rw [Quote.walk, hp, if_pos rfl]
    | cons c s => rw [Quote.walk, hp, if_pos rfl]
  rw [hsame]
  exact h.append_of_subset (h.visited 0 hp)

/-- A walk tries all readings of the bytes that remain. -/
theorem Tried.walk (h : Tried p s l w) : Tried p s (l ++ spans p s) (walk p s w) := by
  induction s using escape_induction generalizing p l w with
  | nil =>
    cases hvisited : w.visited.contains p with
    | true => exact h.walk_of_visited hvisited
    | false =>
      rw [Quote.walk, hvisited, if_neg Bool.false_ne_true]
      exact (h.visit.addEnd p).back fun _ => List.subset_append_right l [p]
  | cons c s ih ihEscape =>
    cases hvisited : w.visited.contains p with
    | true => exact h.walk_of_visited hvisited
    | false =>
      have hescape : Tried (p + 1) s (l ++ escapeSpans p c s) (walkEscape p c s w) := by
        rw [walkEscape, escapeSpans]
        split
        · -- Behind an escape the walk has passed over the next position, which it may have been at
          -- before.
          refine (ihEscape h.visit.tail).back fun hnext => ?_
          rw [contains_visited_walk (Nat.lt_succ_self _)] at hnext
          exact List.subset_append_of_subset_left _ (h.visit.visited 0 hnext)
        · rw [List.append_nil]
          exact h.visit
      rw [walk_cons hvisited, spans_cons, ← List.append_assoc, ← List.append_assoc]
      refine Tried.back (Tried.addEnd ?_ p) fun _ => ?_
      · split
        · exact hescape.addEnd (p + 1)
        · exact ih hescape
      · rw [spans_cons, List.append_assoc l, List.append_assoc l]
        exact List.subset_append_right l _

theorem quoteEnds_eq_eraseDups (s : Bytes) : quoteEnds s = (spans 1 s).eraseDups :=
  (Tried.start 1 s).walk.ends

/-! ## Positions in a text -/

theorem eraseDups_map {f : Nat → Nat} (hf : Function.Injective f) (l : List Nat) :
    (l.map f).eraseDups = l.eraseDups.map f := by
  induction l using List.reverseRecOn with
  | nil => rfl
  | append_singleton l e ih =>
    rw [List.map_append, List.map_singleton, eraseDups_concat, eraseDups_concat, ih]
    by_cases he : e ∈ l
    · rw [if_pos he, if_pos (List.mem_map_of_mem he)]
    · rw [if_neg he, if_neg (mt (List.mem_map_of_injective hf).1 he), List.map_append,
        List.map_singleton]

theorem spans_add (i p : Nat) (s : Bytes) : spans (i + p) s = (spans p s).map (i + ·) := by
  induction s using escape_induction generalizing p with
  | nil => rfl
  | cons c s ih ihEscape =>
    have hescape : escapeSpans (i + p) c s = (escapeSpans p c s).map (i + ·) := by
      rw [escapeSpans, escapeSpans, Nat.add_assoc, ihEscape]
      split
      · rfl
      · rfl
    rw [spans_cons, spans_cons, hescape, Nat.add_assoc, ih, List.map_append, List.map_append]
    split
    · rfl
    · rfl

/-- The possible ends of the quoted string at position `i` of a text, as positions in the text. -/
def endsAt (s : Bytes) (i : Nat) : List Nat := (quoteEnds (s.drop (i + 1))).map (i + ·)

theorem ends_quotedString {i : Nat} (h : s[i]? = some Byte.quote) :
    quotedString.ends s i = (spans 1 (s.drop (i + 1))).map (i + ·) := by
  have hquote : (byte (· == Byte.quote)).ends s i = [i + 1] := by simp [ends, h]
  rw [quotedString, ends, hquote, List.flatMap_singleton, ends_body rfl, spans_add]

/-- **Visiting every position once loses no reading.** The ends of the quoted string at a quote are
those that a matcher that backtracks tries, in its order, each at its first place. There is always
one, and all lie behind the opening quote and inside the text. -/
theorem endsAt_eq_backtracking {s : Bytes} {i : Nat} (h : s[i]? = some Byte.quote) :
    endsAt s i = (quotedString.ends s i).eraseDups ∧ endsAt s i ≠ [] ∧
      ∀ e ∈ endsAt s i, i < e ∧ e ≤ s.length := by
  refine ⟨?_, ?_, fun e he => ?_⟩
  · rw [endsAt, quoteEnds_eq_eraseDups, ends_quotedString h,
      eraseDups_map fun _ _ => Nat.add_left_cancel]
  · intro hnil
    have hhead := head?_quoteEnds (s.drop (i + 1))
    rw [List.map_eq_nil_iff.1 hnil] at hhead
    cases hhead
  · obtain ⟨n, hn, rfl⟩ := List.mem_map.1 he
    obtain ⟨hpos, hle⟩ := mem_quoteEnds hn
    have hlt : i < s.length := (List.getElem?_eq_some_iff.1 h).1
    rw [List.length_drop] at hle
    omega

/-- Two backslashes in front of a quote have eight readings, which have five ends. -/
theorem endsAt_eq_backtracking_backslashes :
    (ascii "+\"\\\\\"x")[1]? = some Byte.quote ∧
      (quotedString.ends (ascii "+\"\\\\\"x") 1).eraseDups = [5, 4, 6, 3, 2] := by
  have hends : endsAt (ascii "+\"\\\\\"x") 1 = [5, 4, 6, 3, 2] := rfl
  exact ⟨rfl, (endsAt_eq_backtracking rfl).1.symm.trans hends⟩

end Quote

end CheatScript
