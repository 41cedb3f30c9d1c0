import CheatScript.Source
import CheatScript.Token
import CheatScript.Proofs.SplitText
import Mathlib.Tactic.Common

/-!
# Proofs: reading literals and comments

A text with string literals and comments is read byte by byte, by a machine that knows what it is
inside of. A literal ends at the first quote that no backslash escapes. The two passes that take
comments out of a source text and the scanner of a line look for that end in three ways, and find
the same one. The passes differ in whether a backslash escapes a newline, but a newline is passed
over either way; the scanner has further readings of a backslash, but prefers this one.
-/

namespace CheatScript

namespace Source

/-! ## The machine -/

/-- What a reader is inside of. -/
inductive Reading
  /-- Neither a literal nor a comment. -/
  | code
  /-- The same, right behind a slash. -/
  | slash
  /-- A string literal. -/
  | literal
  /-- A string literal, right behind a backslash that escapes. -/
  | escape
  /-- A comment. -/
  | comment
  /-- A comment, right behind a star. -/
  | star
  deriving DecidableEq

/-- The part of a text that a reader is in. -/
inductive Place
  | outside
  | literal
  | comment
  deriving DecidableEq

def Reading.place : Reading → Place
  | .code | .slash => .outside
  | .literal | .escape => .literal
  | .comment | .star => .comment

/-- A kind of comment: the byte that opens it behind a slash, and how it is read on. -/
structure CommentKind where
  mark : UInt8
  inside : Reading → UInt8 → Reading

/-- Comments from `/*` to `*/`. -/
def blockKind : CommentKind where
  mark := Byte.star
  inside r c :=
    if r = .star ∧ c = Byte.slash then .code else if c = Byte.star then .star else .comment

/-- Comments from `//` to the end of the line. -/
def lineKind : CommentKind where
  mark := Byte.slash
  inside _ c := if c = Byte.newline then .code else .comment

namespace CommentKind

variable (kind : CommentKind)

def outside (c : UInt8) : Reading :=
  if c = Byte.quote then .literal else if c = Byte.slash then .slash else .code

/-- Reads one byte. -/
def step : Reading → UInt8 → Reading
  | .code, c => outside c
  | .slash, c => if c = kind.mark then .comment else outside c
  | .literal, c =>
    if c = Byte.backslash then .escape else if c = Byte.quote then .code else .literal
  | .escape, _ => .literal
  | .comment, c => kind.inside .comment c
  | .star, c => kind.inside .star c

/-- What a reader is inside of at the end of a text. -/
def read (r : Reading) (s : Bytes) : Reading := s.foldl kind.step r

/-- The number of bytes up to the end of the literal or comment that a reader is inside of, if it
ends. -/
def reach : Reading → Bytes → Option Nat
  | _, [] => none
  | r, c :: s => if kind.step r c = .code then some 1 else (reach (kind.step r c) s).map (· + 1)

variable {kind} {next : Bytes → Option (Nat × Bytes)}

theorem read_cons (r : Reading) (c : UInt8) (s : Bytes) :
    kind.read r (c :: s) = kind.read (kind.step r c) s := rfl

theorem read_append (r : Reading) (s t : Bytes) :
    kind.read r (s ++ t) = kind.read (kind.read r s) t := List.foldl_append

theorem read_quote (s : Bytes) : kind.read .code (Byte.quote :: s) = kind.read .literal s := rfl

theorem read_marks (s : Bytes) :
    kind.read .code (Byte.slash :: kind.mark :: s) = kind.read .comment s := by
  have hopens : kind.step .slash kind.mark = .comment := if_pos rfl
  rw [read_cons, read_cons, ← hopens]
  rfl

/-- A literal or comment that ends does so at the same place whatever follows. -/
theorem exists_of_reach {r : Reading} {s : Bytes} {n : Nat} (h : kind.reach r s = some n) :
    ∃ body rest, s = body ++ rest ∧ body.length = n ∧ kind.read r body = .code ∧
      ∀ x, kind.reach r (body ++ x) = some n := by
  induction s generalizing r n with
  | nil => cases h
  | cons c s ih =>
    rw [reach] at h
    by_cases hcode : kind.step r c = .code
    · rw [if_pos hcode] at h
      obtain rfl := Option.some.inj h
      refine ⟨[c], s, rfl, rfl, hcode, fun x => ?_⟩
      rw [List.singleton_append, reach, if_pos hcode]
    · rw [if_neg hcode] at h
      obtain ⟨m, hm, rfl⟩ := Option.map_eq_some_iff.1 h
      obtain ⟨body, rest, rfl, hlength, hread, hx⟩ := ih hm
      refine ⟨c :: body, rest, rfl, congrArg (· + 1) hlength, hread, fun x => ?_⟩
      rw [List.cons_append, reach, if_neg hcode, hx x, Option.map_some]

/-! ## The ends of literals and comments -/

theorem step_literal {c : UInt8} (hslash : c ≠ Byte.backslash) (hquote : c ≠ Byte.quote) :
    kind.step .literal c = .literal := by
  rw [step, if_neg hslash, if_neg hquote]

theorem reach_of_code {r : Reading} {c : UInt8} (h : kind.step r c = .code) (s : Bytes) :
    kind.reach r (c :: s) = some 1 := if_pos h

/-- Where a literal or comment goes on, one more byte belongs to it. -/
theorem getD_reach_cons {r r' : Reading} {c : UInt8} (h : kind.step r c = r') (hne : r' ≠ .code)
    (s : Bytes) :
    (kind.reach r (c :: s)).getD (c :: s).length = (kind.reach r' s).getD s.length + 1 := by
  rw [reach, h, if_neg hne, List.length_cons]
  exact Option.getD_map (· + 1) s.length _

theorem getD_reach_escape (d : UInt8) (s : Bytes) :
    (kind.reach .literal (Byte.backslash :: d :: s)).getD (Byte.backslash :: d :: s).length =
      (kind.reach .literal s).getD s.length + 2 := by
  have hescape : kind.step .literal Byte.backslash = .escape := rfl
  have hliteral : kind.step .escape d = .literal := rfl
  rw [getD_reach_cons hescape nofun, getD_reach_cons hliteral nofun]

theorem literalRest_eq (kind : CommentKind) (newlines : Bool) (s : Bytes) :
    literalRest newlines s = (kind.reach .literal s).getD s.length := by
  fun_induction literalRest newlines s with
  | case1 => rfl
  | case2 c =>
    by_cases hc : kind.step .literal c = .code
    · rw [reach_of_code hc]
      rfl
    · exact (getD_reach_cons rfl hc []).symm
  | case3 c d s hescape ih =>
    obtain ⟨rfl, -⟩ : c = Byte.backslash ∧ (newlines || d != Byte.newline) = true := by
      simpa using hescape
    rw [ih, getD_reach_escape]
  | case4 d s hescape =>
    rw [reach_of_code rfl]
    rfl
  | case5 c d s hescape hquote ih =>
    rw [ih]
    by_cases hc : c = Byte.backslash
    · obtain rfl : d = Byte.newline := by simp_all
      rw [hc, getD_reach_escape, getD_reach_cons (step_literal (by decide) (by decide)) nofun]
    · rw [getD_reach_cons (step_literal hc hquote) nofun]

theorem blockRest_eq (s : Bytes) : blockRest s = (blockKind.reach .comment s).getD s.length := by
  have hcode : ∀ c, blockKind.step .comment c ≠ .code := by
    intro c
    by_cases hc : c = Byte.star <;> simp [step, blockKind, hc]
  fun_induction blockRest s with
  | case1 => rfl
  | case2 c => exact (getD_reach_cons rfl (hcode c) []).symm
  | case3 c d s hend =>
    obtain ⟨rfl, rfl⟩ : c = Byte.star ∧ d = Byte.slash := by simpa using hend
    rfl
  | case4 c d s hend ih =>
    rw [ih, getD_reach_cons rfl (hcode c)]
    by_cases hc : c = Byte.star
    · -- Behind the star stands no slash, so the comment is read on as if there had been no star.
      have hd : d ≠ Byte.slash := by simp_all
      have hstep : blockKind.step .star d = blockKind.step .comment d := by
        simp [step, blockKind, hd]
      have hstar : blockKind.step .comment c = .star := by simp [step, blockKind, hc]
      rw [hstar, getD_reach_cons hstep (hcode d), getD_reach_cons rfl (hcode d)]
    · have hcomment : blockKind.step .comment c = .comment := by simp [step, blockKind, hc]
      rw [hcomment]

/-! ## Open literals and comments -/

/-- A literal or comment that does not end goes on behind the text. -/
theorem reach_append {r : Reading} {s : Bytes} (h : kind.reach r s = none) (x : Bytes) :
    kind.reach r (s ++ x) = (kind.reach (kind.read r s) x).map (· + s.length) := by
  induction s generalizing r with
  | nil => simp [read]
  | cons c s ih =>
    rw [reach] at h
    split at h
    · cases h
    · next hcode =>
      rw [Option.map_eq_none_iff] at h
      rw [List.cons_append, reach, if_neg hcode, ih h, Option.map_map, read_cons, List.length_cons]
      rfl

/-- What one step does inside a literal or a comment, it does up to the end: either it comes to
code, or it stays where it is. -/
theorem place_read {r : Reading} {s : Bytes} {place : Place}
    (hstep : ∀ r c, r.place = place → kind.step r c = .code ∨ (kind.step r c).place = place)
    (hr : r.place = place) (h : kind.reach r s = none) : (kind.read r s).place = place := by
  induction s generalizing r with
  | nil => exact hr
  | cons c s ih =>
    rw [reach] at h
    split at h
    · cases h
    · next hcode =>
      rw [Option.map_eq_none_iff] at h
      exact ih ((hstep r c hr).resolve_left hcode) h

theorem step_of_literal (r : Reading) (c : UInt8) (h : r.place = .literal) :
    kind.step r c = .code ∨ (kind.step r c).place = .literal := by
  cases r with
  | literal =>
    rw [step]
    split
    · exact .inr rfl
    · split
      · exact .inl rfl
      · exact .inr rfl
  | escape => exact .inr rfl
  | _ => cases h

theorem eq_quote_of_step {r : Reading} {c : UInt8} (hr : r.place = .literal)
    (h : kind.step r c = .code) : r = .literal ∧ c = Byte.quote := by
  cases r with
  | literal =>
    rw [step] at h
    split at h
    · cases h
    · split at h
      · next hc => exact ⟨rfl, hc⟩
      · cases h
  | escape => cases h
  | _ => cases hr

/-- Whether an edit finds the string literals and the comments of a kind. -/
structure Strips (kind : CommentKind) (next : Bytes → Option (Nat × Bytes)) : Prop where
  inside : ∀ r c, kind.inside r c = .code ∨ (kind.inside r c).place = .comment
  other : ∀ c s, c ≠ Byte.quote → ¬ (c = Byte.slash ∧ s.head? = some kind.mark) →
    next (c :: s) = none
  literal : ∀ body, (∀ x, kind.reach .literal (body ++ x) = some body.length) →
    ∃ new, ∀ x, next (Byte.quote :: body ++ x) = some ((Byte.quote :: body).length, new)
  comment : ∀ body, (∀ x, kind.reach .comment (body ++ x) = some body.length) →
    ∃ new, ∀ x, next (Byte.slash :: kind.mark :: body ++ x) =
      some ((Byte.slash :: kind.mark :: body).length, new)

/-- The end of a text from where a literal or comment is open. -/
inductive OpenEnd (kind : CommentKind) : Place → Bytes → Prop
  | nothing : OpenEnd kind .outside []
  | literal {s : Bytes} (h : kind.reach .literal s = none) : OpenEnd kind .literal (Byte.quote :: s)
  | comment {s : Bytes} (h : kind.reach .comment s = none) :
      OpenEnd kind .comment (Byte.slash :: kind.mark :: s)

theorem Strips.step_of_comment (hstrips : kind.Strips next)
    (r : Reading) (c : UInt8) (h : r.place = .comment) :
    kind.step r c = .code ∨ (kind.step r c).place = .comment := by
  cases r with
  | comment => exact hstrips.inside _ c
  | star => exact hstrips.inside _ c
  | _ => cases h

/-- What follows an open literal or comment belongs to it, if it does not end there. -/
theorem OpenEnd.append {place : Place} {back x : Bytes} (hstrips : kind.Strips next)
    (h : OpenEnd kind place back) (hplace : place ≠ .outside)
    (hx : ∀ r : Reading, r.place = place → kind.reach r x = none) :
    OpenEnd kind place (back ++ x) := by
  cases h with
  | nothing => exact absurd rfl hplace
  | literal hreach =>
    rw [List.cons_append]
    refine .literal ?_
    rw [reach_append hreach, hx _ (place_read step_of_literal rfl hreach), Option.map_none]
  | comment hreach =>
    rw [List.cons_append, List.cons_append]
    refine .comment ?_
    rw [reach_append hreach, hx _ (place_read hstrips.step_of_comment rfl hreach), Option.map_none]

/-- A byte that opens nothing does not change where the reader is at the end. -/
theorem place_read_cons {c : UInt8} {s : Bytes} (hquote : c ≠ Byte.quote)
    (hopen : ¬ (c = Byte.slash ∧ s.head? = some kind.mark)) :
    (kind.read .code (c :: s)).place = (kind.read .code s).place := by
  rw [read_cons, step, outside, if_neg hquote]
  split
  · next hslash =>
    cases s with
    | nil => rfl
    | cons d s =>
      have hd : d ≠ kind.mark := fun hd => hopen ⟨hslash, by rw [hd]; rfl⟩
      have hstep : kind.step .slash d = kind.step .code d := if_neg hd
      rw [read_cons, hstep, ← read_cons]
  · rfl

/-- The bytes that may follow a part of a text for it to be settled: any but the mark, and the byte
that does follow it. -/
def Allows (kind : CommentKind) (back : Bytes) (c : Option UInt8) : Prop :=
  c ≠ some kind.mark ∨ c = back.head?

/-- Whether a text is a settled part, in which all literals and comments are closed, and then the
open one. -/
def Cuts (kind : CommentKind) (next : Bytes → Option (Nat × Bytes)) (s : Bytes) : Prop :=
  ∃ front back, s = front ++ back ∧ Bytes.Settled next (kind.Allows back) front ∧
    OpenEnd kind (kind.read .code s).place back

theorem Cuts.keep {c : UInt8} {s : Bytes} (hstrips : kind.Strips next) (hquote : c ≠ Byte.quote)
    (hopen : ¬ (c = Byte.slash ∧ s.head? = some kind.mark)) (h : kind.Cuts next s) :
    kind.Cuts next (c :: s) := by
  obtain ⟨front, back, rfl, hfront, hback⟩ := h
  refine ⟨c :: front, back, rfl, .keep (fun x hx => ?_) hfront, ?_⟩
  · refine hstrips.other c _ hquote fun hmarks => ?_
    cases front with
    | cons d front => exact hopen hmarks
    | nil =>
      rcases hx with hne | heq
      · exact hne hmarks.2
      · exact hopen ⟨hmarks.1, heq ▸ hmarks.2⟩
  · rwa [place_read_cons hquote hopen]

theorem Cuts.part {part s : Bytes} (hne : part ≠ [])
    (hpart : ∃ new, ∀ x, next (part ++ x) = some (part.length, new))
    (hcode : kind.read .code part = .code) (h : kind.Cuts next s) : kind.Cuts next (part ++ s) := by
  obtain ⟨front, back, rfl, hfront, hback⟩ := h
  obtain ⟨new, hnew⟩ := hpart
  refine ⟨part ++ front, back, (List.append_assoc _ _ _).symm, .part hne hnew hfront, ?_⟩
  rwa [read_append, hcode]

theorem Strips.cuts (hstrips : kind.Strips next) (s : Bytes) : kind.Cuts next s := by
  induction hn : s.length using Nat.strongRecOn generalizing s with
  | ind n ih =>
    subst hn
    cases s with
    | nil => exact ⟨[], [], rfl, .nil, .nothing⟩
    | cons c s =>
      by_cases hquote : c = Byte.quote
      · subst hquote
        cases hreach : kind.reach .literal s with
        | none =>
          refine ⟨[], _, rfl, .nil, ?_⟩
          rw [read_quote, place_read step_of_literal rfl hreach]
          exact .literal hreach
        | some m =>
          obtain ⟨body, rest, rfl, rfl, hcode, hbody⟩ := exists_of_reach hreach
          have hshort : rest.length < (Byte.quote :: (body ++ rest)).length := by
            rw [List.length_cons, List.length_append]
            omega
          have hrest := ih _ hshort rest rfl
          exact hrest.part (List.cons_ne_nil _ _) (hstrips.literal body hbody) hcode
      · by_cases hopen : c = Byte.slash ∧ s.head? = some kind.mark
        · obtain ⟨rfl, hhead⟩ := hopen
          obtain ⟨s, rfl⟩ := List.head?_eq_some_iff.1 hhead
          cases hreach : kind.reach .comment s with
          | none =>
            refine ⟨[], _, rfl, .nil, ?_⟩
            rw [read_marks, place_read hstrips.step_of_comment rfl hreach]
            exact .comment hreach
          | some m =>
            obtain ⟨body, rest, rfl, rfl, hcode, hbody⟩ := exists_of_reach hreach
            have hshort : rest.length < (Byte.slash :: kind.mark :: (body ++ rest)).length := by
              rw [List.length_cons, List.length_cons, List.length_append]
              omega
            have hrest := ih _ hshort rest rfl
            rw [← read_marks] at hcode
            exact hrest.part (List.cons_ne_nil _ _) (hstrips.comment body hbody) hcode
        · exact .keep hstrips hquote hopen (ih _ (Nat.lt_succ_self _) s rfl)

end CommentKind

end Source

/-! ## The preferred end in the scanner -/

namespace Quote

/-- Whether a walk has found nothing yet and has been at no position from `p` on. -/
structure Fresh (p : Nat) (w : Walk) : Prop where
  ends : w.ends = []
  found : ∀ q, w.found.contains q = false
  visited : ∀ q, p ≤ q → w.visited.contains q = false

variable {p e : Nat} {w : Walk}

theorem fresh_start : Fresh p {} where
  ends := rfl
  found q := Positions.contains_empty q
  visited q _ := Positions.contains_empty q

theorem Fresh.visit (h : Fresh p w) : Fresh (p + 1) (w.visit p) where
  ends := h.ends
  found := h.found
  visited q hq := by
    have hne : p ≠ q := by omega
    simp [Walk.visit, h.visited q (by omega), hne]

theorem Fresh.mono {q : Nat} (h : Fresh p w) (hle : p ≤ q) : Fresh q w where
  ends := h.ends
  found := h.found
  visited r hr := h.visited r (by omega)

theorem Fresh.getLast?_addEnd (h : Fresh p w) (e : Nat) : (w.addEnd e).ends.getLast? = some e := by
  simp [Walk.addEnd, h.found e, h.ends]

/-- The first end that was found stays the first one. -/
theorem getLast?_addEnd (h : w.ends.getLast? = some e) (q : Nat) :
    (w.addEnd q).ends.getLast? = some e := by
  rw [Walk.addEnd]
  split
  · exact h
  · rw [List.getLast?_cons, h]
    rfl

/-- The walk behind a byte, with the readings in which the byte escapes the next one done. -/
def walkEscape (p : Nat) (c : UInt8) (s : Bytes) (w : Walk) : Walk :=
  if c = Byte.backslash && escapes s then walk (p + 2) s.tail (w.visit p) else w.visit p

theorem walkEscape_of_not {c : UInt8} {s : Bytes} (h : (c = Byte.backslash && escapes s) = false) :
    walkEscape p c s w = w.visit p := if_neg (Bool.eq_false_iff.1 h)

theorem walk_cons (hnew : w.visited.contains p = false) (c : UInt8) (s : Bytes) :
    walk p (c :: s) w =
      (if c = Byte.quote then (walkEscape p c s w).addEnd (p + 1)
        else walk (p + 1) s (walkEscape p c s w)).addEnd p := by
  rw [walk, hnew, if_neg Bool.false_ne_true]
  cases s with
  | nil => rw [walkEscape_of_not (Bool.and_false _)]; simp [escapes]
  | cons d s => rfl

/-- An escape reaches past the next byte, so there is one. -/
theorem length_tail_of_escapes {c : UInt8} {s : Bytes}
    (h : (c = Byte.backslash && escapes s) = true) : s.tail.length + 1 = s.length := by
  cases s with
  | nil => cases (Bool.and_eq_true_iff.1 h).2
  | cons d s => rfl

/-- Induction over what remains of a text when one byte is passed over, or an escape of two
bytes. -/
theorem escape_induction {motive : Bytes → Prop} (nil : motive [])
    (cons : ∀ c s, motive s → motive s.tail → motive (c :: s)) (s : Bytes) : motive s := by
  suffices h : motive s ∧ motive s.tail from h.1
  induction s with
  | nil => exact ⟨nil, nil⟩
  | cons c s ih => exact ⟨cons c s ih.1 ih.2, ih.1⟩

/-- What the visits and the ends inside the text preserve, a walk over it preserves. -/
theorem walk_preserves {P : Walk → Prop} (p : Nat) (s : Bytes)
    (hvisit : ∀ w q, p ≤ q → P w → P (w.visit q))
    (hend : ∀ w e, p ≤ e → e ≤ p + s.length → P w → P (w.addEnd e)) (h : P w) : P (walk p s w) := by
  induction s using escape_induction generalizing p w with
  | nil =>
    rw [walk]
    split
    · exact h
    · exact hend _ p (Nat.le_refl p) (Nat.le_refl p) (hvisit w p (Nat.le_refl p) h)
  | cons c s ih ihEscape =>
    cases hvisited : w.visited.contains p with
    | true => rwa [walk, hvisited, if_pos rfl]
    | false =>
      rw [List.length_cons] at hend
      have hnew : P (w.visit p) := hvisit w p (Nat.le_refl p) h
      have hescape : P (walkEscape p c s w) := by
        rw [walkEscape]
        split
        · next hbackslash =>
          have htail := length_tail_of_escapes hbackslash
          exact ihEscape (p + 2) (fun w q hlow => hvisit w q (by omega))
            (fun w e hlow hhigh => hend w e (by omega) (by omega)) hnew
        · exact hnew
      rw [walk_cons hvisited]
      refine hend _ p (Nat.le_refl p) (Nat.le_add_right p _) ?_
      split
      · exact hend _ (p + 1) (Nat.le_succ p) (by omega) hescape
      · exact ih (p + 1) (fun w q hlow => hvisit w q (by omega))
          (fun w e hlow hhigh => hend w e (by omega) (by omega)) hescape

theorem getLast?_walk (p : Nat) (s : Bytes) (h : w.ends.getLast? = some e) :
    (walk p s w).ends.getLast? = some e :=
  walk_preserves (P := fun w => w.ends.getLast? = some e) p s (fun _ _ _ hw => hw)
    (fun _ q _ _ hw => getLast?_addEnd hw q) h

/-- The first end that a walk finds is that of the reading in which every backslash escapes. -/
theorem getLast?_walk_of_fresh {s : Bytes} (h : Fresh p w) :
    (walk p s w).ends.getLast? = some (p + Source.literalRest false s) := by
  fun_induction Source.literalRest false s generalizing p w with
  | case1 =>
    rw [walk, h.visited p (Nat.le_refl p), if_neg Bool.false_ne_true]
    exact h.visit.getLast?_addEnd p
  | case2 c =>
    rw [walk_cons (h.visited p (Nat.le_refl p)), walkEscape_of_not (Bool.and_false _)]
    refine getLast?_addEnd ?_ p
    split
    · exact h.visit.getLast?_addEnd (p + 1)
    · rw [walk, h.visit.visited (p + 1) (Nat.le_refl _), if_neg Bool.false_ne_true]
      exact h.visit.visit.getLast?_addEnd (p + 1)
  | case3 c d s hescape ih =>
    have hc : c ≠ Byte.quote := by
      rintro rfl
      cases hescape
    have hlast :
        (walkEscape p c (d :: s) w).ends.getLast? = some (p + 2 + Source.literalRest false s) := by
      have hescapes : (c = Byte.backslash && escapes (d :: s)) = true := hescape
      rw [walkEscape, if_pos hescapes]
      exact ih (h.visit.mono (Nat.le_succ (p + 1)))
    have hend : p + (Source.literalRest false s + 2) = p + 2 + Source.literalRest false s := by
      omega
    rw [walk_cons (h.visited p (Nat.le_refl p)), if_neg hc, hend]
    exact getLast?_addEnd (getLast?_walk _ _ hlast) p
  | case4 d s hescape =>
    rw [walk_cons (h.visited p (Nat.le_refl p)), walkEscape_of_not rfl, if_pos rfl]
    exact getLast?_addEnd (h.visit.getLast?_addEnd (p + 1)) p
  | case5 c d s hescape hquote ih =>
    have hnot : (c = Byte.backslash && escapes (d :: s)) = false := Bool.eq_false_iff.2 hescape
    have hend : p + (Source.literalRest false (d :: s) + 1) = p + 1 + Source.literalRest false
        (d :: s) := by
      omega
    rw [walk_cons (h.visited p (Nat.le_refl p)), walkEscape_of_not hnot, if_neg hquote, hend]
    exact getLast?_addEnd (ih h.visit) p

/-- The scanner prefers the end of a literal that the clean-up of a text finds too. -/
theorem head?_quoteEnds (s : Bytes) :
    (quoteEnds s).head? = some (Source.literalRest false s + 1) := by
  rw [quoteEnds, List.head?_reverse, getLast?_walk_of_fresh fresh_start, Nat.add_comm]

end Quote

end CheatScript
