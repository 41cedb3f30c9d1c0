import CheatScript.Proofs.CleanedLines
import CheatScript.Proofs.TextReading

/-!
# Proofs: when a line comment is inert

A comment at the end of a line should change nothing, whatever it says. But block comments are taken
out before line comments, by a pass that knows nothing of the latter, so the text of a line comment
is read like code there. A quote in it may open a literal that runs on into the next lines, `/*` a
block comment, and a star right behind the slashes takes one of them away. A line comment is inert
behind every line exactly if the pass over block comments leaves its slashes in place and ends it
with nothing open.
-/

namespace CheatScript.Source

open Bytes (edit)

/-! ## What the two passes find -/

namespace CommentKind

theorem strips_block : blockKind.Strips blockComment? where
  inside r c := by
    simp only [blockKind]
    split
    · exact .inl rfl
    · split
      · exact .inr rfl
      · exact .inr rfl
  other c s hquote hopen := by
    rw [blockComment?, if_neg hquote, if_neg]
    simpa [blockKind] using hopen
  literal body hbody := by
    refine ⟨Byte.quote :: body, fun x => ?_⟩
    have hrest : literalRest true (body ++ x) = body.length := by
      rw [literalRest_eq blockKind, hbody x, Option.getD_some]
    rw [List.cons_append, blockComment?, if_pos rfl, hrest]
    simp
  comment body hbody := by
    refine ⟨(Byte.slash :: Byte.star :: body).filter (· == Byte.newline), fun x => ?_⟩
    have hrest : blockRest (body ++ x) = body.length := by
      rw [blockRest_eq, hbody x, Option.getD_some]
    have hmark : blockKind.mark = Byte.star := rfl
    rw [hmark, List.cons_append, List.cons_append, blockComment?, if_neg (by decide),
      if_pos (by rfl), List.tail_cons, hrest]
    simp

/-- A line comment goes on to the end of the line. -/
theorem reach_line {line : Bytes} (h : Byte.newline ∉ line) (rest : Bytes) :
    lineKind.reach .comment (line ++ rest) = (lineKind.reach .comment rest).map
      (· + line.length) := by
  induction line with
  | nil => simp
  | cons c line ih =>
    obtain ⟨hc, hline⟩ := not_or.1 (List.mem_cons.not.1 h)
    have hstep : lineKind.step .comment c = .comment := if_neg (Ne.symm hc)
    rw [List.cons_append, reach, hstep, if_neg (by decide), ih hline, Option.map_map]
    rfl

theorem strips_line : lineKind.Strips lineComment? where
  inside r c := by
    simp only [lineKind]
    split
    · exact .inl rfl
    · exact .inr rfl
  other c s hquote hopen := by
    rw [lineComment?, if_neg hquote, if_neg]
    simpa [lineKind] using hopen
  literal body hbody := by
    refine ⟨Byte.quote :: body, fun x => ?_⟩
    have hrest : literalRest false (body ++ x) = body.length := by
      rw [literalRest_eq lineKind, hbody x, Option.getD_some]
    rw [List.cons_append, lineComment?, if_pos rfl, hrest]
    simp
  comment body hbody := by
    obtain ⟨line, rest, rfl, hline, hrest⟩ := exists_line body
    cases hrest with
    | nothing =>
      have hreach := hbody []
      rw [List.append_assoc, reach_line hline] at hreach
      cases hreach
    | newline rest =>
      obtain rfl : rest = [] := by
        have hreach := hbody []
        rw [List.append_assoc, reach_line hline, List.cons_append, reach_of_code rfl,
          Option.map_some, Option.some.injEq, List.length_append, List.length_cons] at hreach
        exact List.length_eq_zero_iff.1 (by omega)
      refine ⟨[Byte.newline], fun x => ?_⟩
      have hfound := lineComment?_slashes hline (.newline x)
      simpa [lineKind] using hfound

end CommentKind

open CommentKind

/-! ## Texts with nothing open -/

/-- Whether neither a string literal nor a block comment is open at the end of a text, as the two
passes read it. A line comment may be. -/
structure Closed (s : Bytes) : Prop where
  block : (blockKind.read .code s).place = .outside
  line : (lineKind.read .code (edit blockComment? s)).place ≠ .literal

/-- A text with nothing open at its end is edited on its own. -/
theorem edit_append_of_outside {kind : CommentKind} {next : Bytes → Option (Nat × Bytes)}
    (hstrips : kind.Strips next) {s x : Bytes} (h : (kind.read .code s).place = .outside)
    (hx : x.head? ≠ some kind.mark) : edit next (s ++ x) = edit next s ++ edit next x := by
  obtain ⟨front, back, rfl, hfront, hback⟩ := hstrips.cuts s
  rw [h] at hback
  cases hback
  rw [List.append_nil]
  exact hfront.edit_append (.inl nofun) (.inl hx)

theorem FollowsLine.head?_ne {rest : Bytes} (h : FollowsLine rest) {c : UInt8}
    (hc : c ≠ Byte.newline) : rest.head? ≠ some c := by
  cases h with
  | nothing =>
    intro h
    cases h
  | newline rest => simpa using Ne.symm hc

theorem edit_other {kind : CommentKind} {next : Bytes → Option (Nat × Bytes)}
    (hstrips : kind.Strips next)
    {c : UInt8} (hquote : c ≠ Byte.quote) (hslash : c ≠ Byte.slash) (s : Bytes) :
    edit next (c :: s) = c :: edit next s :=
  Bytes.edit_keep (hstrips.other c s hquote fun hopen => hslash hopen.1)

theorem FollowsLine.edit {kind : CommentKind} {next : Bytes → Option (Nat × Bytes)}
    (hstrips : kind.Strips next) {rest : Bytes} (h : FollowsLine rest) :
    FollowsLine (edit next rest) := by
  cases h with
  | nothing => exact .nothing
  | newline rest =>
    rw [edit_other hstrips (by decide) (by decide)]
    exact .newline _

/-- A line comment disappears up to the end of its line. -/
theorem edit_slashes {line rest : Bytes} (hline : Byte.newline ∉ line) (hrest : FollowsLine rest) :
    edit lineComment? (Byte.slash :: Byte.slash :: (line ++ rest)) = edit lineComment? rest := by
  have hfound := lineComment?_slashes hline hrest
  have hnewline : edit lineComment? rest = rest.take 1 ++ edit lineComment? (rest.drop 1) := by
    cases hrest with
    | nothing => rfl
    | newline rest => exact edit_other strips_line (by decide) (by decide) rest
  rw [slashes_append line rest] at hfound ⊢
  rw [Bytes.edit_match (List.cons_ne_nil _ _) hfound, hnewline]

/-! ## Harmless comments -/

/-- The text of a line, with a comment behind it. -/
def withComment (t line : Bytes) : Bytes := line ++ Byte.space :: Byte.slash :: Byte.slash :: t

/-- The text of lines, without tabs. -/
def textOf (lines : List Bytes) : Bytes := (Bytes.join [Byte.newline] lines).filter (· != Byte.tab)

/-- A line comment as it stands in the text of lines. -/
def slashed (t : Bytes) : Bytes := Byte.slash :: Byte.slash :: t.filter (· != Byte.tab)

/-- Whether the pass over block comments ends a line comment with nothing open, and leaves its
slashes in place. -/
structure Harmless (t : Bytes) : Prop where
  closed : (blockKind.read .code (slashed t)).place = .outside
  kept : [Byte.slash, Byte.slash] <+: edit blockComment? (slashed t)

theorem cleanUp_eq (lines : List Bytes) :
    cleanUp lines = (Bytes.split Byte.newline (stripComments (textOf lines))).map Space.trim := rfl

theorem textOf_append {front : List Bytes} (h : front ≠ []) (back : List Bytes) :
    textOf (front ++ back) =
      textOf front ++ (back.flatMap (Byte.newline :: ·)).filter (· != Byte.tab) := by
  rw [textOf, Bytes.join_append _ h, List.filter_append]
  rfl

/-- A comment is put in behind the text of the lines up to its own one. -/
theorem textOf_modify {lines : List Bytes} {k : Nat} (hk : k < lines.length) (t : Bytes) :
    ∃ rest, FollowsLine rest ∧ textOf lines = textOf (lines.take (k + 1)) ++ rest ∧
      textOf (lines.modify k (withComment t)) =
        textOf (lines.take (k + 1)) ++ Byte.space :: (slashed t ++ rest) := by
  have htake : lines.take (k + 1) = lines.take k ++ [lines[k]] := (List.take_append_getElem hk).symm
  have hne : ∀ l, lines.take k ++ [l] ≠ [] :=
    fun l => List.append_ne_nil_of_right_ne_nil _ (by simp)
  refine ⟨((lines.drop (k + 1)).flatMap (Byte.newline :: ·)).filter (· != Byte.tab), ?_, ?_, ?_⟩
  · cases lines.drop (k + 1) with
    | nil => exact .nothing
    | cons l more => exact .newline _
  · rw [← textOf_append (htake ▸ hne _), List.take_append_drop]
  · rw [List.modify_eq_take_cons_drop hk, List.append_cons, textOf_append (hne _), textOf,
      withComment, Bytes.join_concat_append, ← htake, List.filter_append, List.append_assoc]
    rfl

/-! ## Inert comments -/

theorem head?_ne_of_ne {c d : UInt8} (h : c ≠ d) (s : Bytes) : (c :: s).head? ≠ some d :=
  fun heq => h (Option.some.inj heq)

/-- What a line comment leaves behind: its blank, or nothing if it stands in a comment already. -/
theorem edit_comment {s u rest : Bytes} (hs : (lineKind.read .code s).place ≠ .literal)
    (hu : Byte.newline ∉ u) (hrest : FollowsLine rest) :
    ∃ front, edit lineComment? (s ++ rest) = front ++ edit lineComment? rest ∧
      ∃ gap, (gap = [] ∨ gap = [Byte.space]) ∧
        edit lineComment? (s ++ Byte.space :: Byte.slash :: Byte.slash :: (u ++ rest)) =
          front ++ (gap ++ edit lineComment? rest) := by
  cases hplace : (lineKind.read .code s).place with
  | literal => exact absurd hplace hs
  | outside =>
    refine ⟨edit lineComment? s, ?_, [Byte.space], .inr rfl, ?_⟩
    · exact edit_append_of_outside strips_line hplace (hrest.head?_ne (by decide))
    · rw [edit_append_of_outside strips_line hplace (head?_ne_of_ne (by decide) _),
        edit_other strips_line (by decide) (by decide), edit_slashes hu hrest]
      rfl
  | comment =>
    obtain ⟨front, back, rfl, hfront, hback⟩ := strips_line.cuts s
    rw [hplace] at hback
    cases hback with
    | @comment v hreach =>
      have hv : Byte.newline ∉ v := by
        intro hmem
        obtain ⟨line, more, rfl, hline, hmore⟩ := exists_line v
        rw [reach_line hline] at hreach
        cases hmore with
        | nothing => exact hline (by simpa using hmem)
        | newline more => rw [reach_of_code rfl] at hreach; cases hreach
      have hjoined : ∀ line, Byte.newline ∉ line →
          edit lineComment? (front ++ Byte.slash :: lineKind.mark :: (line ++ rest)) =
            edit lineComment? front ++ edit lineComment? rest := by
        intro line hline
        rw [hfront.edit_append (x := Byte.slash :: lineKind.mark :: (line ++ rest)) (.inl nofun)
          (.inr rfl)]
        exact congrArg _ (edit_slashes hline hrest)
      refine ⟨edit lineComment? front, ?_, [], .inl rfl, ?_⟩
      · rw [List.append_assoc]
        exact hjoined v hv
      · have hlonger : Byte.newline ∉ v ++ Byte.space :: Byte.slash :: Byte.slash :: u := by
          simp only [List.mem_append, List.mem_cons, not_or]
          exact ⟨hv, by decide, by decide, by decide, hu⟩
        have hdropped := hjoined _ hlonger
        rw [List.append_assoc] at hdropped ⊢
        exact hdropped

theorem newline_not_mem_of_kept {t u : Bytes} (ht : Byte.newline ∉ t)
    (hu : [Byte.slash, Byte.slash] ++ u = edit blockComment? (slashed t)) : Byte.newline ∉ u := by
  intro hmem
  have hthinned := Bytes.Thinned.of_edit (fun _ _ _ => thinned_blockComment) (slashed t)
  have hslashed := hthinned.sublist.subset (hu ▸ List.mem_append_right _ hmem)
  simp only [slashed, List.mem_cons, List.mem_filter] at hslashed
  rcases hslashed with hslash | hslash | ⟨hnewline, -⟩
  · cases hslash
  · cases hslash
  · exact ht hnewline

/-- A harmless comment leaves at most its blank behind, at the end of the line. -/
theorem stripComments_harmless {s rest t : Bytes} (hs : Closed s) (hrest : FollowsLine rest)
    (ht : Byte.newline ∉ t) (h : Harmless t) :
    ∃ front back gap, FollowsLine back ∧ (gap = [] ∨ gap = [Byte.space]) ∧
      stripComments (s ++ rest) = front ++ back ∧
      stripComments (s ++ Byte.space :: (slashed t ++ rest)) = front ++ (gap ++ back) := by
  obtain ⟨u, hu⟩ := h.kept
  have hblock : edit blockComment? (s ++ rest) = edit blockComment? s ++ edit blockComment? rest :=
    edit_append_of_outside strips_block hs.block (hrest.head?_ne (by decide))
  have hcomment : edit blockComment? (s ++ Byte.space :: (slashed t ++ rest)) =
      edit blockComment? s ++ Byte.space :: Byte.slash :: Byte.slash ::
        (u ++ edit blockComment? rest) := by
    rw [edit_append_of_outside strips_block hs.block (head?_ne_of_ne (by decide) _),
      edit_other strips_block (by decide) (by decide),
      edit_append_of_outside strips_block h.closed (hrest.head?_ne (by decide)), ← hu]
    rfl
  have hfree := newline_not_mem_of_kept ht hu
  have hback := hrest.edit strips_block
  obtain ⟨front, hfront, gap, hgap, hgone⟩ := edit_comment hs.line hfree hback
  refine ⟨front, _, gap, hback.edit strips_line, hgap, ?_, ?_⟩
  · rw [stripComments, hblock, hfront]
  · rw [stripComments, hcomment, hgone]

/-- A blank at the end of a line is trimmed off. -/
theorem map_trim_split {front back gap : Bytes} (hback : FollowsLine back)
    (hgap : gap = [] ∨ gap = [Byte.space]) :
    (Bytes.split Byte.newline (front ++ (gap ++ back))).map Space.trim =
      (Bytes.split Byte.newline (front ++ back)).map Space.trim := by
  rcases hgap with rfl | rfl
  · rfl
  · obtain ⟨init, last, hfront, hspace⟩ :=
      Bytes.split_concat (by decide : Byte.space ≠ Byte.newline) front
    have htrim : ((Bytes.split Byte.newline (front ++ [Byte.space])).map Space.trim) =
        (Bytes.split Byte.newline front).map Space.trim := by
      rw [hfront, hspace, List.map_append, List.map_append, List.map_singleton, List.map_singleton,
        Space.trim_concat_blank rfl]
    rw [← List.append_assoc]
    cases hback with
    | nothing => rw [List.append_nil, List.append_nil, htrim]
    | newline rest =>
      rw [Bytes.split_append_cons, Bytes.split_append_cons, List.map_append, List.map_append, htrim]

theorem cleanUp_harmless {t : Bytes} (ht : Byte.newline ∉ t) (h : Harmless t) {lines : List Bytes}
    {k : Nat} (hk : k < lines.length) (hclosed : Closed (textOf (lines.take (k + 1)))) :
    cleanUp (lines.modify k (withComment t)) = cleanUp lines := by
  obtain ⟨rest, hrest, hlines, hmodified⟩ := textOf_modify hk t
  obtain ⟨front, back, gap, hback, hgap, hplain, hcomment⟩ :=
    stripComments_harmless hclosed hrest ht h
  rw [cleanUp_eq, cleanUp_eq, hlines, hmodified, hplain, hcomment, map_trim_split hback hgap]

/-! ## Harmful comments -/

/-- What the pass over block comments keeps of an open literal or comment. -/
def keptOf : Place → Bytes → Bytes
  | .comment, s => s.filter (· == Byte.newline)
  | _, s => s

theorem keptOf_append (place : Place) (s x : Bytes) :
    keptOf place (s ++ x) = keptOf place s ++ keptOf place x := by
  cases place with
  | comment => exact List.filter_append s x
  | _ => rfl

theorem blockComment?_openEnd {place : Place} {back : Bytes} (h : OpenEnd blockKind place back)
    (hplace : place ≠ .outside) : blockComment? back = some (back.length, keptOf place back) := by
  cases h with
  | nothing => exact absurd rfl hplace
  | literal hreach =>
    rw [blockComment?, if_pos rfl, literalRest_eq blockKind, hreach, Option.getD_none]
    simp [keptOf]
  | comment hreach =>
    have hmark : blockKind.mark = Byte.star := rfl
    rw [hmark, blockComment?, if_neg (by decide), if_pos (by rfl), List.tail_cons,
      blockRest_eq, hreach, Option.getD_none]
    simp [keptOf]

/-- A literal or block comment that is open at the end of a text goes on over what follows. -/
theorem edit_append_of_open {s x : Bytes} {place : Place}
    (h : (blockKind.read .code s).place = place)
    (hplace : place ≠ .outside) (hx : ∀ r : Reading, r.place = place → blockKind.reach r x = none) :
    edit blockComment? (s ++ x) = edit blockComment? s ++ keptOf place x := by
  obtain ⟨front, back, rfl, hfront, hback⟩ := strips_block.cuts s
  rw [h] at hback
  have hne : back ≠ [] := by
    rintro rfl
    cases hback
    exact hplace rfl
  have hhead : (back ++ x).head? = back.head? := List.head?_append_of_ne_nil _ hne
  have hlonger := hback.append strips_block hplace hx
  rw [List.append_assoc, hfront.edit_append (.inl nofun) (.inr hhead),
    hfront.edit_append (.inl nofun) (.inr rfl), List.append_assoc]
  rw [Bytes.edit_whole (by simp [hne]) (blockComment?_openEnd hlonger hplace),
    Bytes.edit_whole hne (blockComment?_openEnd hback hplace), keptOf_append]

/-- A comment that loses a slash leaves the other one behind. -/
theorem kept_of_inert {t : Bytes} (h : cleanUp [withComment t []] = cleanUp [[]]) :
    [Byte.slash, Byte.slash] <+: edit blockComment? (slashed t) := by
  have hfirst : edit blockComment? (slashed t) =
      Byte.slash :: edit blockComment? (Byte.slash :: t.filter (· != Byte.tab)) :=
    Bytes.edit_keep
      (strips_block.other _ _ (by decide) fun hopen => head?_ne_of_ne (by decide) _ hopen.2)
  generalize edit blockComment? (Byte.slash :: t.filter (· != Byte.tab)) = v at hfirst
  by_cases hv : v.head? = some Byte.slash
  · obtain ⟨w, rfl⟩ := List.head?_eq_some_iff.1 hv
    exact ⟨w, hfirst.symm⟩
  · -- The other slash stays in the first line, which is not empty then.
    exfalso
    have hstrip : stripComments (textOf [withComment t []]) =
        Byte.space :: Byte.slash :: edit lineComment? v := by
      have htext : textOf [withComment t []] = Byte.space :: slashed t := rfl
      rw [htext, stripComments, edit_other strips_block (by decide) (by decide), hfirst,
        edit_other strips_line (by decide) (by decide)]
      exact congrArg _ (Bytes.edit_keep (strips_line.other _ _ (by decide) fun hopen => hv hopen.2))
    rw [cleanUp_eq, hstrip, Bytes.split_cons_of_ne (by decide),
      Bytes.split_cons_of_ne (by decide)] at h
    obtain ⟨first, rest, hsplit⟩ := List.exists_cons_of_ne_nil
      (Bytes.split_ne_nil Byte.newline (edit lineComment? v))
    rw [hsplit] at h
    have hempty : Space.trim (Byte.space :: Byte.slash :: first) = [] := (List.cons.inj h).1
    have hslash : Byte.slash ∈ Space.trim (Byte.space :: Byte.slash :: first) :=
      Space.mem_trim (by decide) (by simp)
    rw [hempty] at hslash
    cases hslash

/-- Where a literal or block comment is open behind a comment, the next line is read as part of
it. -/
theorem stripComments_slashed {t l : Bytes} {place : Place} (ht : Byte.newline ∉ t)
    (hkept : [Byte.slash, Byte.slash] <+: edit blockComment? (slashed t))
    (h : (blockKind.read .code (slashed t)).place = place) (hplace : place ≠ .outside)
    (hl : ∀ r : Reading, r.place = place → blockKind.reach r (Byte.newline :: l) = none)
    (hrest : FollowsLine (keptOf place (Byte.newline :: l))) :
    stripComments (Byte.space :: (slashed t ++ Byte.newline :: l)) =
      Byte.space :: edit lineComment? (keptOf place (Byte.newline :: l)) := by
  obtain ⟨u, hu⟩ := hkept
  have hfree := newline_not_mem_of_kept ht hu
  rw [stripComments, edit_other strips_block (by decide) (by decide),
    edit_append_of_open h hplace hl, ← hu, edit_other strips_line (by decide) (by decide)]
  exact congrArg _ (edit_slashes hfree hrest)

theorem closed_of_inert {t : Bytes} (ht : Byte.newline ∉ t)
    (hkept : [Byte.slash, Byte.slash] <+: edit blockComment? (slashed t))
    (hliteral : cleanUp [withComment t [], ascii "/**/"] = cleanUp [[], ascii "/**/"])
    (hblock : cleanUp [withComment t [], ascii "a"] = cleanUp [[], ascii "a"]) :
    (blockKind.read .code (slashed t)).place = .outside := by
  have htext : ∀ l : Bytes, l.filter (· != Byte.tab) = l →
      textOf [withComment t [], l] = Byte.space :: (slashed t ++ Byte.newline :: l) := by
    intro l hl
    have happend := textOf_append (List.cons_ne_nil (withComment t []) []) [l]
    rw [List.flatMap_singleton, List.filter_cons_of_pos (by decide), hl] at happend
    exact happend
  cases hplace : (blockKind.read .code (slashed t)).place with
  | outside => rfl
  | literal =>
    have hstrip := stripComments_slashed (l := ascii "/**/") ht hkept hplace nofun
      (fun r hr => by cases r with
        | literal => rfl
        | escape => rfl
        | _ => cases hr) (.newline _)
    rw [cleanUp_eq, htext _ (by decide), hstrip] at hliteral
    exact absurd hliteral (by decide)
  | comment =>
    have hstrip := stripComments_slashed (l := ascii "a") ht hkept hplace nofun
      (fun r hr => by cases r with
        | comment => rfl
        | star => rfl
        | _ => cases hr) (.newline _)
    rw [cleanUp_eq, htext _ (by decide), hstrip] at hblock
    exact absurd hblock (by decide)

/-! ## Comments in every place -/

theorem edit_plain {s : Bytes} (hquote : Byte.quote ∉ s)
    (hmarks : ¬ [Byte.slash, Byte.star] <:+: s) :
    edit blockComment? s = s ∧ (blockKind.read .code s).place = .outside := by
  induction s with
  | nil => exact ⟨rfl, rfl⟩
  | cons c s ih =>
    obtain ⟨hc, hs⟩ := not_or.1 (List.mem_cons.not.1 hquote)
    have hopen : ¬ (c = Byte.slash ∧ s.head? = some Byte.star) := by
      rintro ⟨rfl, hhead⟩
      obtain ⟨s, rfl⟩ := List.head?_eq_some_iff.1 hhead
      exact hmarks ⟨[], s, rfl⟩
    obtain ⟨hedit, hplace⟩ := ih hs fun hinfix => hmarks (List.infix_cons hinfix)
    refine ⟨?_, ?_⟩
    · rw [Bytes.edit_keep (strips_block.other c s (Ne.symm hc) hopen), hedit]
    · rw [place_read_cons (Ne.symm hc) hopen, hplace]

/-- A comment without a quote and without the mark of a block comment is harmless. -/
theorem harmless_of_plain {t : Bytes} (hquote : Byte.quote ∉ t)
    (hmarks : ¬ [Byte.slash, Byte.star] <:+: slashed t) : Harmless t := by
  have hfree : Byte.quote ∉ slashed t := by
    simp only [slashed, List.mem_cons, List.mem_filter, not_or]
    exact ⟨by decide, by decide, fun hmem => hquote hmem.1⟩
  obtain ⟨hedit, hplace⟩ := edit_plain hfree hmarks
  refine ⟨hplace, ?_⟩
  rw [hedit]
  exact ⟨_, rfl⟩

/-- A line comment changes nothing behind any line at whose end nothing is open, exactly if it is
harmless. -/
theorem comment_inert_iff {t : Bytes} (ht : Byte.newline ∉ t) :
    (∀ (lines : List Bytes) (k : Nat), (∀ l ∈ lines, Byte.newline ∉ l) → k < lines.length →
      Closed (textOf (lines.take (k + 1))) →
      cleanUp (lines.modify k (withComment t)) = cleanUp lines) ↔ Harmless t := by
  constructor
  · intro h
    have hclosed : Closed (textOf [[]]) := ⟨rfl, by decide⟩
    have hkept := kept_of_inert (h [[]] 0 (by decide) (by decide) hclosed)
    exact ⟨closed_of_inert ht hkept (h [[], ascii "/**/"] 0 (by decide) (by decide) hclosed)
      (h [[], ascii "a"] 0 (by decide) (by decide) hclosed), hkept⟩
  · intro h lines k _ hk hclosed
    exact cleanUp_harmless ht h hk hclosed

/-- A literal that spans two lines, and a block comment behind it. -/
def spanningLines : List Bytes :=
  [ascii "WS 0x100 \"a // b", ascii "c\" // d", ascii "/* e */ W8 0 1"]

/-- A comment with an apostrophe, a closing mark and two slashes. -/
def plainComment : Bytes := ascii " don't */ // stop"

theorem comment_inert_spanning :
    Byte.newline ∉ plainComment ∧ Harmless plainComment ∧ Closed (textOf (spanningLines.take 2)) ∧
      cleanUp (spanningLines.modify 1 (withComment plainComment)) = cleanUp spanningLines := by
  have hfree : Byte.newline ∉ plainComment := by decide
  have hharmless : Harmless plainComment := harmless_of_plain (by decide) (by decide)
  have hclosed : Closed (textOf (spanningLines.take 2)) := ⟨by decide, by decide⟩
  exact ⟨hfree, hharmless, hclosed,
    (comment_inert_iff hfree).2 hharmless spanningLines 1 (by decide) (by decide) hclosed⟩

/-- The mark of a block comment in a line comment takes the next line away. -/
theorem comment_opens_block :
    Byte.newline ∉ ascii " see /* below" ∧
      (∀ l ∈ [ascii "W8 0 1", ascii "W8 0 2"], Byte.newline ∉ l) ∧ Closed
      (textOf [ascii "W8 0 1"]) ∧
      cleanUp ([ascii "W8 0 1", ascii "W8 0 2"].modify 0 (withComment (ascii " see /* below"))) ≠
        cleanUp [ascii "W8 0 1", ascii "W8 0 2"] := by
  refine ⟨by decide, by decide, ⟨by decide, by decide⟩, ?_⟩
  decide

end CheatScript.Source
