import CheatScript.Proofs.ArgumentSums
import Mathlib.Data.List.DropRight

/-!
# Proofs: texts joined from terms

A text argument is a chain of strings in quotes and of integers, and stands for the strings and the
sums of its runs of integers, one after the other. While it is joined, a text that starts with a
string keeps its quotes, and the closing quote is taken off and put back around every part that is
added. Taking it off takes all quotes at the end: a part that ends in an escaped quote loses it when
another part follows, and so does an empty string in first place, whose opening quote goes with it.
-/

namespace CheatScript.Argument

/-! ## Quotes -/

/-- A text in quotes. -/
def inQuotes (s : Bytes) : Bytes := Byte.quote :: (s ++ [Byte.quote])

theorem insideQuotes_inQuotes (s : Bytes) : insideQuotes (inQuotes s) = s := by
  simp [insideQuotes, inQuotes, Bytes.cut?, Bytes.cutLast?]

theorem isQuoted_inQuotes (s : Bytes) : isQuoted (inQuotes s) = true := by
  simp [isQuoted, inQuotes, List.getLast?_cons]

/-- Whether a text ends in a quote. -/
def endsInQuote (s : Bytes) : Bool := s.getLast? == some Byte.quote

/-- A text without the quotes at its end. -/
def clipped (s : Bytes) : Bytes := Bytes.dropEndWhile (· == Byte.quote) s

theorem endsInQuote_append_quote (s : Bytes) : endsInQuote (s ++ [Byte.quote]) = true := by
  simp [endsInQuote]

theorem endsWith_quote (s : Bytes) : Bytes.endsWith [Byte.quote] s = endsInQuote s := by
  rw [endsInQuote, Bytes.endsWith, Bytes.before?, ← List.head?_reverse]
  cases s.reverse with
  | nil => rfl
  | cons c r =>
    by_cases hc : c = Byte.quote
    · simp [Bytes.after?, hc]
    · simp [Bytes.after?, hc, Ne.symm hc]

theorem clipped_append_quote (s : Bytes) : clipped (s ++ [Byte.quote]) = clipped s :=
  List.rdropWhile_concat_pos _ s Byte.quote rfl

theorem clipped_append_singleton {c : UInt8} (h : c ≠ Byte.quote) (s : Bytes) :
    clipped (s ++ [c]) = s ++ [c] :=
  List.rdropWhile_concat_neg _ s c (by simpa using h)

theorem clipped_eq_self {s : Bytes} (h : endsInQuote s = false) : clipped s = s := by
  cases s using List.reverseRecOn with
  | nil => rfl
  | append_singleton s c =>
    refine clipped_append_singleton ?_ s
    rintro rfl
    rw [endsInQuote_append_quote] at h
    cases h

theorem clipped_append (s b : Bytes) : clipped (clipped s ++ b) = clipped s ++ clipped b := by
  induction b using List.reverseRecOn with
  | nil =>
    rw [List.append_nil]
    exact (List.rdropWhile_idempotent _ s).trans (List.append_nil _).symm
  | append_singleton b c ih =>
    rw [← List.append_assoc]
    by_cases hc : c = Byte.quote
    · rw [hc, clipped_append_quote, clipped_append_quote, ih]
    · rw [clipped_append_singleton hc, clipped_append_singleton hc, List.append_assoc]

/-- The quotes at the end go up to the first byte of a text that does not start with one. -/
theorem clipped_cons {c : UInt8} {s : Bytes} (h : s.head? = some c) (hc : c ≠ Byte.quote)
    (b : UInt8) : clipped (b :: s) = b :: clipped s := by
  obtain ⟨r, rfl⟩ := List.head?_eq_some_iff.1 h
  have hfirst : clipped [b, c] = [b, c] := clipped_append_singleton hc [b]
  have hsecond : clipped [c] = [c] := clipped_append_singleton hc []
  calc clipped (b :: c :: r) = clipped (clipped [b, c] ++ r) := by rw [hfirst]; rfl
    _ = b :: (clipped [c] ++ clipped r) := by rw [clipped_append, hfirst, hsecond]; rfl
    _ = b :: clipped (c :: r) := by rw [← clipped_append, hsecond]; rfl

/-! ## Joining parts -/

/-- The text with a part added; a closing quote stays at the end. -/
def glue (text part : Bytes) : Bytes :=
  if endsInQuote text then clipped text ++ part ++ [Byte.quote] else text ++ part

theorem Joined.append_eq (j : Joined) (s : Bytes) :
    j.append s = { j with text := glue j.text s } := by
  rw [Joined.append, glue, endsWith_quote]
  split <;> rfl

theorem glue_eq (text part : Bytes) :
    glue text part = clipped text ++ part ++ if endsInQuote text then [Byte.quote] else [] := by
  unfold glue
  cases hquote : endsInQuote text with
  | false => simp [clipped_eq_self hquote]
  | true => simp

theorem clipped_glue (text part : Bytes) :
    clipped (glue text part) = clipped text ++ clipped part := by
  rw [glue_eq, ← clipped_append]
  cases endsInQuote text with
  | false => simp
  | true => exact clipped_append_quote _

theorem endsInQuote_glue (text part : Bytes) :
    endsInQuote (glue text part) = (endsInQuote text || endsInQuote part) := by
  rw [glue_eq]
  cases hquote : endsInQuote text with
  | false =>
    rw [clipped_eq_self hquote]
    cases hlast : part.getLast? with
    | none => simp [List.getLast?_eq_none_iff.1 hlast, hquote, show endsInQuote [] = false from rfl]
    | some c => simp [endsInQuote, hlast]
  | true => exact endsInQuote_append_quote _

/-- The parts one after the other, where each but the last loses the quotes at its end. -/
def shortened : List Bytes → Bytes
  | [] => []
  | [part] => part
  | part :: next :: parts => clipped part ++ shortened (next :: parts)

theorem shortened_cons (part : Bytes) {parts : List Bytes} (h : parts ≠ []) :
    shortened (part :: parts) = clipped part ++ shortened parts := by
  obtain ⟨next, rest, rfl⟩ := List.exists_cons_of_ne_nil h
  rfl

/-- Whether a part that another one follows ends in a quote. -/
def losesQuote (parts : List Bytes) : Bool := parts.dropLast.any endsInQuote

theorem losesQuote_cons (part : Bytes) {parts : List Bytes} (h : parts ≠ []) :
    losesQuote (part :: parts) = (endsInQuote part || losesQuote parts) := by
  rw [losesQuote, List.dropLast_cons_of_ne_nil h, List.any_cons, losesQuote]

theorem shortened_eq_flatten {parts : List Bytes} (h : losesQuote parts = false) :
    shortened parts = parts.flatten := by
  fun_induction shortened parts with
  | case1 => rfl
  | case2 part => simp
  | case3 part next parts ih =>
    rw [losesQuote_cons part (List.cons_ne_nil next parts), Bool.or_eq_false_iff] at h
    rw [clipped_eq_self h.1, ih h.2]
    rfl

/-- Parts are added one by one. The first one that ends in a quote and is followed by another leaves
a quote that stays at the end from there on. -/
theorem foldl_glue (text : Bytes) (parts : List Bytes) :
    parts.foldl glue text =
      shortened (text :: parts) ++ if losesQuote (text :: parts) then [Byte.quote] else [] := by
  induction parts generalizing text with
  | nil => simp [shortened, losesQuote]
  | cons part parts ih =>
    rw [List.foldl_cons, ih, shortened_cons text (List.cons_ne_nil part parts),
      losesQuote_cons text (List.cons_ne_nil part parts)]
    cases parts with
    | nil =>
      rw [glue_eq]
      simp [shortened, losesQuote]
    | cons next parts =>
      have hne : next :: parts ≠ [] := List.cons_ne_nil next parts
      rw [shortened_cons _ hne, shortened_cons _ hne, losesQuote_cons _ hne, losesQuote_cons _ hne,
        clipped_glue, endsInQuote_glue, Bool.or_assoc, List.append_assoc (clipped text)]

/-! ## Terms and parts -/

/-- A term of a text argument. -/
inductive TextTerm
  /-- A string in quotes. -/
  | quoted (text : Bytes)
  /-- An integer literal and its value. -/
  | number (literal : Bytes) (value : Word)

namespace TextTerm

/-- The token of a term, without the sign in front. -/
def token : TextTerm → Bytes
  | quoted text => inQuotes text
  | number literal _ => literal

/-- Whether every quote in a text stands behind a backslash. Before the first byte stands the
opening quote. -/
def isEscaped (text : Bytes) : Bool :=
  ((Byte.quote :: text).zip text).all fun p => p.2 != Byte.quote || p.1 == Byte.backslash

/-- Whether a string has its inner quotes escaped, and an integer literal the form and the value of
one. -/
def Complete : TextTerm → Prop
  | quoted text => isEscaped text = true
  | number literal value => Literal.isInteger literal = true ∧
    Literal.unsignedInteger literal = .ok value

instance : DecidablePred Complete
  | quoted text => inferInstanceAs (Decidable (isEscaped text = true))
  | number literal value => inferInstanceAs
    (Decidable (Literal.isInteger literal = true ∧ Literal.unsignedInteger literal = .ok value))

end TextTerm

/-- A part of the joined text: a string, or the sum of a run of integers. -/
inductive TextPart
  | text (s : Bytes)
  | sum (w : Word)
  deriving DecidableEq

/-- The bytes of a part; a sum is written in decimal digits. -/
def TextPart.bytes : TextPart → Bytes
  | text s => s
  | sum w => Decimal.natural w.toNat

/-- The parts with a number in front, which belongs to the run that follows it. -/
def addNumber (v : Word) : List TextPart → List TextPart
  | .sum w :: parts => .sum (v + w) :: parts
  | parts => .sum v :: parts

/-- The parts of a chain of terms: its strings and its runs of integers, each as long as it can
be. -/
def partsOf : List TextTerm → List TextPart
  | [] => []
  | .quoted s :: terms => .text s :: partsOf terms
  | .number _ v :: terms => addNumber v (partsOf terms)

theorem addNumber_addNumber (v w : Word) (parts : List TextPart) :
    addNumber v (addNumber w parts) = addNumber (v + w) parts := by
  unfold addNumber
  split <;> split <;> simp_all [BitVec.add_assoc]

theorem mem_terms_of_text {terms : List TextTerm} {s : Bytes} (h : .text s ∈ partsOf terms) :
    .quoted s ∈ terms := by
  fun_induction partsOf terms with
  | case1 => cases h
  | case2 t terms ih =>
    rcases List.mem_cons.1 h with heq | hmem
    · obtain rfl := TextPart.text.inj heq
      exact List.mem_cons_self
    · exact List.mem_cons_of_mem _ (ih hmem)
  | case3 literal v terms ih =>
    refine List.mem_cons_of_mem _ (ih ?_)
    unfold addNumber at h
    split at h
    · next heq => simpa [heq] using h
    · simpa using h

/-! ## Reading -/

/-- What is written for a part: nothing for a sum of zero. -/
def written : TextPart → List Bytes
  | .text s => [s]
  | .sum w => if w = 0 then [] else [TextPart.bytes (.sum w)]

theorem flatMap_written_addNumber_zero (parts : List TextPart) :
    (addNumber 0 parts).flatMap written = parts.flatMap written := by
  unfold addNumber
  split <;> simp [written]

theorem flatMap_written {parts : List TextPart} (h : .sum 0 ∉ parts) :
    parts.flatMap written = parts.map TextPart.bytes := by
  induction parts with
  | nil => rfl
  | cons part parts ih =>
    rw [List.mem_cons, not_or] at h
    rw [List.flatMap_cons, List.map_cons, ih h.2]
    cases part with
    | text s => rfl
    | sum w =>
      have hw : w ≠ 0 := by
        rintro rfl
        exact h.1 rfl
      rw [written, if_neg hw]
      rfl

theorem Joined.flush_eq (j : Joined) :
    j.flush = ⟨(written (.sum j.pending)).foldl glue j.text, 0⟩ := by
  have hwritten : written (.sum j.pending) =
      if j.pending = 0 then [] else [Decimal.natural j.pending.toNat] := rfl
  obtain ⟨text, pending⟩ := j
  rw [hwritten, Joined.flush]
  by_cases hpending : pending = 0
  · rw [if_pos hpending, if_pos hpending, hpending]
    rfl
  · rw [if_neg hpending, if_neg hpending, Joined.append_eq]
    rfl

/-- An integer literal does not start with a quote. -/
theorem hasMark_quote_of_isInteger {s : Bytes} (h : Literal.isInteger s = true) :
    s ≠ [] ∧ hasMark Byte.quote s = false := by
  cases s with
  | nil => exact absurd h (by decide)
  | cons c s =>
    refine ⟨List.cons_ne_nil c s, Bool.eq_false_iff.2 fun hquote => ?_⟩
    obtain rfl : c = Byte.quote := by simpa [hasMark] using hquote
    cases h

theorem joinTerms_number {literal : Bytes} {v : Word} (h : (TextTerm.number literal v).Complete)
    (j : Joined) (tokens : List Bytes) :
    joinTerms j ((Byte.plus :: literal) :: tokens) =
      joinTerms { j with pending := j.pending + v } tokens := by
  obtain ⟨hne, hquote⟩ := hasMark_quote_of_isInteger h.1
  have hform : (!hasMark Byte.plus (Byte.plus :: literal) || (Byte.plus :: literal).length == 1) =
      false := by
    simp [hasMark, hne]
  have hvalue : textInteger literal = .ok v := literal_eq_ok h.1 h.2
  rw [joinTerms, hform, if_neg Bool.false_ne_true]
  simp only [List.tail_cons, hquote, Bool.not_false, if_true, hvalue]
  rfl

theorem joinTerms_quoted (s : Bytes) (j : Joined) (tokens : List Bytes) :
    joinTerms j ((Byte.plus :: inQuotes s) :: tokens) = joinTerms (j.flush.append s) tokens := by
  have hform :
      (!hasMark Byte.plus (Byte.plus :: inQuotes s) || (Byte.plus :: inQuotes s).length == 1) =
      false := by
    simp [hasMark, inQuotes]
  have hquote : hasMark Byte.quote (inQuotes s) = true := rfl
  rw [joinTerms, hform, if_neg Bool.false_ne_true]
  simp only [List.tail_cons, hquote, Bool.not_true, Bool.false_eq_true, if_false, isQuoted_inQuotes,
    insideQuotes_inQuotes]

/-- By induction on the terms: the pending sum counts as a number in front of them. -/
theorem joinTerms_eq {terms : List TextTerm} (h : ∀ term ∈ terms, term.Complete) (j : Joined) :
    joinTerms j ((terms.map TextTerm.token).map (Byte.plus :: ·)) =
      .ok ⟨((addNumber j.pending (partsOf terms)).flatMap written).foldl glue j.text, 0⟩ := by
  induction terms generalizing j with
  | nil =>
    rw [List.map_nil, List.map_nil, joinTerms, Joined.flush_eq]
    simp [partsOf, addNumber]
  | cons term terms ih =>
    obtain ⟨hterm, hterms⟩ := List.forall_mem_cons.1 h
    rw [List.map_cons, List.map_cons]
    cases term with
    | number literal v =>
      rw [TextTerm.token, joinTerms_number hterm, ih hterms, partsOf, addNumber_addNumber]
    | quoted s =>
      rw [TextTerm.token, joinTerms_quoted, ih hterms, Joined.append_eq, Joined.flush_eq]
      simp only [flatMap_written_addNumber_zero]
      simp only [partsOf, addNumber, List.flatMap_cons, List.foldl_append]
      rfl

/-! ## The value of a text -/

theorem hasMark_quote_append {s : Bytes} (hne : s ≠ []) (h : hasMark Byte.quote s = false)
    (rest : Bytes) : hasMark Byte.quote (s ++ rest) = false := by
  obtain ⟨c, r, rfl⟩ := List.exists_cons_of_ne_nil hne
  exact h

theorem isQuoted_of_hasMark {s : Bytes} (h : hasMark Byte.quote s = false) :
    isQuoted s = false := by
  unfold hasMark at h
  rw [isQuoted, h, Bool.and_false, Bool.false_and]

theorem isQuoted_append_quote {s : Bytes} (h : hasMark Byte.quote s = false) :
    isQuoted (s ++ [Byte.quote]) = false := by
  by_cases hne : s = []
  · subst hne
    rfl
  · exact isQuoted_of_hasMark (hasMark_quote_append hne h _)

theorem hasMark_quote_shortened {parts : List Bytes}
    (h : ∀ part ∈ parts, hasMark Byte.quote part = false) :
    hasMark Byte.quote (shortened parts) = false := by
  fun_induction shortened parts with
  | case1 => rfl
  | case2 part => exact h part List.mem_cons_self
  | case3 part next parts ih =>
    obtain ⟨hpart, hparts⟩ := List.forall_mem_cons.1 h
    by_cases hclipped : clipped part = []
    · rw [hclipped, List.nil_append]
      exact ih hparts
    · refine hasMark_quote_append hclipped ?_ _
      -- what is left of a part starts as the part does
      obtain ⟨rest, hrest⟩ := List.rdropWhile_prefix (· == Byte.quote) part
      rw [← hrest] at hpart
      obtain ⟨c, r, hcons⟩ := List.exists_cons_of_ne_nil hclipped
      have hstart : part.rdropWhile (· == Byte.quote) = c :: r := hcons
      rw [hstart] at hpart
      rw [hcons]
      exact hpart

theorem TextTerm.hasMark_quote_of_isEscaped {s : Bytes} (h : TextTerm.isEscaped s = true) :
    hasMark Byte.quote s = false := by
  cases s with
  | nil => rfl
  | cons c s =>
    refine Bool.eq_false_iff.2 fun hquote => ?_
    obtain rfl : c = Byte.quote := by simpa [hasMark] using hquote
    cases h

theorem hasMark_quote_natural (n : Nat) : hasMark Byte.quote (Decimal.natural n) = false := by
  obtain ⟨c, s, hcons, hdigit⟩ := Decimal.natural_eq_cons n
  rw [hcons]
  refine Bool.eq_false_iff.2 fun hquote => ?_
  obtain rfl : c = Byte.quote := by simpa [hasMark] using hquote
  cases hdigit

theorem hasMark_quote_bytes {terms : List TextTerm} (h : ∀ term ∈ terms, term.Complete) :
    ∀ part ∈ (partsOf terms).map TextPart.bytes, hasMark Byte.quote part = false := by
  intro part hpart
  obtain ⟨p, hp, rfl⟩ := List.mem_map.1 hpart
  cases p with
  | text s => exact TextTerm.hasMark_quote_of_isEscaped (h _ (mem_terms_of_text hp))
  | sum w => exact hasMark_quote_natural w.toNat

/-- Whether a quote is left over at the end: behind an empty string in first place, or a sum in
first place, if a later part loses its quote. -/
def strayQuote : List TextPart → Bool
  | [] => false
  | .text s :: parts => s.isEmpty && !parts.isEmpty
  | .sum w :: parts => losesQuote ((TextPart.sum w :: parts).map TextPart.bytes)

/-- What the parts of a text are joined to. -/
def joined (parts : List TextPart) : Bytes :=
  shortened (parts.map TextPart.bytes) ++ if strayQuote parts then [Byte.quote] else []

/-- The text between the quotes, if it has any. -/
def unwrapped (s : Bytes) : Bytes := if isQuoted s then insideQuotes s else s

theorem unwrapped_quoted {s : Bytes} {parts : List TextPart} (hs : TextTerm.isEscaped s = true)
    (hparts : ∀ part ∈ parts.map TextPart.bytes, hasMark Byte.quote part = false) :
    unwrapped ((parts.map TextPart.bytes).foldl glue (inQuotes s)) = joined (.text s :: parts) := by
  rw [foldl_glue, joined, strayQuote, List.map_cons, TextPart.bytes]
  cases parts with
  | nil => simp [shortened, losesQuote, unwrapped, isQuoted_inQuotes, insideQuotes_inQuotes]
  | cons part parts =>
    have hne : (part :: parts).map TextPart.bytes ≠ [] := by simp
    have hends : endsInQuote (inQuotes s) = true := endsInQuote_append_quote (Byte.quote :: s)
    rw [shortened_cons _ hne, shortened_cons _ hne, losesQuote_cons _ hne, hends, Bool.true_or,
      if_pos rfl]
    generalize (part :: parts).map TextPart.bytes = parts at hparts
    have hclipped : clipped (inQuotes s) = clipped (Byte.quote :: s) :=
      clipped_append_quote (Byte.quote :: s)
    rw [hclipped]
    cases s with
    | nil =>
      have hstray := isQuoted_append_quote (hasMark_quote_shortened hparts)
      have hnil : clipped [Byte.quote] = [] ∧ clipped [] = [] := ⟨rfl, rfl⟩
      rw [hnil.1, hnil.2, unwrapped, List.nil_append, hstray]
      rfl
    | cons c s =>
      have hc : c ≠ Byte.quote := by
        rintro rfl
        cases hs
      rw [clipped_cons rfl hc, unwrapped]
      have hquoted := isQuoted_inQuotes (clipped (c :: s) ++ shortened parts)
      have hinside := insideQuotes_inQuotes (clipped (c :: s) ++ shortened parts)
      unfold inQuotes at hquoted hinside
      rw [List.cons_append, List.cons_append, if_pos hquoted, hinside]
      simp

theorem endsInQuote_natural (n : Nat) : endsInQuote (Decimal.natural n) = false := by
  refine Bool.eq_false_iff.2 fun hquote => ?_
  have hlast : (Decimal.natural n).getLast? = some Byte.quote := by simpa [endsInQuote] using hquote
  cases Decimal.isDigit_of_mem (List.mem_of_getLast? hlast)

/-- The digits of a sum in first place stay in first place. -/
theorem shortened_natural (n : Nat) (parts : List Bytes) :
    ∃ rest, shortened (Decimal.natural n :: parts) = Decimal.natural n ++ rest := by
  cases parts with
  | nil => exact ⟨[], (List.append_nil _).symm⟩
  | cons part parts => exact ⟨_, by rw [shortened, clipped_eq_self (endsInQuote_natural n)]⟩

theorem unwrapped_sum (w : Word) (parts : List TextPart) :
    unwrapped (((TextPart.sum w :: parts).map TextPart.bytes).foldl glue []) =
      joined (.sum w :: parts) := by
  have hne : (TextPart.sum w :: parts).map TextPart.bytes ≠ [] := by simp
  have hglue : ((TextPart.sum w :: parts).map TextPart.bytes).foldl glue [] =
      joined (.sum w :: parts) := by
    rw [foldl_glue, shortened_cons [] hne, losesQuote_cons [] hne]
    rfl
  obtain ⟨rest, hrest⟩ := shortened_natural w.toNat (parts.map TextPart.bytes)
  have hquoted : isQuoted (joined (.sum w :: parts)) = false := by
    rw [joined, List.map_cons, TextPart.bytes, hrest, List.append_assoc]
    exact isQuoted_of_hasMark
      (hasMark_quote_append (Decimal.natural_ne_nil _) (hasMark_quote_natural _) _)
  rw [hglue, unwrapped, hquoted]
  rfl

theorem exists_addNumber (v : Word) (parts : List TextPart) :
    ∃ w rest, addNumber v parts = .sum w :: rest := by
  unfold addNumber
  split
  · exact ⟨_, _, rfl⟩
  · exact ⟨_, _, rfl⟩

/-- A chain of complete terms is always accepted. -/
theorem text_eq_joined {terms : List TextTerm} (hne : terms ≠ [])
    (hterms : ∀ term ∈ terms, term.Complete) (hsums : .sum 0 ∉ partsOf terms) :
    text (sumTokens (terms.map TextTerm.token)) = .ok (joined (partsOf terms), []) := by
  obtain ⟨first, terms, rfl⟩ := List.exists_cons_of_ne_nil hne
  obtain ⟨hfirst, hrest⟩ := List.forall_mem_cons.1 hterms
  cases first with
  | quoted s =>
    have hmark : hasMark Byte.quote (inQuotes s) = true := rfl
    have hsums' : .sum 0 ∉ partsOf terms := fun hmem => hsums (List.mem_cons_of_mem _ hmem)
    have hvalue := unwrapped_quoted hfirst (hasMark_quote_bytes hrest)
    rw [List.map_cons, sumTokens, TextTerm.token, text, if_pos hmark]
    show (joinTerms { text := inQuotes s } _ >>= fun j => _) = _
    rw [joinTerms_eq hrest, flatMap_written_addNumber_zero, flatMap_written hsums',
      partsOf, ← hvalue]
    rfl
  | number literal v =>
    obtain ⟨hempty, hmark⟩ := hasMark_quote_of_isInteger hfirst.1
    have hinteger : textInteger literal = .ok v := literal_eq_ok hfirst.1 hfirst.2
    obtain ⟨w, parts, hparts⟩ := exists_addNumber v (partsOf terms)
    rw [partsOf] at hsums ⊢
    rw [List.map_cons, sumTokens, TextTerm.token, text,
      if_neg (by rw [hmark]; exact Bool.false_ne_true), hinteger]
    show (joinTerms { pending := v } _ >>= fun j => _) = _
    rw [joinTerms_eq hrest, flatMap_written hsums, hparts, ← unwrapped_sum]
    rfl

theorem joined_eq_flatMap {parts : List TextPart}
    (h : losesQuote (parts.map TextPart.bytes) = false)
    (hfirst : ∀ rest, parts = .text [] :: rest → rest = []) :
    joined parts = parts.flatMap TextPart.bytes := by
  have hstray : strayQuote parts = false := by
    unfold strayQuote
    split
    · rfl
    · next s rest =>
      rw [Bool.and_eq_false_imp]
      intro hs
      rw [List.isEmpty_iff.1 hs] at hfirst
      rw [hfirst rest rfl]
      rfl
    · exact h
  rw [joined, hstray, shortened_eq_flatten h, List.flatMap_def]
  simp

/-- **The terms of a text are joined.** A chain of complete strings and integers, with no run of
integers that adds up to zero, is read as its parts in order, where every part but the last loses
the quotes at its end, and a quote is left over in some cases. It is read as the bare concatenation
of the parts if none that another one follows ends in a quote, and an empty string in first place is
the only part. -/
theorem text_joins_terms {terms : List TextTerm} (hne : terms ≠ [])
    (hterms : ∀ term ∈ terms, term.Complete) (hsums : .sum 0 ∉ partsOf terms) :
    text (sumTokens (terms.map TextTerm.token)) = .ok (joined (partsOf terms), []) ∧
      (losesQuote ((partsOf terms).map TextPart.bytes) = false →
        (∀ rest, partsOf terms = .text [] :: rest → rest = []) →
        text (sumTokens (terms.map TextTerm.token)) =
          .ok ((partsOf terms).flatMap TextPart.bytes, [])) := by
  have hread := text_eq_joined hne hterms hsums
  refine ⟨hread, fun hquotes hfirst => ?_⟩
  rw [hread, joined_eq_flatMap hquotes hfirst]

/-- Numbers in first place and in the middle, an empty string, and a text that ends in an escaped
quote. -/
theorem text_joins_level :
    let terms := [.number (ascii "7") 7, .quoted (ascii "lvl "), .number (ascii "0x10") 16,
      .number (ascii "-0x6") (-6), .quoted [], .quoted (ascii "\\\"")]
    sumTokens (terms.map TextTerm.token) =
        [ascii "7", ascii "+\"lvl \"", ascii "+0x10", ascii "+-0x6",
        ascii "+\"\"", ascii "+\"\\\"\""] ∧
      text (sumTokens (terms.map TextTerm.token)) = .ok (ascii "7lvl 10\\\"", []) := by
  intro terms
  have hterms : ∀ term ∈ terms, term.Complete := by decide
  have hparts :
      partsOf terms = [.sum 7, .text (ascii "lvl "), .sum 10, .text [], .text (ascii "\\\"")] := by
    decide
  have hread := (text_joins_terms (List.cons_ne_nil _ _) hterms (by rw [hparts]; decide)).2
    (by rw [hparts]; decide) (by rw [hparts]; simp)
  rw [hparts] at hread
  exact ⟨by decide, hread⟩

/-- A text that ends in an escaped quote loses it when another text follows. -/
theorem text_loses_quote :
    let terms := [.quoted (ascii "a\\\""), .quoted (ascii "b")]
    ((∀ term ∈ terms, term.Complete) ∧ .sum 0 ∉ partsOf terms) ∧
      sumTokens (terms.map TextTerm.token) = [ascii "\"a\\\"\"", ascii "+\"b\""] ∧
      (partsOf terms).flatMap TextPart.bytes = ascii "a\\\"b" ∧
      (text (sumTokens (terms.map TextTerm.token))).toOption = some (ascii "a\\b", []) := by
  decide

end CheatScript.Argument
