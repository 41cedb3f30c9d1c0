import CheatScript.Command
import CheatScript.Proofs.TrimmedText
import Mathlib.Tactic.Common

/-!
# Proofs: printed lines are read back

A line that is printed as a name, a blank and terms with commas between them is read as that name in
upper case with these terms, every one after the first with its comma. The name and the first term
are plain; the other terms may hold parentheses too, since only a comma, a plus sign, a blank or a
quote ends a comma term.
-/

namespace CheatScript

/-! ## Classes of bytes -/

namespace Byte

/-- The bytes of mnemonics, registers and numbers. -/
def isPlain (c : UInt8) : Bool :=
  isUpper c || isLower c || isDigit c || c == dollar || c == minus || c == dot

/-- The bytes that a comma term runs over. -/
def isTerm (c : UInt8) : Bool := c != comma && c != quote && c != plus && c != space

theorem isPlain_bounds {c : UInt8} (h : isPlain c = true) :
    c = dollar ∨ (minus ≤ c ∧ c ≤ 0x7A) := by
  grind [isPlain, isUpper, isLower, isDigit]

theorem isTerm_of_isPlain {c : UInt8} (h : isPlain c = true) : isTerm c = true := by
  have hbounds := isPlain_bounds h
  grind [isTerm]

theorem isSolid_of_isPlain {c : UInt8} (h : isPlain c = true) : isSolid c = true := by
  have hbounds := isPlain_bounds h
  grind [isSolid, isBlank]

theorem isWordByte_of_isPlain {c : UInt8} (h : isPlain c = true) : Token.isWordByte c = true := by
  have hbounds := isPlain_bounds h
  grind [Token.isWordByte, isBlank]

theorem ne_opening_of_isPlain {c : UInt8} (h : isPlain c = true) : c ≠ opening := by
  have hbounds := isPlain_bounds h
  grind

end Byte

/-! ## Trimming -/

namespace Space

theorem trim_of_isPlain {s : Bytes} (h : ∀ c ∈ s, Byte.isPlain c = true) : trim s = s := by
  have hhead : ∀ a ∈ s.head?, Byte.isSolid a = true :=
    fun a ha => Byte.isSolid_of_isPlain (h a (List.mem_of_mem_head? ha))
  have hlast : ∀ a ∈ s.getLast?, Byte.isSolid a = true :=
    fun a ha => Byte.isSolid_of_isPlain (h a (List.mem_of_getLast? ha))
  rw [trim, trimStart_of_head hhead, trimEnd_of_last hlast]

end Space

/-! ## Scanning -/

namespace Token

variable {s rest : Bytes} {next : Bytes → Option Nat}

theorem scanFrom_skip (next : Bytes → Option Nat) (skip : Nat) (s : Bytes) :
    scanFrom next skip s = scanFrom next 0 (s.drop skip) := by
  induction skip generalizing s with
  | zero => rfl
  | succ skip ih =>
    cases s with
    | nil => rfl
    | cons c s => exact ih s

/-- A token that is found comes first. -/
theorem scanFrom_token (hne : s ≠ []) (h : next (s ++ rest) = some s.length) :
    scanFrom next 0 (s ++ rest) = s :: scanFrom next 0 rest := by
  obtain ⟨c, s, rfl⟩ := List.exists_cons_of_ne_nil hne
  rw [List.cons_append] at h ⊢
  rw [scanFrom, h]
  simp only [List.length_cons, Nat.add_sub_cancel]
  rw [scanFrom_skip, List.drop_left, ← List.cons_append, List.take_left' (by simp)]

theorem line?_space (s : Bytes) : line? (Byte.space :: s) = none := rfl

theorem scan_space (s : Bytes) : scan (Byte.space :: s) = scan s := by
  rw [scan, scanFrom, line?_space]
  rfl

theorem scan_replicate_space (n : Nat) (s : Bytes) :
    scan (List.replicate n Byte.space ++ s) = scan s := by
  induction n with
  | zero => rfl
  | succ n ih => rw [List.replicate_succ, List.cons_append, scan_space, ih]

/-- A run of bytes of a word that does not start with a quote is one word, if no more of them
follow. -/
theorem scan_run (hne : s ≠ []) (hword : ∀ c ∈ s, isWordByte c = true)
    (hquote : Byte.quote ∉ s.head?) (hrest : ∀ c ∈ rest.head?, isWordByte c = false) :
    scan (s ++ rest) = s :: scan rest := by
  refine scanFrom_token hne ?_
  have htake : (s ++ rest).takeWhile isWordByte = s := by
    rw [List.takeWhile_append_of_pos hword]
    cases rest with
    | nil => simp
    | cons b rest => simp [hrest b rfl]
  obtain ⟨c, t, rfl⟩ := List.exists_cons_of_ne_nil hne
  have hc := hword c List.mem_cons_self
  simp only [isWordByte, Bool.and_eq_true, bne_iff_ne] at hc
  obtain ⟨⟨⟨-, hopening⟩, hplus⟩, hcomma⟩ := hc
  have hline : line? (c :: t ++ rest) = word? (c :: t ++ rest) := by
    have hc : c ≠ Byte.quote := fun h => hquote (by rw [h]; rfl)
    simp [line?, group?, quoted?, plusTerm?, commaTerm?, hopening, hcomma, hc, hplus]
  rw [hline, word?, htake]
  rfl

/-- A plain text is one word, if no byte of a word follows it. -/
theorem scan_word (hne : s ≠ []) (hplain : ∀ c ∈ s, Byte.isPlain c = true)
    (hrest : ∀ c ∈ rest.head?, isWordByte c = false) : scan (s ++ rest) = s :: scan rest := by
  refine scan_run hne (fun c hc => Byte.isWordByte_of_isPlain (hplain c hc)) ?_ hrest
  intro hquote
  exact absurd (hplain _ (List.mem_of_mem_head? hquote)) (by decide)

/-- A run stops only where the text does. -/
theorem shortestRun_eq {stop : UInt8 → Bool} (hne : s ≠ [])
    (hterm : ∀ c ∈ s, Byte.isTerm c = true) (hstop : ∀ c ∈ s, stop c = false)
    (hrest : isBoundary rest = true) : shortestRun stop isBoundary (s ++ rest) = some s.length := by
  induction s with
  | nil => exact absurd rfl hne
  | cons c s ih =>
    have hc := hstop c List.mem_cons_self
    rw [List.cons_append, shortestRun, if_neg (by rw [hc]; exact Bool.false_ne_true)]
    cases s with
    | nil => rw [List.nil_append, if_pos hrest]; rfl
    | cons b s =>
      have hb := hterm b (List.mem_cons_of_mem c List.mem_cons_self)
      simp only [Byte.isTerm, Bool.and_eq_true, bne_iff_ne] at hb
      obtain ⟨⟨⟨hbcomma, -⟩, hbplus⟩, hbspace⟩ := hb
      have hinside : isBoundary (b :: s ++ rest) = false := by
        simp [isBoundary, hbcomma, hbplus, hbspace]
      rw [if_neg (by rw [hinside]; exact Bool.false_ne_true),
        ih (List.cons_ne_nil b s) (fun x hx => hterm x (List.mem_cons_of_mem c hx))
          (fun x hx => hstop x (List.mem_cons_of_mem c hx))]
      rfl

theorem firstDown_of_eq_some {f : Nat → Option Nat} {n m : Nat} (h : f n = some m) :
    firstDown f n = some m := by
  cases n with
  | zero => exact h
  | succ n => rw [firstDown, h, Option.some_or]

/-- A comma, blanks and the text after them are one token, if a boundary follows. -/
theorem scan_comma_blanks (n : Nat) (hne : s ≠ []) (hterm : ∀ c ∈ s, Byte.isTerm c = true)
    (hrest : isBoundary rest = true) :
    scan (Byte.comma :: (List.replicate n Byte.space ++ s) ++ rest) =
      (Byte.comma :: (List.replicate n Byte.space ++ s)) :: scan rest := by
  refine scanFrom_token (List.cons_ne_nil _ _) ?_
  obtain ⟨c, t, rfl⟩ := List.exists_cons_of_ne_nil hne
  have hc := hterm c List.mem_cons_self
  simp only [Byte.isTerm, Bool.and_eq_true, bne_iff_ne] at hc
  obtain ⟨⟨⟨-, hquote⟩, -⟩, hspace⟩ := hc
  have htext : commaText? isBoundary (List.replicate n Byte.space ++ (c :: t) ++ rest) =
      some ((c :: t).length + n) := by
    have hblanks : ((List.replicate n Byte.space ++ (c :: t) ++ rest).takeWhile
        (· == Byte.space)).length = n := by
      rw [List.append_assoc, List.takeWhile_append_of_pos (by simp [List.mem_replicate])]
      simp [hspace]
    have hstop : ∀ b ∈ c :: t, (b == Byte.comma || b == Byte.quote) = false := by
      intro b hb
      have hbterm := hterm b hb
      grind [Byte.isTerm]
    rw [commaText?, hblanks]
    refine firstDown_of_eq_some ?_
    rw [List.append_assoc, List.drop_left' List.length_replicate,
      shortestRun_eq hne hterm hstop hrest]
    rfl
  have hrest' : commaRest? (List.replicate n Byte.space ++ (c :: t) ++ rest) =
      some ((c :: t).length + n) := by
    cases n with
    | zero =>
      rw [List.replicate_zero, List.nil_append, List.cons_append] at htext ⊢
      simp only [commaRest?, if_neg hquote, htext, Option.none_or]
    | succ n =>
      have hblank : Byte.space ≠ Byte.quote := by decide
      rw [List.replicate_succ, List.cons_append, List.cons_append] at htext ⊢
      simp only [commaRest?, if_neg hblank, htext, Option.none_or]
  have hline : ∀ u : Bytes, line? (Byte.comma :: u) =
      ((commaRest? u).map (· + 1)).or (word? (Byte.comma :: u)) := fun _ => rfl
  rw [List.cons_append, hline, hrest', Option.map_some, Option.some_or]
  simp [Nat.add_comm n]

/-- A comma and the text after it are one token, if a boundary follows. -/
theorem scan_comma (hne : s ≠ []) (hterm : ∀ c ∈ s, Byte.isTerm c = true)
    (hrest : isBoundary rest = true) :
    scan (Byte.comma :: s ++ rest) = (Byte.comma :: s) :: scan rest :=
  scan_comma_blanks 0 hne hterm hrest

/-- The terms after a name, every one but the first with a comma in front. -/
def commaTerms : List Bytes → List Bytes
  | [] => []
  | first :: rest => first :: rest.map (Byte.comma :: ·)

/-- A name, and after a blank the terms with commas between them. -/
def printed (name : Bytes) (terms : List Bytes) : Bytes := match terms with
  | [] => name
  | _ :: _ => name ++ ascii " " ++ Bytes.join (ascii ",") terms

theorem join_cons (first : Bytes) (rest : List Bytes) :
    Bytes.join (ascii ",") (first :: rest) = first ++ (rest.map (Byte.comma :: ·)).flatten := by
  induction rest generalizing first with
  | nil => simp [Bytes.join]
  | cons second rest ih =>
    have hstep : Bytes.join (ascii ",") (first :: second :: rest) =
        first ++ ascii "," ++ Bytes.join (ascii ",") (second :: rest) := rfl
    have hcomma : ascii "," = [Byte.comma] := rfl
    rw [hstep, ih, hcomma]
    simp

theorem scan_commas {terms : List Bytes}
    (hterms : ∀ t ∈ terms, t ≠ [] ∧ ∀ c ∈ t, Byte.isTerm c = true) :
    scan (terms.map (Byte.comma :: ·)).flatten = terms.map (Byte.comma :: ·) := by
  induction terms with
  | nil => rfl
  | cons t terms ih =>
    obtain ⟨hne, hterm⟩ := hterms t List.mem_cons_self
    have hrest : isBoundary (terms.map (Byte.comma :: ·)).flatten = true := by
      cases terms with
      | nil => rfl
      | cons _ _ => rfl
    rw [List.map_cons, List.flatten_cons, scan_comma hne hterm hrest,
      ih fun u hu => hterms u (List.mem_cons_of_mem t hu)]

/-- A printed line is read as its name in upper case and its terms. -/
theorem ofLine_printed {name : Bytes} {terms : List Bytes} (hne : name ≠ [])
    (hname : ∀ c ∈ name, Byte.isPlain c = true)
    (hfirst : ∀ t ∈ terms.head?, ∀ c ∈ t, Byte.isPlain c = true)
    (hterms : ∀ t ∈ terms, t ≠ [] ∧ ∀ c ∈ t, Byte.isTerm c = true) :
    ofLine (printed name terms) = (Bytes.upper name, commaTerms terms) := by
  cases terms with
  | nil =>
    have hscan : scan (name ++ []) = name :: scan [] := scan_word hne hname (by simp)
    rw [List.append_nil] at hscan
    rw [ofLine, printed, hscan]
    rfl
  | cons first rest =>
    have hblank : ascii " " = [Byte.space] := rfl
    have hspace : ∀ c ∈ (Byte.space :: Bytes.join (ascii ",") (first :: rest)).head?,
        isWordByte c = false := by
      intro c hc
      obtain rfl := Option.some.inj hc
      rfl
    have hnext : ∀ c ∈ (rest.map (Byte.comma :: ·)).flatten.head?, isWordByte c = false := by
      intro c hc
      cases rest with
      | nil => cases hc
      | cons second rest =>
        obtain rfl := Option.some.inj hc
        rfl
    have hscan : scan (printed name (first :: rest)) =
        name :: first :: rest.map (Byte.comma :: ·) := by
      rw [printed, hblank, List.append_assoc, List.singleton_append, scan_word hne hname hspace,
        scan_space, join_cons,
        scan_word (hterms first List.mem_cons_self).1 (hfirst first rfl) hnext,
        scan_commas fun t ht => hterms t (List.mem_cons_of_mem first ht)]
    rw [ofLine, hscan]
    rfl

end Token

end CheatScript
