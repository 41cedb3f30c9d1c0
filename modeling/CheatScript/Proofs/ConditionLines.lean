import CheatScript.Condition.Grammar
import CheatScript.Proofs.Numerals
import CheatScript.Proofs.PrintedLines
import CheatScript.Scope.Nesting

/-!
# Proofs: the tokens of an If line

The grammar of If lines looks at the bytes of a line, while a condition is read from its tokens.
Where the form starts with the line, both see the same clauses: the tokens after the name are three
sums for each clause, an address, an operator and a number, with one `&&` between two clauses, and
there are as many `&&` in the line as among the tokens.
-/

namespace CheatScript

/-! ## Clauses of tokens -/

/-- Whether tokens are one token and plus terms after it. -/
def Argument.IsSum (tokens : List Bytes) : Prop :=
  ∃ first terms, tokens = first :: terms ∧ ∀ term ∈ terms, hasMark Byte.plus term = true

namespace Scope

/-- Whether tokens are three sums: an address, an operator and a number. -/
def IsTriple (tokens : List Bytes) : Prop :=
  ∃ address operator value, tokens = address ++ operator ++ value ∧ Argument.IsSum address ∧
    Argument.IsSum operator ∧ Argument.IsSum value

/-- Whether tokens are three sums, and `n` times `&&` and three sums more. -/
inductive Clausal : (n : Nat) → List Bytes → Prop
  | last {tokens : List Bytes} (h : IsTriple tokens) : Clausal 0 tokens
  | more {n : Nat} {tokens rest : List Bytes} (h : IsTriple tokens) (hrest : Clausal n rest) :
      Clausal (n + 1) (tokens ++ conjunction :: rest)

end Scope

/-! ## Texts in front -/

namespace Bytes

variable {lead s rest : Bytes}

theorem afterFolded?_eq_some (h : afterFolded? lead s = some rest) :
    ∃ front, s = front ++ rest ∧ front.map Byte.toLower = lead := by
  induction lead generalizing s with
  | nil => exact ⟨[], Option.some.inj h, rfl⟩
  | cons a lead ih =>
    cases s with
    | nil => cases h
    | cons b s =>
      unfold afterFolded? at h
      split at h
      · next hab =>
        obtain ⟨front, rfl, hfront⟩ := ih h
        exact ⟨b :: front, rfl, by rw [List.map_cons, hfront, hab]⟩
      · cases h

theorem dropLead_cases (lead s : Bytes) : s = lead ++ dropLead lead s ∨ s = dropLead lead s := by
  unfold dropLead
  cases h : after? lead s with
  | none => exact .inr rfl
  | some rest => exact .inl (eq_append_of_after? h)

/-- A text with no first byte of a part adds no occurrence of it. -/
theorem count_append {part front : Bytes} {first : UInt8} (hpart : part.head? = some first)
    (hfront : first ∉ front) (s : Bytes) : count part (front ++ s) = count part s := by
  induction front with
  | nil => rfl
  | cons c front ih =>
    obtain ⟨hne, hrest⟩ := not_or.1 (List.mem_cons.not.1 hfront)
    obtain ⟨part', rfl⟩ := List.head?_eq_some_iff.1 hpart
    have hstart : startsWith (first :: part') (c :: front ++ s) = false := by
      simp [startsWith, after?, hne]
    rw [List.cons_append] at hstart ⊢
    rw [← ih hrest, count, countFrom, hstart]
    rfl

end Bytes

/-! ## Identifiers -/

namespace Byte

/-- The bytes of an identifier. -/
def isName (c : UInt8) : Bool := isWord c || 0x80 ≤ c

theorem isName_of_isHex {c : UInt8} (h : isHex c = true) : isName c = true := by
  grind [isHex, isName, isWord, isUpper, isLower, isDigit]

theorem isWordByte_of_isName {c : UInt8} (h : isName c = true) : Token.isWordByte c = true := by
  grind [isName, isWord, isUpper, isLower, isDigit, Token.isWordByte, isBlank]

theorem isTerm_of_isName {c : UInt8} (h : isName c = true) : isTerm c = true := by
  grind [isName, isWord, isUpper, isLower, isDigit, isTerm]

theorem ne_of_isName {c : UInt8} (h : isName c = true) : c ≠ quote ∧ c ≠ 0x26 := by
  grind [isName, isWord, isUpper, isLower, isDigit]

end Byte

namespace Identifier

theorem afterChar?_eq_some {c : UInt8} {s rest : Bytes} (h : afterChar? (c :: s) = some rest) :
    ∃ more, s = more ++ rest ∧ ∀ b ∈ c :: more, Byte.isName b = true := by
  rw [afterChar?] at h
  split at h
  · next hword =>
    obtain rfl := Option.some.inj h
    exact ⟨[], rfl, by simp [Byte.isName, hword]⟩
  · rcases Option.or_eq_some_iff.1 h with hlong | ⟨-, hkelvin⟩
    · have hsplit := Bytes.eq_append_of_after? hlong
      obtain ⟨rfl, rfl⟩ := List.cons.inj hsplit
      exact ⟨[0xBF], rfl, List.all_eq_true.1 (by decide)⟩
    · have hsplit := Bytes.eq_append_of_after? hkelvin
      obtain ⟨rfl, rfl⟩ := List.cons.inj hsplit
      exact ⟨[0x84, 0xAA], rfl, List.all_eq_true.1 (by decide)⟩

theorem isName_lengthFrom {skip : Nat} {s : Bytes} (h : ∀ b ∈ s.take skip, Byte.isName b = true) :
    ∀ b ∈ s.take (lengthFrom skip s), Byte.isName b = true := by
  induction s generalizing skip with
  | nil => simp
  | cons c s ih =>
    cases skip with
    | succ skip =>
      rw [List.take_succ_cons] at h
      obtain ⟨hc, hrest⟩ := List.forall_mem_cons.1 h
      rw [lengthFrom, List.take_succ_cons]
      exact List.forall_mem_cons.2 ⟨hc, ih hrest⟩
    | zero =>
      cases hchar : afterChar? (c :: s) with
      | none => simp [lengthFrom, hchar]
      | some rest =>
        obtain ⟨more, rfl, hmore⟩ := afterChar?_eq_some hchar
        obtain ⟨hc, hmore⟩ := List.forall_mem_cons.1 hmore
        have hskip : (more ++ rest).length - rest.length = more.length := by simp
        rw [lengthFrom, hchar]
        simp only [hskip, List.take_succ_cons]
        exact List.forall_mem_cons.2 ⟨hc, ih (by simpa using hmore)⟩

theorem cut?_eq_some {s name rest : Bytes} (h : cut? s = some (name, rest)) :
    s = name ++ rest ∧ name ≠ [] ∧ ∀ b ∈ name, Byte.isName b = true := by
  unfold cut? at h
  split at h
  · cases h
  · next hlength =>
    obtain ⟨rfl, rfl⟩ := Prod.mk.inj (Option.some.inj h)
    refine ⟨(List.take_append_drop _ s).symm, ?_, isName_lengthFrom (by simp)⟩
    intro hnil
    rcases List.take_eq_nil_iff.1 hnil with hzero | rfl
    · exact hlength hzero
    · exact hlength rfl

end Identifier

/-! ## Scanning -/

namespace Token

variable {s rest : Bytes}

theorem scan_blank {c : UInt8} (h : Byte.isBlank c = true) (s : Bytes) :
    scan (c :: s) = scan s := by
  have hc : c ≠ Byte.opening ∧ c ≠ Byte.quote ∧ c ≠ Byte.plus ∧ c ≠ Byte.comma := by
    grind [Byte.isBlank]
  obtain ⟨hopening, hquote, hplus, hcomma⟩ := hc
  have hline : line? (c :: s) = none := by
    simp [line?, group?, quoted?, plusTerm?, commaTerm?, word?, isWordByte, h, hopening,
      hquote, hplus, hcomma]
  rw [scan, scanFrom, hline]
  rfl

theorem scan_blanks {blanks : Bytes} (h : ∀ c ∈ blanks, Byte.isBlank c = true) (s : Bytes) :
    scan (blanks ++ s) = scan s := by
  induction blanks with
  | nil => rfl
  | cons c blanks ih =>
    obtain ⟨hc, hblanks⟩ := List.forall_mem_cons.1 h
    rw [List.cons_append, scan_blank hc, ih hblanks]

theorem firstDown_of_some {f : Nat → Option Nat} {n m : Nat} (h : f n = some m) :
    firstDown f n = some m := by
  cases n with
  | zero => exact h
  | succ n => rw [firstDown, h, Option.some_or]

/-- A plus sign, the blanks after it and the text after them are one token, if a boundary
follows. -/
theorem scan_plus {blanks : Bytes} (hblanks : ∀ c ∈ blanks, Byte.isBlank c = true) (hne : s ≠ [])
    (hterm : ∀ c ∈ s, Byte.isTerm c = true) (hsolid : ∀ c ∈ s.head?, Byte.isBlank c = false)
    (hrest : isBoundary rest = true) :
    scan (Byte.plus :: (blanks ++ s) ++ rest) = (Byte.plus :: (blanks ++ s)) :: scan rest := by
  refine scanFrom_token (List.cons_ne_nil _ _) ?_
  obtain ⟨c, t, rfl⟩ := List.exists_cons_of_ne_nil hne
  have hstop : ∀ b ∈ c :: t, (b == Byte.plus || b == Byte.quote) = false := by
    intro b hb
    have hbterm := hterm b hb
    grind [Byte.isTerm]
  have htext : plusText? (c :: t ++ rest) = some (c :: t).length := by
    have hquote : c ≠ Byte.quote := by
      have hc := hstop c List.mem_cons_self
      simp only [Bool.or_eq_false_iff, beq_eq_false_iff_ne] at hc
      exact hc.2
    have hrun := shortestRun_eq hne hterm hstop hrest
    rw [List.cons_append] at hrun ⊢
    rw [plusText?, if_neg hquote, hrun]
  have htake : ((blanks ++ (c :: t)) ++ rest).takeWhile Byte.isBlank = blanks := by
    rw [List.append_assoc, List.takeWhile_append_of_pos hblanks]
    simp [hsolid c rfl]
  have hplus : plusTerm? true (Byte.plus :: ((blanks ++ (c :: t)) ++ rest)) =
      some (Byte.plus :: (blanks ++ (c :: t))).length := by
    rw [plusTerm?, if_pos rfl, htake, firstDown_of_some (m := (c :: t).length + blanks.length)]
    · simp
      omega
    · rw [List.append_assoc, List.drop_left, htext]
      rfl
  have hline (s : Bytes) : line? (Byte.plus :: s) =
      ((plusTerm? true (Byte.plus :: s)).or (commaTerm? (Byte.plus :: s))).or
        (word? (Byte.plus :: s)) := rfl
  rw [List.cons_append, hline, hplus]
  rfl

end Token

/-! ## The grammar -/

namespace Condition.Grammar

open Scope Argument

variable {term : Bytes → Option Bytes} {s rest next : Bytes} {tail : Tail}

theorem isBlank_of_isGap {c : UInt8} (h : Byte.isGap c = true) : Byte.isBlank c = true := by
  simp only [Byte.isGap, Bool.and_eq_true] at h
  exact h.1

/-- Whether a reader of terms takes the bytes of a name off the front. -/
def TakesName (term : Bytes → Option Bytes) : Prop :=
  ∀ s rest, term s = some rest →
    ∃ text, s = text ++ rest ∧ text ≠ [] ∧ ∀ c ∈ text, Byte.isName c = true

theorem takesName_afterHex? : TakesName afterHex? := by
  intro s rest h
  unfold afterHex? at h
  simp only at h
  split at h
  · next hlength =>
    obtain rfl := Option.some.inj h
    refine ⟨s.takeWhile Byte.isHex, List.takeWhile_append_dropWhile.symm, ?_, ?_⟩
    · intro hnil
      simp [hnil] at hlength
    · intro c hc
      exact Byte.isName_of_isHex (List.all_eq_true.1 List.all_takeWhile c hc)
  · cases h

theorem takesName_afterDigits? : TakesName afterDigits? := by
  intro s rest h
  unfold afterDigits? at h
  split at h
  · cases h
  · next hempty =>
    obtain rfl := Option.some.inj h
    refine ⟨s.takeWhile Byte.isDigit, List.takeWhile_append_dropWhile.symm, ?_, ?_⟩
    · simpa using hempty
    · intro c hc
      have hdigit : Byte.isDigit c = true := List.all_eq_true.1 List.all_takeWhile c hc
      simp [Byte.isName, Byte.isWord, hdigit]

/-- A text in either case has the bytes of a name if one in lower case has. -/
theorem isName_of_fold {front lead : Bytes} (h : front.map Byte.toLower = lead)
    (hlead : lead.all Byte.isName = true) : ∀ c ∈ front, Byte.isName c = true := by
  intro c hc
  have hlower : Byte.toLower c ∈ lead := h ▸ List.mem_map_of_mem hc
  by_cases hupper : Byte.isUpper c = true
  · simp [Byte.isName, Byte.isWord, hupper]
  · rw [Byte.toLower, if_neg hupper] at hlower
    exact List.all_eq_true.1 hlead c hlower

/-- A reader of hexadecimal digits after `0x`, and of plain terms else. -/
theorem TakesName.marked {plain : Bytes → Option Bytes} (hplain : TakesName plain)
    (hnone : ∀ s, Bytes.afterFolded? (ascii "0x") s = none → term s = plain s)
    (hsome : ∀ s digits, Bytes.afterFolded? (ascii "0x") s = some digits →
      term s = afterHex? digits) :
    TakesName term := by
  intro s rest h
  cases hmark : Bytes.afterFolded? (ascii "0x") s with
  | none =>
    rw [hnone s hmark] at h
    exact hplain s rest h
  | some digits =>
    rw [hsome s digits hmark] at h
    obtain ⟨front, hs, hfold⟩ := Bytes.afterFolded?_eq_some hmark
    have hfront := isName_of_fold hfold (by decide)
    obtain ⟨text, rfl, hne, htext⟩ := takesName_afterHex? digits rest h
    refine ⟨front ++ text, by rw [hs, List.append_assoc], by simp [hne], ?_⟩
    exact List.forall_mem_append.2 ⟨hfront, htext⟩

theorem takesName_afterAddressTerm? : TakesName afterAddressTerm? := by
  refine takesName_afterHex?.marked ?_ ?_
  · intro s hmark
    rw [afterAddressTerm?, hmark]
    rfl
  · intro s digits hmark
    rw [afterAddressTerm?, hmark]
    rfl

theorem takesName_afterValueTerm? : TakesName afterValueTerm? := by
  refine takesName_afterDigits?.marked ?_ ?_
  · intro s hmark
    rw [afterValueTerm?, hmark]
  · intro s digits hmark
    rw [afterValueTerm?, hmark]

theorem count_skip {front : Bytes} (h : (0x26 : UInt8) ∉ front) (s : Bytes) :
    Bytes.count conjunction (front ++ s) = Bytes.count conjunction s :=
  Bytes.count_append rfl h s

theorem count_cons {c : UInt8} (h : c ≠ 0x26) (s : Bytes) :
    Bytes.count conjunction (c :: s) = Bytes.count conjunction s := by
  have hfree : (0x26 : UInt8) ∉ [c] := by simpa using h.symm
  exact count_skip hfree s

/-- Plus terms in front of a boundary are scanned as plus terms. -/
theorem scan_afterTerms? (hterm : TakesName term) {fuel : Nat}
    (h : afterTerms? term fuel s = some rest) (hrest : Token.isBoundary rest = true) :
    Token.isBoundary s = true ∧ ∃ terms, (∀ t ∈ terms, hasMark Byte.plus t = true) ∧
      Token.scan s = terms ++ Token.scan rest ∧
      Bytes.count conjunction s = Bytes.count conjunction rest := by
  induction fuel generalizing s with
  | zero =>
    obtain rfl := Option.some.inj h
    exact ⟨hrest, [], by simp, rfl, rfl⟩
  | succ fuel ih =>
    rw [afterTerms?] at h
    cases hplus : Bytes.after? [Byte.plus] s with
    | none =>
      rw [hplus] at h
      obtain rfl := Option.some.inj h
      exact ⟨hrest, [], by simp, rfl, rfl⟩
    | some behind =>
      rw [hplus] at h
      simp only at h
      split at h
      · cases h
      · next more hmore =>
        obtain ⟨text, htext, hne, hname⟩ := hterm _ _ hmore
        obtain ⟨hboundary, terms, hterms, hscan, hcount⟩ := ih h
        obtain ⟨signed, hsigned, hne, hbytes⟩ :
            ∃ signed, behind.dropWhile Byte.isGap = signed ++ more ∧ signed ≠ [] ∧
              ∀ c ∈ signed, c = Byte.minus ∨ Byte.isName c = true := by
          rcases Bytes.dropLead_cases [Byte.minus] (behind.dropWhile Byte.isGap) with
            hminus | hplain
          · refine ⟨Byte.minus :: text, by rw [hminus, htext]; rfl, List.cons_ne_nil _ _, ?_⟩
            exact List.forall_mem_cons.2 ⟨.inl rfl, fun c hc => .inr (hname c hc)⟩
          · exact ⟨text, hplain.trans htext, hne, fun c hc => .inr (hname c hc)⟩
        have hgaps : ∀ c ∈ behind.takeWhile Byte.isGap, Byte.isBlank c = true := fun c hc =>
          isBlank_of_isGap (List.all_eq_true.1 List.all_takeWhile c hc)
        have hs : s = Byte.plus :: (behind.takeWhile Byte.isGap ++ signed) ++ more := by
          calc s = Byte.plus :: behind := Bytes.eq_append_of_after? hplus
            _ = Byte.plus :: (behind.takeWhile Byte.isGap ++ (signed ++ more)) := by
              rw [← hsigned, List.takeWhile_append_dropWhile]
            _ = _ := by rw [List.cons_append, List.append_assoc]
        have hsolid : ∀ c ∈ signed, Byte.isTerm c = true ∧ Byte.isBlank c = false ∧ c ≠ 0x26 := by
          intro c hc
          rcases hbytes c hc with rfl | hc
          · decide
          · have hword := Byte.isWordByte_of_isName hc
            simp only [Token.isWordByte, Bool.and_eq_true, Bool.not_eq_true'] at hword
            exact ⟨Byte.isTerm_of_isName hc, hword.1.1.1, (Byte.ne_of_isName hc).2⟩
        have hfree : (0x26 : UInt8) ∉ Byte.plus :: (behind.takeWhile Byte.isGap ++ signed) := by
          intro hmem
          rcases List.mem_cons.1 hmem with heq | hmem
          · exact absurd heq (by decide)
          · rcases List.mem_append.1 hmem with hmem | hmem
            · exact absurd (hgaps _ hmem) (by decide)
            · exact (hsolid _ hmem).2.2 rfl
        refine ⟨by rw [hs]; rfl, (Byte.plus :: (behind.takeWhile Byte.isGap ++ signed)) :: terms,
          List.forall_mem_cons.2 ⟨rfl, hterms⟩, ?_, ?_⟩
        · rw [hs, Token.scan_plus hgaps hne (fun c hc => (hsolid c hc).1)
            (fun c hc => (hsolid c (List.mem_of_mem_head? hc)).2.1) hboundary, hscan,
            List.cons_append]
        · rw [hs, count_skip hfree, hcount]

/-- What follows a word and its plus terms: the text after the blank that ends them, or nothing. -/
def Tail.Reaches (tail : Tail) (next : Bytes) : Prop :=
  tail.afterSpace? = some next ∨ tail.isEnd = true ∧ next = []

/-- A word with blanks, or nothing, after it. -/
theorem scan_name {name : Bytes} (hne : name ≠ []) (hname : ∀ c ∈ name, Byte.isName c = true)
    (hrest : ∀ c ∈ rest.head?, Token.isWordByte c = false) :
    Token.scan (name ++ rest) = name :: Token.scan rest ∧
      Bytes.count conjunction (name ++ rest) = Bytes.count conjunction rest := by
  refine ⟨Token.scan_run hne (fun c hc => Byte.isWordByte_of_isName (hname c hc)) ?_ hrest, ?_⟩
  · intro hquote
    exact (Byte.ne_of_isName (hname _ (List.mem_of_mem_head? hquote))).1 rfl
  · exact count_skip (fun hmem => (Byte.ne_of_isName (hname _ hmem)).2 rfl) rest

theorem scan_gaps (s : Bytes) :
    Token.scan s = Token.scan (s.dropWhile Byte.isGap) ∧
      Bytes.count conjunction s = Bytes.count conjunction (s.dropWhile Byte.isGap) := by
  have hgaps : ∀ c ∈ s.takeWhile Byte.isGap, Byte.isBlank c = true := fun c hc =>
    isBlank_of_isGap (List.all_eq_true.1 List.all_takeWhile c hc)
  have hfree : (0x26 : UInt8) ∉ s.takeWhile Byte.isGap := fun hmem =>
    absurd (hgaps _ hmem) (by decide)
  constructor
  · conv_lhs => rw [← List.takeWhile_append_dropWhile (p := Byte.isGap) (l := s)]
    rw [Token.scan_blanks hgaps]
  · conv_lhs => rw [← List.takeWhile_append_dropWhile (p := Byte.isGap) (l := s)]
    rw [count_skip hfree]

/-- A byte that follows a word is a blank or comes after the blanks. -/
theorem isWordByte_head (hrest : ∀ c ∈ (rest.dropWhile Byte.isGap).head?, c = Byte.plus ∨
    Byte.isGap c = true) : ∀ c ∈ rest.head?, Token.isWordByte c = false := by
  intro c hc
  have hblank (c : UInt8) (h : Byte.isGap c = true) : Token.isWordByte c = false := by
    simp [Token.isWordByte, isBlank_of_isGap h]
  obtain ⟨more, rfl⟩ := List.head?_eq_some_iff.1 hc
  by_cases hgap : Byte.isGap c = true
  · exact hblank c hgap
  · rw [List.dropWhile_cons_of_neg hgap] at hrest
    rcases hrest c rfl with rfl | h
    · rfl
    · exact hblank c h

/-- A word and its plus terms are scanned as a sum. -/
theorem scan_afterSum? (hterm : TakesName term) (h : afterSum? term s = some tail)
    (hnext : tail.Reaches next) :
    ∃ tokens, IsSum tokens ∧ Token.scan s = tokens ++ Token.scan next ∧
      Bytes.count conjunction s = Bytes.count conjunction next := by
  unfold afterSum? at h
  cases hcut : Identifier.cut? s with
  | none =>
    rw [hcut] at h
    cases h
  | some pair =>
    obtain ⟨name, rest⟩ := pair
    rw [hcut] at h
    obtain ⟨rfl, hne, hname⟩ := Identifier.cut?_eq_some hcut
    obtain ⟨hscanGaps, hcountGaps⟩ := scan_gaps rest
    simp only at h
    split at h
    · next hplus =>
      obtain ⟨text, htext, rfl⟩ := Option.map_eq_some_iff.1 h
      -- after a term the text ends, or one blank follows
      obtain ⟨hboundary, hscan, hcount⟩ : Token.isBoundary text = true ∧
          Token.scan text = Token.scan next ∧
          Bytes.count conjunction text = Bytes.count conjunction next := by
        rcases hnext with hspace | ⟨hend, rfl⟩
        · obtain rfl : text = Byte.space :: next := Bytes.eq_append_of_after? hspace
          exact ⟨rfl, Token.scan_space next, count_cons (by decide) next⟩
        · obtain rfl : text = [] := List.isEmpty_iff.1 hend
          exact ⟨rfl, rfl, rfl⟩
      obtain ⟨-, terms, hterms, hscanTerms, hcountTerms⟩ := scan_afterTerms? hterm htext hboundary
      have hhead : ∀ c ∈ rest.head?, Token.isWordByte c = false := by
        refine isWordByte_head fun c hc => .inl ?_
        rw [hplus] at hc
        exact (Option.some.inj hc).symm
      obtain ⟨hscanName, hcountName⟩ := scan_name hne hname hhead
      refine ⟨name :: terms, ⟨name, terms, rfl, hterms⟩, ?_, ?_⟩
      · rw [hscanName, hscanGaps, hscanTerms, hscan, List.cons_append]
      · rw [hcountName, hcountGaps, hcountTerms, hcount]
    · next hplus =>
      obtain rfl := Option.some.inj h
      obtain ⟨rfl, hhead⟩ : next = rest.dropWhile Byte.isGap ∧
          ∀ c ∈ rest.head?, Token.isWordByte c = false := by
        rcases hnext with hspace | ⟨hend, rfl⟩
        · unfold Tail.afterSpace? at hspace
          rw [if_pos rfl] at hspace
          split at hspace
          · next hlast =>
            refine ⟨(Option.some.inj hspace).symm, ?_⟩
            intro c hc
            obtain ⟨more, rfl⟩ := List.head?_eq_some_iff.1 hc
            by_cases hgap : Byte.isGap c = true
            · simp [Token.isWordByte, isBlank_of_isGap hgap]
            · rw [List.takeWhile_cons_of_neg hgap] at hlast
              cases hlast
          · cases hspace
        · have hempty : rest.dropWhile Byte.isGap = [] := List.isEmpty_iff.1 hend
          refine ⟨hempty.symm, isWordByte_head ?_⟩
          rw [hempty]
          simp
      obtain ⟨hscanName, hcountName⟩ := scan_name hne hname hhead
      refine ⟨[name], ⟨name, [], rfl, by simp⟩, ?_, ?_⟩
      · rw [hscanName, hscanGaps]
        rfl
      · rw [hcountName, hcountGaps]

/-- Two bytes of which the second is no `&` hold no `&&`. -/
theorem count_pair {c d : UInt8} (hd : d ≠ 0x26) (s : Bytes) :
    Bytes.count conjunction (c :: d :: s) = Bytes.count conjunction s := by
  have hsecond : Bytes.count conjunction (d :: s) = Bytes.count conjunction s := count_cons hd s
  have hstart : Bytes.startsWith conjunction (c :: d :: s) = false := by
    have hconjunction : conjunction = [0x26, 0x26] := rfl
    by_cases hc : c = 0x26
    · simp [hconjunction, Bytes.startsWith, Bytes.after?, hc, hd.symm]
    · simp [hconjunction, Bytes.startsWith, Bytes.after?, Ne.symm hc]
  rw [Bytes.count, Bytes.countFrom, hstart]
  exact hsecond

/-- An operator with its mark is scanned as one token. -/
theorem scan_afterOperator? (h : afterOperator? s = some rest)
    (hnext : Bytes.after? [Byte.space] rest = some next) :
    ∃ operator, Token.scan s = operator :: Token.scan next ∧
      Bytes.count conjunction s = Bytes.count conjunction next := by
  unfold afterOperator? at h
  split at h
  · next mark more hfound =>
    split at h
    · next hmark =>
      obtain rfl := Option.some.inj h
      obtain rfl : more = Byte.space :: next := Bytes.eq_append_of_after? hnext
      obtain ⟨operator, hmem, hafter⟩ := List.exists_of_findSome?_eq_some hfound
      obtain rfl := Bytes.eq_append_of_after? hafter
      have hmark : mark = Byte.colon ∨ mark = Byte.dot := by simpa using hmark
      have hmarkBytes : Token.isWordByte mark = true ∧ mark ≠ 0x26 := by
        rcases hmark with rfl | rfl <;> decide
      have hbytes : ∀ operator ∈ operators, operator ≠ [] ∧ Byte.quote ∉ operator.head? ∧
          operator.all Token.isWordByte = true ∧ (0x26 : UInt8) ∉ operator.dropLast := by
        decide
      obtain ⟨hne, hquote, hword, hlead⟩ := hbytes operator hmem
      have hquote' : Byte.quote ∉ (operator ++ [mark]).head? := by
        obtain ⟨c, more, rfl⟩ := List.exists_cons_of_ne_nil hne
        exact hquote
      refine ⟨operator ++ [mark], ?_, ?_⟩
      · have hscan : Token.scan ((operator ++ [mark]) ++ Byte.space :: next) =
            (operator ++ [mark]) :: Token.scan (Byte.space :: next) :=
          Token.scan_run (by simp)
            (List.forall_mem_append.2
              ⟨List.all_eq_true.1 hword, List.forall_mem_singleton.2 hmarkBytes.1⟩)
            hquote' (by rintro c ⟨⟩; rfl)
        rw [List.append_assoc, List.singleton_append] at hscan
        rw [hscan, Token.scan_space]
      · obtain ⟨last, hlast⟩ : ∃ last, operator = operator.dropLast ++ [last] :=
          ⟨operator.getLast hne, (List.dropLast_concat_getLast hne).symm⟩
        rw [hlast, List.append_assoc, count_skip hlead, List.singleton_append,
          count_pair hmarkBytes.2]
        exact count_cons (by decide) next
    · cases h
  · cases h

/-- The text after a clause, or nothing. -/
theorem scan_afterClause? (h : afterClause? s = some tail) (hnext : tail.Reaches next) :
    ∃ tokens, IsTriple tokens ∧ Token.scan s = tokens ++ Token.scan next ∧
      Bytes.count conjunction s = Bytes.count conjunction next := by
  obtain ⟨address, haddress, h⟩ := Option.bind_eq_some_iff.1 h
  obtain ⟨operator, hoperator, h⟩ := Option.bind_eq_some_iff.1 h
  obtain ⟨behind, hbehind, h⟩ := Option.bind_eq_some_iff.1 h
  obtain ⟨value, hvalue, h⟩ := Option.bind_eq_some_iff.1 h
  obtain ⟨first, hfirst, hscan, hcount⟩ :=
    scan_afterSum? takesName_afterAddressTerm? haddress (.inl hoperator)
  obtain ⟨token, hscan', hcount'⟩ := scan_afterOperator? hbehind hvalue
  obtain ⟨last, hlast, hscan'', hcount''⟩ := scan_afterSum? takesName_afterValueTerm? h hnext
  refine ⟨first ++ [token] ++ last, ⟨first, [token], last, rfl, hfirst, ?_, hlast⟩, ?_, ?_⟩
  · exact ⟨token, [], rfl, by simp⟩
  · rw [hscan, hscan', hscan'']
    simp
  · rw [hcount, hcount', hcount'']

/-- What the grammar takes for clauses is scanned as clauses. -/
theorem clausal_of_isClauses {fuel : Nat} (h : isClauses fuel s = true) :
    Clausal (Bytes.count conjunction s) (Token.scan s) := by
  induction fuel generalizing s with
  | zero => cases h
  | succ fuel ih =>
    rw [isClauses] at h
    cases hclause : afterClause? s with
    | none =>
      rw [hclause] at h
      cases h
    | some tail =>
      rw [hclause] at h
      rcases Bool.or_eq_true_iff.1 h with hend | hmore
      · obtain ⟨tokens, htriple, hscan, hcount⟩ := scan_afterClause? hclause (.inr ⟨hend, rfl⟩)
        have hnothing : Token.scan [] = [] := rfl
        rw [hscan, hcount, hnothing, List.append_nil]
        exact .last htriple
      · cases hspace : tail.afterSpace? with
        | none =>
          rw [hspace] at hmore
          cases hmore
        | some behind =>
          rw [hspace, Option.bind_some] at hmore
          cases hjoined : Bytes.after? (ascii "&& ") behind with
          | none =>
            rw [hjoined] at hmore
            cases hmore
          | some next =>
            rw [hjoined] at hmore
            obtain ⟨tokens, htriple, hscan, hcount⟩ := scan_afterClause? hclause (.inl hspace)
            obtain rfl : behind = conjunction ++ Byte.space :: next := by
              rw [Bytes.eq_append_of_after? hjoined]
              rfl
            have hconjunction : Token.scan (conjunction ++ Byte.space :: next) =
                conjunction :: Token.scan next := by
              rw [Token.scan_run (by decide) (List.all_eq_true.1 (by decide)) (by decide)
                (by rintro c ⟨⟩; rfl), Token.scan_space]
            have hone : Bytes.count conjunction (conjunction ++ Byte.space :: next) =
                Bytes.count conjunction next + 1 := rfl
            rw [hscan, hcount, hconjunction, hone]
            exact .more htriple (ih hmore)

/-- Whether the form of an If line starts with the line. -/
def fits (line : Bytes) : Bool := match Bytes.afterFolded? (ascii "if ") line with
  | some clauses => isClauses clauses.length clauses
  | none => false

/-- A line that starts with the form of an If has clauses for arguments, one more than it has
`&&`. -/
theorem clausal_ofLine {line : Bytes} (h : fits line = true) :
    Clausal (Bytes.count conjunction line) (Token.ofLine line).2 := by
  unfold fits at h
  cases hafter : Bytes.afterFolded? (ascii "if ") line with
  | none =>
    rw [hafter] at h
    cases h
  | some clauses =>
    rw [hafter] at h
    have hclausal := clausal_of_isClauses h
    obtain ⟨front, rfl, hfront⟩ := Bytes.afterFolded?_eq_some hafter
    obtain ⟨name, blank, rfl, hname, hblank⟩ := List.map_eq_append_iff.1
      (show front.map Byte.toLower = ascii "if" ++ [Byte.space] from hfront)
    obtain ⟨b, rfl⟩ : ∃ b, blank = [b] :=
      List.length_eq_one_iff.1 (by rw [← List.length_map, hblank]; rfl)
    obtain rfl : b = Byte.space := by
      have hlower : Byte.toLower b = Byte.space := List.head_eq_of_cons_eq hblank
      by_cases hupper : Byte.isUpper b = true
      · rw [Byte.toLower, if_pos hupper] at hlower
        have hzero : b = 0 := by
          rw [← UInt8.add_sub_cancel b 0x20, hlower]
          rfl
        subst hzero
        cases hupper
      · rwa [Byte.toLower, if_neg hupper] at hlower
    have hbytes := isName_of_fold hname (by decide)
    have hne : name ≠ [] := by
      rintro rfl
      cases hname
    have hstop : ∀ c ∈ (Byte.space :: clauses).head?, Token.isWordByte c = false := by
      rintro c ⟨⟩
      rfl
    obtain ⟨hscan, hcount⟩ := scan_name hne hbytes hstop
    have hsplit : name ++ [Byte.space] ++ clauses = name ++ Byte.space :: clauses := by simp
    have hspace :
        Bytes.count conjunction (Byte.space :: clauses) = Bytes.count conjunction clauses :=
      count_cons (by decide) clauses
    rw [Token.ofLine, hsplit, hscan, Token.scan_space, hcount, hspace]
    exact hclausal

end Condition.Grammar

end CheatScript
