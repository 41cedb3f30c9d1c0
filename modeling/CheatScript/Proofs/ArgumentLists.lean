import CheatScript.Call
import CheatScript.Proofs.Outcome
import CheatScript.Proofs.TextReading
import CheatScript.Proofs.TrimmedText
import Mathlib.Tactic.Common

/-!
# Proofs: argument lists of calls

The scanner of a line and the reader of an argument list both look for the end of a string literal.
The scanner takes a backslash that is itself escaped for a plain byte. The reader of a list only
asks whether a backslash stands before the quote, so it does not see the end of a literal whose text
ends with an escaped backslash, and takes the commas behind it for text. A list of arguments is read
back exactly when no argument but the last is such a literal.
-/

namespace CheatScript

/-! ## ASCII text as characters -/

/-- The character of an ASCII byte. -/
def Byte.char (b : UInt8) : Char := Char.ofNat b.toNat

theorem Byte.toNat_char (b : UInt8) : (Byte.char b).val.toNat = b.toNat := by
  have hlt := b.toNat_lt
  have hvalid : b.toNat.isValidChar := .inl (by omega)
  rw [Byte.char, Char.ofNat, dif_pos hvalid]
  rfl

theorem Byte.char_inj {a b : UInt8} : Byte.char a = Byte.char b ↔ a = b := by
  constructor
  · intro h
    rw [← UInt8.toNat_inj, ← toNat_char, ← toNat_char, h]
  · rintro rfl
    rfl

theorem Utf8.decode_ascii {s : Bytes} (h : Bytes.isAscii s = true) :
    decode s = s.map Byte.char := by
  induction s with
  | nil => rfl
  | cons b s ih =>
    obtain ⟨hb, hs⟩ : b < 0x80 ∧ Bytes.isAscii s = true := by simpa [Bytes.isAscii] using h
    have hlead : lead? b s = some (Byte.char b, 0) := if_pos hb
    rw [decode, units, unitsFrom, hlead, List.map_cons, List.map_cons, ← ih hs]
    rfl

theorem Utf8.encode_ascii {s : Bytes} (h : Bytes.isAscii s = true) :
    encode (s.map Byte.char) = s := by
  induction s with
  | nil => rfl
  | cons b s ih =>
    obtain ⟨hb, hs⟩ : b < 0x80 ∧ Bytes.isAscii s = true := by simpa [Bytes.isAscii] using h
    have hle : b.toNat ≤ 127 := Nat.le_of_lt_succ (UInt8.lt_iff_toNat_lt.1 hb)
    have hchar : String.utf8EncodeChar (Byte.char b) = [b] := by
      rw [String.utf8EncodeChar]
      simp only [Byte.toNat_char, if_pos hle, UInt8.ofNat_toNat]
    rw [List.map_cons, encode, List.flatMap_cons, hchar, List.singleton_append]
    exact congrArg (b :: ·) (ih hs)

theorem Utf8.encode_append (cs ds : List Char) : encode (cs ++ ds) = encode cs ++ encode ds :=
  List.flatMap_append

namespace Token

/-! ## Literals of the scanner -/

/-- Whether a text is a string literal with its closing quote: the scanner takes all of it for a
quoted string, whatever follows. -/
def IsLiteral (s : Bytes) : Prop := ∀ rest, quoted? (s ++ rest) = some s.length

theorem quoted?_quote (s : Bytes) :
    quoted? (Byte.quote :: s) = some ((Source.blockKind.reach .literal s).getD s.length + 1) := by
  rw [quoted?, if_pos rfl, Quote.head?_quoteEnds,
    Source.CommentKind.literalRest_eq Source.blockKind]

theorem isLiteral_iff {s : Bytes} : IsLiteral s ↔
    s.head? = some Byte.quote ∧ Source.blockKind.reach .literal s.tail = some s.tail.length := by
  cases s with
  | nil =>
    constructor
    · intro h
      cases h []
    · rintro ⟨hhead, -⟩
      cases hhead
  | cons c s =>
    rw [List.head?_cons, List.tail_cons, Option.some.injEq]
    constructor
    · intro h
      obtain rfl : c = Byte.quote := by
        by_contra hc
        have hnone : quoted? (c :: s ++ []) = none := if_neg hc
        cases hnone.symm.trans (h [])
      have hreach : ∀ x, (Source.blockKind.reach .literal (s ++ x)).getD (s ++ x).length =
          s.length := by
        intro x
        have hx := h x
        rw [List.cons_append, quoted?_quote] at hx
        exact Nat.succ.inj (Option.some.inj hx)
      refine ⟨rfl, ?_⟩
      cases hs : Source.blockKind.reach .literal s with
      | some n =>
        have hn := hreach []
        rw [List.append_nil, hs] at hn
        exact congrArg some hn
      | none =>
        -- An open literal takes in the next byte too.
        have hmore := hreach [Byte.newline]
        rw [Source.CommentKind.reach_append hs, Source.CommentKind.reach] at hmore
        split at hmore <;> simp [Source.CommentKind.reach] at hmore
    · rintro ⟨rfl, hs⟩ x
      obtain ⟨body, rest, rfl, hlength, -, hx⟩ := Source.CommentKind.exists_of_reach hs
      obtain rfl : rest = [] := by
        rw [List.length_append] at hlength
        exact List.length_eq_zero_iff.1 (by omega)
      rw [List.append_nil, List.cons_append, quoted?_quote, hx x]
      simp

instance : DecidablePred IsLiteral := fun _ => decidable_of_iff _ isLiteral_iff.symm

end Token

namespace Call

/-! ## One byte of a list -/

/-- What the reader of an argument list knows of the bytes before: whether a literal is open, and
whether a backslash in it came last. -/
structure ListState where
  inString : Bool
  escaped : Bool

/-- The arguments in the rest of a list. -/
def splitFrom (st : ListState) (rest : List Char) : Except Fault (List (List Char)) :=
  splitList st.inString st.escaped rest

/-- Reads a byte that belongs to an argument; none for a comma between arguments and for a
parenthesis that is refused. -/
def ListState.advance (st : ListState) (b : UInt8) : Option ListState :=
  if b = Byte.comma && !st.inString then none
  else if b = Byte.backslash && st.inString then some { st with escaped := true }
  else if b = Byte.quote && !st.escaped then some { st with inString := !st.inString }
  else if !st.inString && (b = Byte.opening || b = Byte.closing) then none
  else some { st with escaped := false }

theorem splitList_ne_nil (inString escaped : Bool) (list : List Char) :
    splitList inString escaped list ≠ .ok [] := by
  cases list with
  | nil => rintro ⟨⟩
  | cons ch rest =>
    have hbind {more : Except Fault (List (List Char))}
        {next : List (List Char) → Except Fault (List (List Char))}
        (hnext : ∀ args, next args ≠ .ok []) : (more >>= next) ≠ .ok [] := by
      intro h
      obtain ⟨args, -, hargs⟩ := Outcome.bind_eq_ok.1 h
      exact hnext args hargs
    unfold splitList
    simp only
    split
    · exact hbind fun args => by rintro ⟨⟩
    · split
      · exact hbind fun args => by cases args <;> rintro ⟨⟩
      · split
        · exact hbind fun args => by cases args <;> rintro ⟨⟩
        · split
          · rintro ⟨⟩
          · exact hbind fun args => by cases args <;> rintro ⟨⟩

/-- A byte that belongs to an argument goes to the front of the first one. -/
theorem splitFrom_cons {st st' : ListState} {b : UInt8} (h : st.advance b = some st')
    (rest : List Char) : splitFrom st (Byte.char b :: rest) =
      (splitFrom st' rest).map (List.modifyHead (Byte.char b :: ·)) := by
  have hcomma : Byte.char b = ',' ↔ b = Byte.comma := Byte.char_inj (b := Byte.comma)
  have hbackslash : Byte.char b = '\\' ↔ b = Byte.backslash := Byte.char_inj (b := Byte.backslash)
  have hquote : Byte.char b = '"' ↔ b = Byte.quote := Byte.char_inj (b := Byte.quote)
  have hopening : Byte.char b = '(' ↔ b = Byte.opening := Byte.char_inj (b := Byte.opening)
  have hclosing : Byte.char b = ')' ↔ b = Byte.closing := Byte.char_inj (b := Byte.closing)
  have hkeep : ∀ {more : Except Fault (List (List Char))}
      {next : List (List Char) → Except Fault (List (List Char))}, more ≠ .ok [] →
      (∀ arg args, next (arg :: args) = .ok ((Byte.char b :: arg) :: args)) →
      (more >>= next) = more.map (List.modifyHead (Byte.char b :: ·)) := by
    intro more next hmore hnext
    cases more with
    | error kind => rfl
    | ok args =>
      cases args with
      | nil => exact absurd rfl hmore
      | cons arg args => exact hnext arg args
  rw [ListState.advance] at h
  rw [splitFrom, splitList]
  simp only [hcomma, hbackslash, hquote, hopening, hclosing]
  split at h
  · cases h
  · next hnot =>
    rw [if_neg hnot]
    split at h
    · next hescape =>
      obtain rfl := Option.some.inj h
      rw [if_pos hescape]
      exact hkeep (splitList_ne_nil _ _ _) fun arg args => rfl
    · next hescape =>
      rw [if_neg hescape]
      split at h
      · next hend =>
        obtain rfl := Option.some.inj h
        rw [if_pos hend]
        exact hkeep (splitList_ne_nil _ _ _) fun arg args => rfl
      · next hend =>
        rw [if_neg hend]
        split at h
        · cases h
        · next hparenthesis =>
          obtain rfl := Option.some.inj h
          rw [if_neg hparenthesis]
          exact hkeep (splitList_ne_nil _ _ _) fun arg args => rfl

theorem splitFrom_comma {st : ListState} (h : st.inString = false) (rest : List Char) :
    splitFrom st (Byte.char Byte.comma :: rest) = (splitFrom st rest).map ([] :: ·) := by
  have hcomma : (Byte.char Byte.comma = ',' && !st.inString) = true := by
    rw [h]
    rfl
  rw [splitFrom, splitList, if_pos hcomma]
  rfl

/-! ## One argument -/

/-- The state behind bytes that all belong to an argument. -/
def ListState.run (st : ListState) (s : Bytes) : Option ListState := s.foldlM ListState.advance st

/-- The state between arguments. -/
def ListState.between : ListState := ⟨false, false⟩

theorem ListState.run_cons (st : ListState) (b : UInt8) (s : Bytes) :
    st.run (b :: s) = (st.advance b).bind (·.run s) := rfl

theorem ListState.run_append {st st' : ListState} {s : Bytes} (h : st.run s = some st')
    (t : Bytes) : st.run (s ++ t) = st'.run t := by
  have hfirst : s.foldlM ListState.advance st = some st' := h
  rw [run, List.foldlM_append, hfirst]
  rfl

/-- Bytes that all belong to an argument go to the front of the first one. -/
theorem splitFrom_append {st st' : ListState} {s : Bytes} (h : st.run s = some st')
    (rest : List Char) : splitFrom st (s.map Byte.char ++ rest) =
      (splitFrom st' rest).map (List.modifyHead (s.map Byte.char ++ ·)) := by
  induction s generalizing st with
  | nil =>
    obtain rfl := Option.some.inj h
    rcases hrest : splitFrom st rest with kind | (_ | ⟨arg, args⟩) <;>
      simpa [Except.map] using hrest
  | cons b s ih =>
    rw [ListState.run_cons] at h
    obtain ⟨st₁, hb, hs⟩ := Option.bind_eq_some_iff.1 h
    rw [List.map_cons, List.cons_append, splitFrom_cons hb, ih hs]
    rcases splitFrom st' rest with kind | (_ | ⟨arg, args⟩) <;> rfl

/-- The last argument is the rest of the list, whatever state it ends in. -/
theorem splitFrom_last {st st' : ListState} {s : Bytes} (h : st.run s = some st') :
    splitFrom st (s.map Byte.char) = .ok [s.map Byte.char] := by
  have happend := splitFrom_append h []
  rw [List.append_nil] at happend
  rw [happend]
  simp [splitFrom, splitList, Except.map]

theorem splitFrom_argument {s : Bytes} (h : ListState.between.run s = some .between)
    (rest : List Char) : splitFrom .between (s.map Byte.char ++ Byte.char Byte.comma :: rest) =
      (splitFrom .between rest).map (s.map Byte.char :: ·) := by
  rw [splitFrom_append h, splitFrom_comma rfl]
  cases splitFrom .between rest with
  | error kind => rfl
  | ok args => simp [Except.map]

/-- Whether a byte may stand in an argument outside a literal. -/
def isBare (b : UInt8) : Bool :=
  b != Byte.quote && b != Byte.comma && b != Byte.opening && b != Byte.closing

theorem run_bare {s : Bytes} (h : s.all isBare = true) :
    ListState.between.run s = some ListState.between := by
  induction s with
  | nil => rfl
  | cons b s ih =>
    obtain ⟨hb, hs⟩ := Bool.and_eq_true_iff.1 (List.all_cons ▸ h)
    have hstep : ListState.between.advance b = some .between := by
      grind [isBare, ListState.advance, ListState.between]
    rw [ListState.run_cons, hstep, Option.bind_some, ih hs]

theorem advance_literal {last c : UInt8} (h : c = Byte.quote → last = Byte.backslash) :
    ListState.advance ⟨true, last == Byte.backslash⟩ c = some ⟨true, c == Byte.backslash⟩ := by
  grind [ListState.advance]

/-- Inside a literal the reader only keeps whether the last byte was a backslash. A quote before the
end stands behind a backslash that escapes it, but the quote at the end may stand behind one that is
itself escaped. -/
theorem run_literal {body : Bytes} {r : Source.Reading} (last : UInt8)
    (h : Source.blockKind.reach r body = some body.length) (hr : r.place = .literal)
    (hlast : r = .escape → last = Byte.backslash) :
    body.getLast? = some Byte.quote ∧ ListState.run ⟨true, last == Byte.backslash⟩ body =
      some ⟨(last :: body).dropLast.getLast? == some Byte.backslash, false⟩ := by
  induction body generalizing r last with
  | nil => cases h
  | cons c s ih =>
    rw [Source.CommentKind.reach] at h
    by_cases hcode : Source.blockKind.step r c = .code
    · -- The literal ends here, so nothing follows.
      rw [if_pos hcode] at h
      obtain rfl : s = [] := List.length_eq_zero_iff.1 (Nat.succ.inj (Option.some.inj h)).symm
      obtain ⟨rfl, rfl⟩ := Source.CommentKind.eq_quote_of_step hr hcode
      have hend : ListState.advance ⟨true, last == Byte.backslash⟩ Byte.quote =
          some ⟨last == Byte.backslash, false⟩ := by
        cases hbackslash : last == Byte.backslash <;> rfl
      rw [ListState.run_cons, hend]
      exact ⟨rfl, rfl⟩
    · rw [if_neg hcode] at h
      obtain ⟨n, hn, hlength⟩ := Option.map_eq_some_iff.1 h
      obtain rfl := Nat.succ.inj hlength
      have hquote : c = Byte.quote → last = Byte.backslash := by
        rintro rfl
        cases r with
        | literal => exact absurd rfl hcode
        | escape => exact hlast rfl
        | _ => cases hr
      have hescape : Source.blockKind.step r c = .escape → c = Byte.backslash := by
        intro hstep
        cases r with
        | literal => grind [Source.CommentKind.step]
        | escape => cases hstep
        | _ => cases hr
      obtain ⟨hend, hrun⟩ :=
        ih c hn ((Source.CommentKind.step_of_literal r c hr).resolve_left hcode) hescape
      obtain ⟨d, s, rfl⟩ := List.exists_cons_of_ne_nil (l := s) (by rintro rfl; cases hend)
      rw [ListState.run_cons, advance_literal hquote, Option.bind_some, hrun]
      exact ⟨hend, rfl⟩

/-! ## The whole list -/

/-- Whether a text may stand in an argument list: an ASCII text that is a string literal, or one
without white space at its ends that has no quote, comma or parenthesis. -/
def IsArgument (s : Bytes) : Prop :=
  Bytes.isAscii s = true ∧ (Space.trim s = s ∧ s.all isBare = true ∨ Token.IsLiteral s)

instance : DecidablePred IsArgument := fun _ => inferInstanceAs (Decidable (_ ∧ _))

/-- Whether the last byte before the closing quote is a backslash. -/
def endsInBackslash (s : Bytes) : Bool := s.dropLast.getLast? == some Byte.backslash

/-- The token of an argument list. -/
def listToken (args : List Bytes) : Bytes :=
  Byte.opening :: (Bytes.join [Byte.comma] args ++ [Byte.closing])

variable {s : Bytes} {args : List Bytes}

/-- A literal starts and ends with a quote, and behind it the reader only asks for a backslash. -/
theorem run_of_isLiteral (h : Token.IsLiteral s) :
    s.head? = some Byte.quote ∧ s.getLast? = some Byte.quote ∧
      ListState.between.run s = some ⟨endsInBackslash s, false⟩ := by
  obtain ⟨hhead, hreach⟩ := Token.isLiteral_iff.1 h
  obtain ⟨body, rfl⟩ := List.head?_eq_some_iff.1 hhead
  obtain ⟨hlast, hrun⟩ := run_literal Byte.quote hreach rfl nofun
  refine ⟨rfl, ?_, hrun⟩
  have hbody : body.getLast? = some Byte.quote := hlast
  rw [List.getLast?_cons, hbody]
  rfl

theorem solidEnds_of_isLiteral (h : Token.IsLiteral s) : Space.SolidEnds s := by
  obtain ⟨hhead, hlast, -⟩ := run_of_isLiteral h
  refine ⟨?_, ?_, ?_⟩
  · rintro rfl
    cases hhead
  · rw [hhead]
    rintro _ ⟨⟩
    rfl
  · rw [hlast]
    rintro _ ⟨⟩
    rfl

theorem not_isLiteral_of_bare (h : s.all isBare = true) : ¬ Token.IsLiteral s := by
  intro hliteral
  have hquote := List.mem_of_mem_head? (run_of_isLiteral hliteral).1
  cases List.all_eq_true.1 h _ hquote

/-- No argument is changed by trimming, and behind it the reader is outside every literal unless it
is a literal that ends with an escaped backslash. -/
theorem run_of_isArgument (h : IsArgument s) : Space.trim s = s ∧
    ∃ inString, ListState.between.run s = some ⟨inString, false⟩ ∧
      (inString = false ↔ (Token.IsLiteral s → endsInBackslash s = false)) := by
  rcases h.2 with ⟨htrim, hbare⟩ | hliteral
  · exact ⟨htrim, false, run_bare hbare, by simp [not_isLiteral_of_bare hbare]⟩
  · exact ⟨(solidEnds_of_isLiteral hliteral).trim_eq, endsInBackslash s,
      (run_of_isLiteral hliteral).2.2, by simp [hliteral]⟩

/-- Behind a literal that the reader takes to be open, the comma is read as text. -/
theorem splitFrom_open (hascii : Bytes.isAscii s = true) (hs : Token.IsLiteral s)
    (hrun : ListState.between.run s = some ⟨true, false⟩) (rest : List Char) :
    (splitFrom .between (s.map Byte.char ++ Byte.char Byte.comma :: rest)).map
        (List.map fun arg => Space.trim (Utf8.encode arg)) ≠ .ok (s :: args) := by
  have hcomma : ListState.between.run (s ++ [Byte.comma]) = some ⟨true, false⟩ := by
    rw [ListState.run_append hrun]
    rfl
  have hassoc : s.map Byte.char ++ Byte.char Byte.comma :: rest =
      (s ++ [Byte.comma]).map Byte.char ++ rest := by simp
  rw [hassoc, splitFrom_append hcomma]
  intro h
  cases hmore : splitFrom ⟨true, false⟩ rest with
  | error kind =>
    rw [hmore] at h
    cases h
  | ok parts =>
    rw [hmore] at h
    cases parts with
    | nil => exact splitList_ne_nil _ _ _ hmore
    | cons part parts =>
      have hfirst : Space.trim (Utf8.encode ((s ++ [Byte.comma]).map Byte.char ++ part)) = s :=
        (List.cons.inj (Except.ok.inj h)).1
      have hcommas : Bytes.isAscii (s ++ [Byte.comma]) = true := by
        rw [Bytes.isAscii, List.all_append]
        exact Bool.and_eq_true_iff.2 ⟨hascii, rfl⟩
      have htrim := (solidEnds_of_isLiteral hs).trim_append [] (Byte.comma :: Utf8.encode part)
      have hend : Space.trimEnd (Byte.comma :: Utf8.encode part) = Byte.comma :: Space.trimEnd _ :=
        Space.trimEnd_append rfl [] _
      rw [Utf8.encode_append, Utf8.encode_ascii hcommas, List.append_assoc,
        List.singleton_append] at hfirst
      rw [List.nil_append, hfirst, hend] at htrim
      have hlonger : s = s ++ Byte.comma :: Space.trimEnd (Utf8.encode part) := htrim
      simp at hlonger

theorem splitFrom_join (hne : args ≠ []) (hargs : ∀ arg ∈ args, IsArgument arg) :
    (splitFrom .between ((Bytes.join [Byte.comma] args).map Byte.char)).map
        (List.map fun arg => Space.trim (Utf8.encode arg)) = .ok args ↔
      ∀ arg ∈ args.dropLast, Token.IsLiteral arg → endsInBackslash arg = false := by
  induction args with
  | nil => exact absurd rfl hne
  | cons arg rest ih =>
    obtain ⟨harg, hrest⟩ := List.forall_mem_cons.1 hargs
    obtain ⟨htrim, inString, hrun, hstring⟩ := run_of_isArgument harg
    have hread : Space.trim (Utf8.encode (arg.map Byte.char)) = arg := by
      rw [Utf8.encode_ascii harg.1, htrim]
    cases rest with
    | nil =>
      rw [Bytes.join, splitFrom_last hrun]
      simp [Except.map, hread]
    | cons next rest =>
      have hjoin : (Bytes.join [Byte.comma] (arg :: next :: rest)).map Byte.char =
          arg.map Byte.char ++
            Byte.char Byte.comma :: (Bytes.join [Byte.comma] (next :: rest)).map Byte.char := by
        simp [Bytes.join]
      rw [hjoin, List.dropLast_cons_cons,
        List.forall_mem_cons, ← ih (List.cons_ne_nil _ _) hrest, ← hstring]
      cases inString with
      | false =>
        rw [splitFrom_argument hrun]
        cases splitFrom .between ((Bytes.join [Byte.comma] (next :: rest)).map Byte.char) with
        | error kind => simp [Except.map]
        | ok parts => simp [Except.map, hread]
      | true =>
        have hliteral : Token.IsLiteral arg := by
          by_contra hnot
          cases hstring.2 fun h => absurd h hnot
        refine iff_of_false (splitFrom_open harg.1 hliteral hrun _) fun h => ?_
        cases h.1

theorem head?_of_isArgument (h : IsArgument s) :
    s.head? ≠ some Byte.opening ∧ s.getLast? ≠ some Byte.closing := by
  rcases h.2 with ⟨-, hbare⟩ | hliteral
  · have hbyte := List.all_eq_true.1 hbare
    constructor
    · intro hhead
      cases hbyte _ (List.mem_of_mem_head? hhead)
    · intro hlast
      cases hbyte _ (List.mem_of_mem_getLast? hlast)
  · obtain ⟨hhead, hlast, -⟩ := run_of_isLiteral hliteral
    rw [hhead, hlast]
    decide

theorem insideParentheses_eq (hhead : s.head? ≠ some Byte.opening)
    (hlast : s.getLast? ≠ some Byte.closing) :
    insideParentheses (Byte.opening :: (s ++ [Byte.closing])) = s := by
  have hfront : (s ++ [Byte.closing]).dropWhile (· == Byte.opening) = s ++ [Byte.closing] := by
    cases s with
    | nil => rfl
    | cons c s =>
      have hc : c ≠ Byte.opening := fun hc => hhead (congrArg some hc)
      rw [List.cons_append, List.dropWhile_cons_of_neg (by simpa using hc)]
  have hback : s.reverse.dropWhile (· == Byte.closing) = s.reverse := by
    rw [← List.head?_reverse] at hlast
    cases hs : s.reverse with
    | nil => rfl
    | cons c t =>
      rw [hs] at hlast
      have hc : c ≠ Byte.closing := fun hc => hlast (congrArg some hc)
      rw [List.dropWhile_cons_of_neg (by simpa using hc)]
  rw [insideParentheses, List.dropWhile_cons_of_pos rfl, hfront, Bytes.dropEndWhile,
    List.reverse_append,
    List.reverse_singleton, List.singleton_append, List.dropWhile_cons_of_pos rfl, hback,
    List.reverse_reverse]

theorem insideParentheses_listToken (hargs : ∀ arg ∈ args, IsArgument arg) :
    insideParentheses (listToken args) = Bytes.join [Byte.comma] args := by
  apply insideParentheses_eq
  · cases args with
    | nil =>
      intro h
      cases h
    | cons arg rest =>
      have harg := (head?_of_isArgument (hargs arg List.mem_cons_self)).1
      rw [Bytes.join_cons]
      cases arg with
      | nil => cases rest <;> rintro ⟨⟩
      | cons c arg => exact harg
  · rcases List.eq_nil_or_concat args with rfl | ⟨front, arg, rfl⟩
    · intro h
      cases h
    · have harg := (head?_of_isArgument (hargs arg (by simp))).2
      cases front with
      | nil => exact harg
      | cons first front =>
        rw [List.concat_eq_append, Bytes.join_append _ (List.cons_ne_nil _ _),
          List.flatMap_singleton, List.getLast?_append, List.getLast?_cons, Option.some_or]
        cases hlast : arg.getLast? with
        | none => rintro ⟨⟩
        | some c => rwa [hlast] at harg

theorem isAscii_join (hargs : ∀ arg ∈ args, Bytes.isAscii arg = true) :
    Bytes.isAscii (Bytes.join [Byte.comma] args) = true := by
  cases args with
  | nil => rfl
  | cons arg rest =>
    obtain ⟨harg, hrest⟩ := List.forall_mem_cons.1 hargs
    have hcommas : Bytes.isAscii (rest.flatMap (Byte.comma :: ·)) = true := by
      refine List.all_eq_true.2 fun b hb => ?_
      obtain ⟨next, hnext, hmem⟩ := List.mem_flatMap.1 hb
      rcases List.mem_cons.1 hmem with rfl | hmem
      · rfl
      · exact List.all_eq_true.1 (hrest next hnext) b hmem
    rw [Bytes.join_cons, Bytes.isAscii, List.all_append]
    exact Bool.and_eq_true_iff.2 ⟨harg, hcommas⟩

/-- A list of arguments is read back exactly when no argument but the last is a literal that ends
with an escaped backslash. -/
theorem arguments_eq_iff {c : Command} {name : Bytes} {more : List Bytes} (hne : args ≠ [])
    (hargs : ∀ arg ∈ args, IsArgument arg) (hc : c.args = name :: listToken args :: more) :
    arguments c = .ok args ↔
      ∀ arg ∈ args.dropLast, Token.IsLiteral arg → endsInBackslash arg = false := by
  have hread : arguments c = (splitFrom .between ((Bytes.join [Byte.comma] args).map Byte.char)).map
      (List.map fun arg => Space.trim (Utf8.encode arg)) := by
    have hascii := isAscii_join fun arg harg => (hargs arg harg).1
    rw [← Utf8.decode_ascii hascii, ← insideParentheses_listToken hargs, arguments, hc]
    rfl
  rw [hread]
  exact splitFrom_join hne hargs

/-- Escaped quotes, commas and parentheses in a literal, and a last literal that ends with an
escaped backslash. -/
def escapedArguments : List Bytes :=
  [ascii "\"say \\\"(x,y)\\\"\"", ascii "base+4", ascii "\"\\\\\""]

def escapedCall : Command := .ofLine (ascii "Call F(\"say \\\"(x,y)\\\"\",base+4,\"\\\\\")")

theorem arguments_eq_escaped : escapedArguments ≠ [] ∧ (∀ arg ∈ escapedArguments, IsArgument arg) ∧
    escapedCall.args = [ascii "F", listToken escapedArguments] ∧
    arguments escapedCall = .ok escapedArguments := by
  have hargs : ∀ arg ∈ escapedArguments, IsArgument arg := by decide
  have hc : escapedCall.args = [ascii "F", listToken escapedArguments] := by decide
  exact ⟨by decide, hargs, hc, (arguments_eq_iff (by decide) hargs hc).2 (by decide)⟩

/-- The comma behind a first literal that ends with an escaped backslash does not separate
arguments. -/
theorem arguments_keep_comma :
    (∀ arg ∈ [ascii "\"a\\\\\"", ascii "0x20"], IsArgument arg) ∧
    (Command.ofLine (ascii "Call F(\"a\\\\\",0x20)")).args =
      [ascii "F", listToken [ascii "\"a\\\\\"", ascii "0x20"]] ∧
    arguments (.ofLine (ascii "Call F(\"a\\\\\",0x20)")) = .ok [ascii "\"a\\\\\",0x20"] := by
  decide

end Call

end CheatScript
