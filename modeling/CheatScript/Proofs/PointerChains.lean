import CheatScript.Proofs.ArgumentSums
import CheatScript.Proofs.CodeReading

/-!
# Proofs: pointer chains are written whole

A write through pointers has a base and offsets, each a sum of address literals. The device reads
the lines of such a write as the base, the width, the value, the number of offsets and the offsets
in order. Zero offsets count like others; only a last line with one offset is filled up with zero.
-/

namespace CheatScript

open Outcome

/-! ## Chains of sums -/

namespace Argument

variable {base : List Bytes} {offsets : List (List Bytes)} {rest : List Bytes}

/-- The tokens of an offset: a sum behind a comma. -/
def offsetTokens (terms : List Bytes) : List Bytes := markFirst [Byte.comma] (sumTokens terms)

/-- The tokens of a chain. -/
def chainTokens (base : List Bytes) (offsets : List (List Bytes)) : List Bytes :=
  sumTokens base ++ offsets.flatMap offsetTokens

/-- Whether tokens go on with one that belongs to no chain. -/
def EndsChain (rest : List Bytes) : Prop :=
  ∃ t ts, rest = t :: ts ∧ hasMark Byte.plus t = false ∧ hasMark Byte.comma t = false

theorem chainFrom_plus {terms : List Bytes} (h : ∀ t ∈ terms, Literal.isAddress t = true)
    (acc : Word) (rest : List Bytes) : chainFrom acc (terms.map (Byte.plus :: ·) ++ rest) =
      chainFrom (acc + addressSum terms) rest := by
  induction terms generalizing acc with
  | nil => simp [addressSum]
  | cons t terms ih =>
    obtain ⟨ht, hterms⟩ := List.forall_mem_cons.1 h
    have hcomma : hasMark Byte.comma (Byte.plus :: t) = false := rfl
    have hplus : hasMark Byte.plus (Byte.plus :: t) = true := rfl
    rw [List.map_cons, List.cons_append, chainFrom, hcomma, hplus, List.tail_cons,
      addressValue_eq ht, addressSum, ← BitVec.add_assoc]
    exact ih hterms _

/-- A comma ends one element and starts the next. -/
theorem chainFrom_offset {terms : List Bytes} (h : IsAddressSum terms) (acc : Word)
    (rest : List Bytes) : chainFrom acc (offsetTokens terms ++ rest) =
      (chainFrom (addressSum terms) rest).map fun p => (acc :: p.1, p.2) := by
  cases terms with
  | nil => exact absurd rfl h.nonempty
  | cons t terms =>
    obtain ⟨ht, hterms⟩ := List.forall_mem_cons.1 h.literals
    have hcomma : hasMark Byte.comma (Byte.comma :: t) = true := rfl
    have htokens : offsetTokens (t :: terms) ++ rest =
        (Byte.comma :: t) :: (terms.map (Byte.plus :: ·) ++ rest) := rfl
    rw [htokens, chainFrom, hcomma, List.tail_cons, addressValue_eq ht, addressSum]
    simp only [if_true, bind, Except.bind, chainFrom_plus hterms]
    cases chainFrom (addressOf t + addressSum terms) rest <;> rfl

theorem chainFrom_offsets (h : ∀ terms ∈ offsets, IsAddressSum terms) (hrest : EndsChain rest)
    (acc : Word) : chainFrom acc (offsets.flatMap offsetTokens ++ rest) =
      .ok (acc :: offsets.map addressSum, rest) := by
  induction offsets generalizing acc with
  | nil =>
    obtain ⟨t, ts, rfl, hplus, hcomma⟩ := hrest
    simp [chainFrom, hplus, hcomma]
  | cons terms offsets ih =>
    obtain ⟨hterms, hoffsets⟩ := List.forall_mem_cons.1 h
    rw [List.flatMap_cons, List.append_assoc, chainFrom_offset hterms, ih hoffsets]
    rfl

/-- A chain before a value is read as the sums of its elements. -/
theorem chain_chainTokens (hbase : IsAddressSum base)
    (hoffsets : ∀ terms ∈ offsets, IsAddressSum terms)
    (hrest : EndsChain rest) : chain (chainTokens base offsets ++ rest) =
      .ok (addressSum base :: offsets.map addressSum, rest) := by
  cases base with
  | nil => exact absurd rfl hbase.nonempty
  | cons t terms =>
    obtain ⟨ht, hterms⟩ := List.forall_mem_cons.1 hbase.literals
    have hread : chainFrom (addressOf t)
        (terms.map (Byte.plus :: ·) ++ (offsets.flatMap offsetTokens ++ rest)) =
          .ok (addressSum (t :: terms) :: offsets.map addressSum, rest) := by
      rw [chainFrom_plus hterms, chainFrom_offsets hoffsets hrest]
      rfl
    have hsome : rest.isEmpty = false := by
      obtain ⟨t, ts, rfl, -⟩ := hrest
      rfl
    rw [chainTokens, sumTokens, List.cons_append, List.cons_append, List.append_assoc, chain,
      addressValue_eq ht]
    simp [bind, Except.bind, pure, Except.pure, hread, hsome]

end Argument

/-! ## Values -/

namespace Statement

variable {value : PointerValue} {tokens : List Bytes} {v : Word}

/-- A value ends the chain in front of it. -/
theorem endsChain_of_value (h : (pointerValue value).2 tokens = .ok (v, [])) :
    Argument.EndsChain tokens := by
  obtain ⟨t, ts, rfl, hform⟩ : ∃ t ts, tokens = t :: ts ∧ Literal.isFloat t = true := by
    cases tokens with
    | nil => cases value <;> cases h
    | cons t ts =>
      refine ⟨t, ts, rfl, ?_⟩
      cases value with
      | integer width =>
        obtain ⟨w, hw, -⟩ := bind_eq_ok.1 h
        simp [Literal.isFloat, (Argument.of_literal_eq_ok hw).1]
      | float =>
        obtain ⟨w, hw, -⟩ := bind_eq_ok.1 h
        exact (Argument.of_literal_eq_ok hw).1
  have hunmarked {mark : UInt8} (hmark : mark = Byte.plus ∨ mark = Byte.comma) :
      Argument.hasMark mark t = false := by
    by_contra hne
    obtain ⟨s, rfl⟩ := List.head?_eq_some_iff.1 (beq_iff_eq.1 (Bool.eq_true_of_not_eq_false hne))
    rw [Literal.isFloat_marked hmark] at hform
    cases hform
  exact ⟨t, ts, rfl, hunmarked (.inl rfl), hunmarked (.inr rfl)⟩

end Statement

/-! ## Lines of a pointer write -/

/-- A clipped value is the value cut to the bits of the width. -/
theorem Width.clip_eq (width : Width) (v : Word) :
    width.clip v = (v.setWidth (8 * width.size)).setWidth 32 := by
  apply BitVec.eq_of_toNat_eq
  cases width with
  | byte =>
    have hmasked : (v &&& 0xFF#32).toNat = v.toNat % 0x100 := by
      simp only [BitVec.toNat_and, BitVec.toNat_ofNat]
      exact Nat.and_two_pow_sub_one_eq_mod v.toNat 8
    simp only [clip, size, hmasked, BitVec.toNat_setWidth]
    omega
  | half =>
    have hmasked : (v &&& 0xFFFF#32).toNat = v.toNat % 0x10000 := by
      simp only [BitVec.toNat_and, BitVec.toNat_ofNat]
      exact Nat.and_two_pow_sub_one_eq_mod v.toNat 16
    simp only [clip, size, hmasked, BitVec.toNat_setWidth]
    omega
  | word => simp [clip, size]

namespace Device

/-- A write through pointers. -/
structure PointerWrite where
  /-- The address of the first pointer, 28 bits. -/
  base : BitVec 28
  /-- The width of the write. -/
  width : Width
  /-- The value. -/
  value : Word
  /-- The number of offsets. -/
  count : Nat
  /-- The offsets. -/
  offsets : List Word
  /-- The numbers that fill up the last line. -/
  padding : List Word
  deriving DecidableEq, Repr

/-- The pointer write of a text of lines `6aaaaaaa vvvvvvvv`, `000wnnnn iiiiiiii` and lines of two
offsets. -/
def pointerWrite? (s : Bytes) : Option PointerWrite := match lines? s with
  | some (first :: second :: more) =>
    let count := (second.1.extractLsb' 0 16).toNat
    let numbers := second.2 :: more.flatMap fun line => [line.1, line.2]
    if first.1.extractLsb' 28 4 = 6#4 ∧ second.1.extractLsb' 20 12 = 0#12 ∧
        count ≤ numbers.length then
      (width? (second.1.extractLsb' 16 4)).map fun width =>
        ⟨first.1.setWidth 28, width, first.2, count, numbers.take count, numbers.drop count⟩
    else none
  | _ => none

theorem half?_count {code n : Nat} (hcode : code < 16) (hn : n < 0x10000) :
    half? (ascii "000" ++ Hex.digit code :: Hex.padded 4 n) =
      some (0#12 ++ BitVec.ofNat 4 code ++ BitVec.ofNat 16 n) := by
  have hzeros : ascii "000" = Hex.fixed 3 0 := rfl
  have hdigits : Hex.padded 4 n = Hex.fixed 4 n := Hex.padded_eq_fixed (by decide) hn
  rw [hzeros, hdigits, Hex.cons_fixed hcode, Hex.fixed_append, half?_fixed]
  congr 1
  apply BitVec.eq_of_toNat_eq
  rw [BitVec.toNat_append, BitVec.toNat_append, BitVec.toNat_ofNat, BitVec.toNat_ofNat,
    BitVec.toNat_ofNat,
    BitVec.toNat_ofNat, ← Nat.shiftLeft_add_eq_or_of_lt (Nat.mod_lt _ (by decide)),
    ← Nat.shiftLeft_add_eq_or_of_lt (Nat.mod_lt _ (by decide)), Nat.shiftLeft_eq, Nat.shiftLeft_eq]
  omega

/-- The lines of offsets hold them in order, and a zero if their number is odd. -/
theorem spells_offsetLines (offsets : List Word) :
    ∃ words, List.Forall₂ Spells (Code.offsetLines offsets) words ∧
      (words.flatMap fun line => [line.1, line.2]) =
        offsets ++ if offsets.length % 2 = 0 then [] else [0] := by
  fun_induction Code.offsetLines offsets with
  | case1 => exact ⟨[], .nil, rfl⟩
  | case2 a => exact ⟨[(a, 0)], .cons ⟨half?_word a, half?_word 0⟩ .nil, rfl⟩
  | case3 a b rest ih =>
    obtain ⟨words, hspell, hnumbers⟩ := ih
    refine ⟨(a, b) :: words, .cons ⟨half?_word a, half?_word b⟩ hspell, ?_⟩
    have hparity : (a :: b :: rest).length % 2 = rest.length % 2 := Nat.add_mod_right _ 2
    rw [List.flatMap_cons, hnumbers, hparity]
    rfl

/-- A pointer code is read back whole. -/
theorem pointerWrite?_text (width : Width) (base value first : Word) {rest : List Word}
    (h : rest.length < 0xFFFF) :
    pointerWrite? (Fragment.codes [.pointer width base value first rest]).text =
      some ⟨base.setWidth 28, width, (value.setWidth (8 * width.size)).setWidth 32, rest.length + 1,
        first :: rest, if (rest.length + 1) % 2 = 0 then [0] else []⟩ := by
  obtain ⟨words, hspell, hnumbers⟩ := spells_offsetLines rest
  have hcode : width.code < 16 := by cases width <;> decide
  have hlines : List.Forall₂ Spells ([Code.pointer width base value first rest].flatMap Code.lines)
      ((6#4 ++ base.setWidth 28, width.clip value) ::
        (0#12 ++ BitVec.ofNat 4 width.code ++ BitVec.ofNat 16 (rest.length + 1), first) ::
          words) := by
    rw [List.flatMap_cons, List.flatMap_nil, List.append_nil]
    exact .cons ⟨half?_typed (by decide) base, half?_word _⟩
      (.cons ⟨half?_count hcode (by omega), half?_word first⟩ hspell)
  have htype : (6#4 ++ base.setWidth 28 : Word).extractLsb' 28 4 = 6#4 :=
    BitVec.extractLsb'_append_eq_of_le (Nat.le_refl 28)
  have hbase : (6#4 ++ base.setWidth 28 : Word).setWidth 28 = base.setWidth 28 :=
    BitVec.setWidth_append_eq_right
  generalize hsecond :
    (0#12 ++ BitVec.ofNat 4 width.code ++ BitVec.ofNat 16 (rest.length + 1) : Word) =
    second at hlines
  have hzeros : second.extractLsb' 20 12 = 0#12 := by
    rw [← hsecond, BitVec.extractLsb'_append_eq_of_le (by decide),
      BitVec.extractLsb'_append_eq_of_le (by decide)]
    rfl
  have hwidth : second.extractLsb' 16 4 = BitVec.ofNat 4 width.code := by
    rw [← hsecond, BitVec.extractLsb'_append_eq_of_le (by decide),
      BitVec.extractLsb'_append_eq_of_add_le (by decide), BitVec.extractLsb'_eq_self]
  have hcount : (second.extractLsb' 0 16).toNat = rest.length + 1 := by
    rw [← hsecond, BitVec.extractLsb'_append_eq_of_add_le (by decide), BitVec.extractLsb'_eq_self,
      BitVec.toNat_ofNat]
    omega
  unfold pointerWrite?
  rw [lines?_text hlines]
  simp only [htype, hbase, hzeros, hwidth, hcount, hnumbers, width?_code, Option.map_some]
  rw [if_pos ⟨trivial, trivial, by simp⟩, List.take_succ_cons, List.drop_succ_cons, List.take_left,
    List.drop_left, Width.clip_eq]
  congr 2
  split <;> split <;> first | rfl | omega

end Device

namespace Statement

open Argument (IsAddressSum addressSum chainTokens IsIntegerSum integerSum sumTokens)

variable {value : PointerValue} {base tokens : List Bytes} {offsets : List (List Bytes)} {v : Word}

/-- A chain with offsets and a value are read as the code of their sums. -/
theorem pointerCode_chain (hbase : IsAddressSum base)
    (hoffsets : ∀ terms ∈ offsets, IsAddressSum terms)
    (hne : offsets ≠ []) (hvalue : (pointerValue value).2 tokens = .ok (v, [])) :
    ∃ first rest, offsets.map addressSum = first :: rest ∧
      pointerCode value (chainTokens base offsets ++ tokens) =
        .ok (.pointer (pointerValue value).1 (addressSum base) v first rest) := by
  have hmap : offsets.map addressSum ≠ [] := List.map_eq_nil_iff.not.2 hne
  obtain ⟨first, rest, hsums⟩ := List.exists_cons_of_ne_nil hmap
  have hends := endsChain_of_value hvalue
  have hlength : ¬ (chainTokens base offsets ++ tokens).length < 2 := by
    obtain ⟨t, ts, rfl, -⟩ := hends
    have hpos := hbase.length_pos
    rw [chainTokens, List.length_append, List.length_append, List.length_cons]
    omega
  refine ⟨first, rest, hsums, ?_⟩
  rw [pointerCode, if_neg hlength, Argument.chain_chainTokens hbase hoffsets hends, hsums]
  simp [bind, Except.bind, pure, Except.pure, hvalue, last]

/-- A chain of four offsets, two of them zero. -/
def zeroOffsets : Command := Command.ofLine (ascii "WP16 0x20100000 +8,10 +4,0,-0x1,0x0 0x12345 +1")

end Statement

end CheatScript
