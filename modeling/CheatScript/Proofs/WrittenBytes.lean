import CheatScript.Proofs.CodeReading
import CheatScript.Proofs.JoinedTexts
import CheatScript.Statement

/-!
# Proofs: byte lists are written exactly

A device stores the bytes of a value one after the other, the lowest first, at addresses of 28 bits.
The codes that put a byte list in memory cut it into words and at most one half and one byte. The
device reads them as one write for each byte, in order and at consecutive addresses, and as nothing
else.
-/

namespace CheatScript

/-! ## Bytes of values -/

namespace LittleEndian

theorem bytes_word (a b c d : UInt8) : bytes (word a b c d) = [a, b, c, d] := by
  unfold bytes word
  simp (disch := decide) only [BitVec.extractLsb'_append_eq_of_add_le,
    BitVec.extractLsb'_append_eq_of_le]
  simp

end LittleEndian

/-- The bytes of a value past its width are zero. -/
theorem Width.bytes_clip (width : Width) (v : Word) : LittleEndian.bytes (width.clip v) =
    (LittleEndian.bytes v).take width.size ++ List.replicate (4 - width.size) 0 := by
  have hones (x : BitVec 8) : x &&& 0xFF#8 = x := BitVec.and_allOnes
  cases width with
  | word => rfl
  | byte | half =>
    simp [LittleEndian.bytes, clip, size, BitVec.extractLsb'_and, hones, List.replicate]

/-! ## Writes of a device -/

namespace Device

/-- The writes of bytes at consecutive addresses. Addresses have 28 bits. -/
def byteWrites (address : BitVec 28) (bytes : Bytes) : List (BitVec 28 × UInt8) :=
  bytes.zipIdx.map fun p => (address + BitVec.ofNat 28 p.2, p.1)

/-- The writes of one line: `0aaaaaaa 000000vv`, `1aaaaaaa 0000vvvv` or `2aaaaaaa vvvvvvvv`. -/
def lineWrites? (line : Word × Word) : Option (List (BitVec 28 × UInt8)) := do
  let width ← width? (line.1.extractLsb' 28 4)
  let bytes := LittleEndian.bytes line.2
  if (bytes.drop width.size).all (· == 0) then
    some (byteWrites (line.1.setWidth 28) (bytes.take width.size))
  else none

/-- The writes of a text in order, if all its lines are direct writes. -/
def writes? (s : Bytes) : Option (List (BitVec 28 × UInt8)) := do
  let lines ← lines? s
  return (← lines.mapM lineWrites?).flatten

theorem byteWrites_append (address : BitVec 28) (first second : Bytes) :
    byteWrites address (first ++ second) =
      byteWrites address first ++ byteWrites (address + BitVec.ofNat 28 first.length) second := by
  have hshift : (second.zipIdx first.length).map (fun p => (address + BitVec.ofNat 28 p.2, p.1)) =
      byteWrites (address + BitVec.ofNat 28 first.length) second := by
    rw [List.zipIdx_eq_map_add, List.map_map]
    refine List.map_congr_left fun p _ => ?_
    simp only [Function.comp_apply, BitVec.ofNat_add, BitVec.add_assoc]
  rw [byteWrites, List.zipIdx_append, List.map_append, Nat.zero_add, hshift]
  rfl

/-- The line of a direct write stores the low bytes of its value. -/
theorem lineWrites?_write (width : Width) (address : BitVec 28) (value : Word) :
    lineWrites? (BitVec.ofNat 4 width.code ++ address, width.clip value) =
      some (byteWrites address ((LittleEndian.bytes value).take width.size)) := by
  have htype : (BitVec.ofNat 4 width.code ++ address : Word).extractLsb' 28 4 =
      BitVec.ofNat 4 width.code := by
    rw [BitVec.extractLsb'_append_eq_of_le (Nat.le_refl 28)]
    simp
  have haddress : (BitVec.ofNat 4 width.code ++ address : Word).setWidth 28 = address :=
    BitVec.setWidth_append_eq_right
  have hlength : ((LittleEndian.bytes value).take width.size).length = width.size := by
    cases width <;> rfl
  unfold lineWrites?
  simp only [htype, haddress, width?_code, Width.bytes_clip, Option.bind_eq_bind, Option.bind_some]
  rw [List.drop_left' hlength, List.take_left' hlength, if_pos]
  simp

end Device

namespace Code

/-- Whether a code writes a value at an address. -/
def IsWrite (code : Code) : Prop := ∃ width address value, code = .write width address value

/-- The bytes that a code writes at an address of its own. -/
def byteWrites : Code → List (BitVec 28 × UInt8)
  | .write width address value =>
    Device.byteWrites (address.setWidth 28) ((LittleEndian.bytes value).take width.size)
  | _ => []

theorem isWrite_ofBytes (start : Word) (b : Bytes) : ∀ code ∈ ofBytes start b, code.IsWrite := by
  fun_induction ofBytes start b with
  | case1 => simp
  | case2 | case3 => simp [IsWrite]
  | case4 =>
    intro code hcode
    rcases List.mem_pair.1 hcode with rfl | rfl <;> exact ⟨_, _, _, rfl⟩
  | case5 start a b c d rest ih =>
    exact List.forall_mem_cons.2 ⟨⟨_, _, _, rfl⟩, ih⟩

/-- The codes of a byte list write its bytes from the start on. -/
theorem flatMap_byteWrites_ofBytes (start : Word) (b : Bytes) :
    (ofBytes start b).flatMap byteWrites = Device.byteWrites (start.setWidth 28) b := by
  fun_induction ofBytes start b with
  | case1 => rfl
  | case2 | case3 => simp [byteWrites, LittleEndian.bytes_word, Width.size]
  | case4 start a b c =>
    have hnext : (start + 2#32).setWidth 28 = start.setWidth 28 + 2#28 :=
      BitVec.setWidth_add _ _ (by decide)
    have hcut := Device.byteWrites_append (start.setWidth 28) [a, b] [c]
    simpa [byteWrites, LittleEndian.bytes_word, Width.size, hnext] using hcut.symm
  | case5 start a b c d rest ih =>
    have hnext : (start + 4#32).setWidth 28 = start.setWidth 28 + 4#28 :=
      BitVec.setWidth_add _ _ (by decide)
    have hcut := Device.byteWrites_append (start.setWidth 28) [a, b, c, d] rest
    rw [List.flatMap_cons, ih]
    simpa [byteWrites, LittleEndian.bytes_word, Width.size, hnext] using hcut.symm

end Code

namespace Device

/-- Direct writes are read as the bytes they store. -/
theorem writes?_text {codes : List Code} (h : ∀ code ∈ codes, code.IsWrite) :
    writes? (Fragment.codes codes).text = some (codes.flatMap Code.byteWrites) := by
  obtain ⟨words, hspell, hwrites⟩ : ∃ words, List.Forall₂ Spells (codes.flatMap Code.lines) words ∧
      words.mapM lineWrites? = some (codes.map Code.byteWrites) := by
    induction codes with
    | nil => exact ⟨[], .nil, rfl⟩
    | cons code codes ih =>
      obtain ⟨⟨width, address, value, rfl⟩, hcodes⟩ := List.forall_mem_cons.1 h
      obtain ⟨words, hspell, hwrites⟩ := ih hcodes
      have htype : width.code < 16 := by cases width <;> decide
      let line := (BitVec.ofNat 4 width.code ++ address.setWidth 28, width.clip value)
      refine ⟨line :: words, .cons ⟨half?_typed htype address, half?_word _⟩ hspell, ?_⟩
      rw [List.mapM_cons, lineWrites?_write, hwrites]
      rfl
  simp [writes?, lines?_text hspell, hwrites, List.flatMap]

end Device

/-! ## Byte lists of a script -/

namespace Byte

theorem digit?_toUpper (c : UInt8) : digit? (toUpper c) = digit? c := by
  unfold toUpper
  split
  · rename_i h
    have hle : (0x20 : UInt8) ≤ c := by grind [isLower]
    have hsub : (c - 0x20).toNat = c.toNat - 0x20 := UInt8.toNat_sub_of_le c 0x20 hle
    grind [digit?, isLower, isUpper, isDigit]
  · rfl

theorem isHex_of_toUpper {c : UInt8} (h : isUpperHex (toUpper c) = true) : isHex c = true := by
  grind [isUpperHex, isHex, toUpper, isLower, isDigit]

end Byte

namespace Literal

/-- Whether a text is a byte in two hexadecimal digits of either case. -/
def IsPair (s : Bytes) (x : UInt8) : Prop := s.map Byte.toUpper = Hex.fixed 2 x.toNat

variable {s : Bytes} {x : UInt8} {pairs : List Bytes} {b : Bytes}

theorem IsPair.isHex (h : IsPair s x) : ∀ c ∈ s, Byte.isHex c = true := by
  intro c hc
  have hmem : Byte.toUpper c ∈ Hex.fixed 2 x.toNat := by
    rw [← h]
    exact List.mem_map_of_mem hc
  exact Byte.isHex_of_toUpper ((Digits.fixed 2 x.toNat).2 _ hmem)

theorem IsPair.form (h : IsPair s x) : (s.length == 2 && s.all Byte.isHex) = true := by
  have hlength : s.length = 2 := by
    rw [← Hex.length_fixed 2 x.toNat, ← h, List.length_map]
  rw [Bool.and_eq_true, List.all_eq_true]
  exact ⟨beq_iff_eq.2 hlength, h.isHex⟩

theorem IsPair.space_not_mem (h : IsPair s x) : Byte.space ∉ s := by
  intro hmem
  have hhex := h.isHex _ hmem
  revert hhex
  decide

theorem IsPair.value (h : IsPair s x) :
    (s.foldl (fun n c => n * 16 + (Byte.digit? c).getD 0) 0).toUInt8 = x := by
  have hfold : s.foldl (fun n c => n * 16 + (Byte.digit? c).getD 0) 0 =
      (Hex.fixed 2 x.toNat).foldl (fun n c => n * 16 + (Byte.digit? c).getD 0) 0 := by
    rw [← h, List.foldl_map]
    simp only [Byte.digit?_toUpper]
  have hdigits : Hex.fixed 2 x.toNat = [Hex.digit (x.toNat / 16 % 16), Hex.digit (x.toNat % 16)] :=
    rfl
  have hlt := x.toNat_lt
  have hvalue : (x.toNat / 16 % 16) * 16 + x.toNat % 16 = x.toNat := by omega
  rw [hfold, hdigits]
  simp [Hex.digit?_digit _ (Nat.mod_lt _ (by decide : 16 > 0)), hvalue]

/-- Pairs with blanks between them are a byte list. -/
theorem byteList_join (h : List.Forall₂ IsPair pairs b) (hne : b ≠ []) :
    isByteList (Bytes.join [Byte.space] pairs) = true ∧
      byteList (Bytes.join [Byte.space] pairs) = b := by
  have hpairs : pairs ≠ [] := by
    rintro rfl
    cases h
    exact hne rfl
  have hfree : ∀ s ∈ pairs, Byte.space ∉ s := by
    clear hne hpairs
    induction h with
    | nil => simp
    | cons hpair _ ih => exact List.forall_mem_cons.2 ⟨hpair.space_not_mem, ih⟩
  unfold isByteList byteList
  rw [Bytes.split_join hpairs hfree]
  clear hfree hpairs hne
  induction h with
  | nil => exact ⟨rfl, rfl⟩
  | cons hpair _ ih =>
    rw [List.all_cons, hpair.form, ih.1, List.map_cons, hpair.value, ih.2]
    exact ⟨rfl, rfl⟩

end Literal

namespace Argument

/-- A text in quotes is read as what is between them. -/
theorem text_inQuotes (s : Bytes) : text [inQuotes s] = .ok (s, []) := by
  have hmark : hasMark Byte.quote (inQuotes s) = true := rfl
  simp [text, hmark, joinTerms, Joined.flush, isQuoted_inQuotes, insideQuotes_inQuotes, bind,
    Except.bind, pure, Except.pure]

end Argument

namespace Statement

open Argument (IsAddressSum addressSum sumTokens inQuotes)

/-- Pairs in quotes behind an address are written as the codes of their bytes. -/
theorem bytesCodes_pairs {terms pairs : List Bytes} {b : Bytes} (hterms : IsAddressSum terms)
    (hpairs : List.Forall₂ Literal.IsPair pairs b) (hne : b ≠ []) :
    bytesCodes (sumTokens terms ++ [inQuotes (Bytes.join [Byte.space] pairs)]) =
      .ok (Code.ofBytes (addressSum terms) b) := by
  obtain ⟨hform, hvalue⟩ := Literal.byteList_join hpairs hne
  generalize Bytes.join [Byte.space] pairs = s at hform hvalue ⊢
  have hlength : ¬ (sumTokens terms ++ [inQuotes s]).length < 2 := by
    have hpos := hterms.length_pos
    rw [List.length_append, List.length_singleton]
    omega
  have hmark : ∀ t ∈ [inQuotes s].head?, Argument.hasMark Byte.plus t = false := by
    intro t ht
    obtain rfl := Option.some.inj ht
    rfl
  unfold bytesCodes addressAndValue
  rw [if_neg hlength, Argument.address_sumTokens hterms hmark]
  simp [bind, Except.bind, pure, Except.pure, Argument.text_inQuotes, last, hform, hvalue]

/-- **Byte lists are written exactly.** The codes of a byte list are read as the write of byte `i`
at the start plus `i`, for each byte in order and nothing else; and the byte lists of a script are
written as these codes. -/
theorem bytes_written [TextEncoder] :
    (∀ (start : Word) (b : Bytes), Device.writes? (Fragment.codes (Code.ofBytes start b)).text =
      some (b.zipIdx.map fun p => (start.setWidth 28 + BitVec.ofNat 28 p.2, p.1))) ∧
    ∀ (e : TextEncoding) (c : Command) (terms pairs : List Bytes) (b : Bytes),
      Verb.ofName? c.name = some .writeBytes → IsAddressSum terms →
      List.Forall₂ Literal.IsPair pairs b → b ≠ [] →
      c.args = sumTokens terms ++ [inQuotes (Bytes.join [Byte.space] pairs)] →
      ofCommand e c = .ok (.emit (.codes (Code.ofBytes (addressSum terms) b))) := by
  constructor
  · intro start b
    rw [Device.writes?_text (Code.isWrite_ofBytes start b), Code.flatMap_byteWrites_ofBytes]
    rfl
  · intro e c terms pairs b hverb hterms hpairs hne hargs
    rw [ofCommand, hverb]
    simp only [ofVerb, hargs, bytesCodes_pairs hterms hpairs hne]
    rfl

/-- Three bytes across the last address. -/
def writeAtTheEnd : Command := Command.ofLine (ascii "WriteBytes 0xFFFFFF0 +0E \"dE ad 07\"")

theorem bytes_written_at_the_end :
    ofCommand .utf8 writeAtTheEnd =
        .ok (.emit (.codes (Code.ofBytes 0xFFFFFFE#32 [0xDE, 0xAD, 0x07]))) ∧
      Device.writes? (Fragment.codes (Code.ofBytes 0xFFFFFFE#32 [0xDE, 0xAD, 0x07])).text =
        some [(0xFFFFFFE#28, 0xDE), (0xFFFFFFF#28, 0xAD), (0#28, 0x07)] := by
  obtain ⟨hread, hwritten⟩ := bytes_written
  have hterms : IsAddressSum [ascii "0xFFFFFF0", ascii "0E"] := ⟨by decide, by decide⟩
  have hpairs :
      List.Forall₂ Literal.IsPair [ascii "dE", ascii "ad", ascii "07"] [0xDE, 0xAD, 0x07] :=
    .cons rfl (.cons rfl (.cons rfl .nil))
  exact ⟨hwritten .utf8 writeAtTheEnd _ _ _ rfl hterms hpairs (by decide) (by decide), hread _ _⟩

end Statement

end CheatScript
