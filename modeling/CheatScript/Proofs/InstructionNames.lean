import CheatScript.Instruction.Kind
import CheatScript.Instruction.Table
import CheatScript.Token.Quote
import Mathlib.Data.List.Nodup

/-!
# Proofs: rows of the instruction table

No mnemonic stands twice in the table, so a row is found by its mnemonic. What short forms, jumps
and suffixes ask of a row is checked row by row. Comparing names byte by byte is slow in such a
check, so names are compared by their codes, which form sets.
-/

namespace CheatScript

open Quote (Positions)

/-- A name as a number: its bytes as digits, modulo a number that keeps the names of the table
apart. -/
def nameCode (name : Bytes) : Nat := name.foldl (fun n c => n * 256 + c.toNat) 0 % 8924

/-- Whether numbers are distinct from one another and from those seen before. -/
def allDistinct : (seen : Positions) → List Nat → Bool
  | _, [] => true
  | seen, n :: ns => !seen.contains n && allDistinct (seen.insert n) ns

theorem nodup_of_allDistinct {seen : Positions} {ns : List Nat} (h : allDistinct seen ns = true) :
    ns.Nodup ∧ ∀ n ∈ ns, seen.contains n = false := by
  induction ns generalizing seen with
  | nil => exact ⟨List.nodup_nil, by simp⟩
  | cons n ns ih =>
    simp only [allDistinct, Bool.and_eq_true, Bool.not_eq_true'] at h
    obtain ⟨hn, hrest⟩ := h
    obtain ⟨hnodup, hunseen⟩ := ih hrest
    have hlater : ∀ m ∈ ns, seen.contains m = false ∧ n ≠ m := by
      intro m hm
      simpa using hunseen m hm
    refine ⟨List.nodup_cons.2 ⟨fun hmem => (hlater n hmem).2 rfl, hnodup⟩, ?_⟩
    intro m hm
    rcases List.mem_cons.1 hm with rfl | hm
    · exact hn
    · exact (hlater m hm).1

/-- The codes of names. -/
def codesOf (names : List Bytes) : Positions :=
  names.foldl (fun seen name => seen.insert (nameCode name)) {}

/-- Whether the code of a name is none of a list's. -/
def isApart (names : List Bytes) (name : Bytes) : Bool := !(codesOf names).contains (nameCode name)

theorem not_mem_of_isApart {names : List Bytes} {name : Bytes} (h : isApart names name = true) :
    name ∉ names := by
  -- over the names inserted one by one: what is in the set stays in it
  have hkeep : ∀ (names : List Bytes) (seen : Positions),
      seen.contains (nameCode name) = true ∨ name ∈ names →
        (names.foldl (fun seen name => seen.insert (nameCode name)) seen).contains (nameCode name) =
          true := by
    intro names
    induction names with
    | nil => simp
    | cons first rest ih =>
      intro seen hmem
      refine ih _ ?_
      rcases hmem with hseen | hmem
      · exact .inl (by simp [hseen])
      · rcases List.mem_cons.1 hmem with rfl | hrest
        · exact .inl (by simp)
        · exact .inr hrest
  intro hmem
  have hin : (codesOf names).contains (nameCode name) = true := hkeep names {} (.inr hmem)
  rw [isApart, hin] at h
  cases h

namespace Instruction

variable {e : Instruction}

/-! ## Rows of the table -/

theorem mnemonic_nodup : (table.map (·.mnemonic)).Nodup := by
  have hcodes : allDistinct {} ((table.map (·.mnemonic)).map nameCode) = true := by decide +kernel
  exact (nodup_of_allDistinct hcodes).1.of_map

theorem spelled?_mnemonic (he : e ∈ table) : spelled? e.mnemonic = some e := by
  have hsome : (spelled? e.mnemonic).isSome = true := by
    refine List.find?_isSome.2 ⟨e, he, by simp⟩
  obtain ⟨row, hrow⟩ := Option.isSome_iff_exists.1 hsome
  have hname : row.mnemonic = e.mnemonic := by simpa using List.find?_some hrow
  have hmem : row ∈ table := List.mem_of_find?_eq_some hrow
  rw [hrow, List.inj_on_of_nodup_map mnemonic_nodup hmem he hname]

/-- The mnemonics of short forms and pseudo-instructions apart from the loads and stores. -/
def pseudoNames : List Bytes :=
  ["J", "JAL", "JALR", "LI", "BLT", "BGE", "BLE", "BGT"].map ascii

/-- The names that the assembler treats in a way of their own. -/
def formNames : List Bytes := twoOperandForms ++ shiftForms ++ loadStores ++ pseudoNames

/-- The parts before the full stop of all names that have one. -/
def dottedStems : List Bytes :=
  (table.map (·.mnemonic) ++ formNames).filterMap fun m => (cutSuffix? m).map Prod.fst

/-- The rows with a suffix in the mnemonic itself and a destination mask in the word besides. -/
def fixedSuffixes : List Bytes := ["VCLIPW.XYZ", "VOPMULA.XYZ", "VOPMSUB.XYZ"].map ascii

/-- A byte of a mnemonic in the table. -/
def isNameByte (c : UInt8) : Bool := Byte.isUpper c || Byte.isDigit c || c == Byte.dot

/-- What the assembler relies on in a row: short forms and pseudo-instructions leave it alone when
it has all its operands, it is a jump if and only if it has the mnemonic of one, and its mnemonic
with a suffix, if its family has suffixes, is no other name. -/
@[mk_iff]
structure IsRegular (e : Instruction) : Prop where
  nonempty : e.mnemonic ≠ []
  bytes : e.mnemonic.all isNameByte = true
  shortForm : e.operands.length = 3 ∨ isApart (twoOperandForms ++ shiftForms) e.mnemonic = true
  loadStore : (e.family = .normal ∧
      e.operands ∈ [[.rt, .imm, .rs], [.ft, .imm, .rs], [.vft, .imm, .rs]]) ∨
    isApart loadStores e.mnemonic = true
  jalr : e.operands.length = 2 ∨ isApart [ascii "JALR"] e.mnemonic = true
  pseudo : isApart (["LI", "BLT", "BGE", "BLE", "BGT"].map ascii) e.mnemonic = true
  jump : e.family = .jump → e.operands = [.label] ∧ e.mnemonic ∈ ["J", "JAL"].map ascii
  notJump : e.family = .jump ∨ isApart (["J", "JAL"].map ascii) e.mnemonic = true
  dot : e.family.hasSuffix = true → Byte.dot ∈ e.mnemonic → e.mnemonic ∈ fixedSuffixes
  stem : e.family.hasSuffix = true → isApart dottedStems e.mnemonic = true

instance : DecidablePred IsRegular := fun e => decidable_of_iff _ (isRegular_iff e).symm

theorem table_regular : ∀ e ∈ table, IsRegular e := by decide +kernel

/-- A short form has three operands when it is written in full. -/
theorem length_of_shortForm (he : e ∈ table)
    (h : e.mnemonic ∈ twoOperandForms ∨ e.mnemonic ∈ shiftForms) : e.operands.length = 3 := by
  rcases (table_regular e he).shortForm with hlen | hapart
  · exact hlen
  · exact absurd (List.mem_append.2 h) (not_mem_of_isApart hapart)

/-- A load or store has a register, an offset and a base. -/
theorem operands_of_loadStore (he : e ∈ table) (h : e.mnemonic ∈ loadStores) :
    e.family = .normal ∧ (e.operands = [.rt, .imm, .rs] ∨ e.operands = [.ft, .imm, .rs] ∨
      e.operands = [.vft, .imm, .rs]) := by
  rcases (table_regular e he).loadStore with ⟨hfam, hops⟩ | hapart
  · exact ⟨hfam, by simpa using hops⟩
  · exact absurd h (not_mem_of_isApart hapart)

theorem loadStore_not_shortForm {name : Bytes} (h : name ∈ loadStores) :
    name ∉ twoOperandForms ∧ name ∉ shiftForms := by
  have hapart : loadStores.all (isApart (twoOperandForms ++ shiftForms)) = true := by decide +kernel
  have hnot := not_mem_of_isApart (List.all_eq_true.1 hapart name h)
  exact ⟨fun hmem => hnot (List.mem_append_left _ hmem),
    fun hmem => hnot (List.mem_append_right _ hmem)⟩

theorem length_of_jalr (he : e ∈ table) (h : e.mnemonic = ascii "JALR") :
    e.operands.length = 2 := by
  rcases (table_regular e he).jalr with hlen | hapart
  · exact hlen
  · exact absurd (List.mem_singleton.2 h) (not_mem_of_isApart hapart)

theorem mnemonic_ne_pseudo (he : e ∈ table) :
    ∀ name ∈ ["LI", "BLT", "BGE", "BLE", "BGT"].map ascii, e.mnemonic ≠ name := by
  rintro name hname rfl
  exact not_mem_of_isApart (table_regular e he).pseudo hname

theorem jump_iff (he : e ∈ table) :
    e.mnemonic = ascii "J" ∨ e.mnemonic = ascii "JAL" ↔ e.family = .jump := by
  constructor
  · intro hname
    rcases (table_regular e he).notJump with hfam | hapart
    · exact hfam
    · exact absurd (List.mem_pair.2 hname) (not_mem_of_isApart hapart)
  · intro hfam
    exact List.mem_pair.1 ((table_regular e he).jump hfam).2

theorem operands_of_jump (he : e ∈ table) (h : e.family = .jump) : e.operands = [.label] :=
  ((table_regular e he).jump h).1

theorem jump_not_shortForm (he : e ∈ table) (h : e.family = .jump) :
    e.mnemonic ∉ twoOperandForms ∧ e.mnemonic ∉ shiftForms := by
  have hlen : e.operands.length ≠ 3 := by
    rw [operands_of_jump he h]
    decide
  exact ⟨fun hmem => hlen (length_of_shortForm he (.inl hmem)),
    fun hmem => hlen (length_of_shortForm he (.inr hmem))⟩

theorem jump_not_loadStore (he : e ∈ table) (h : e.family = .jump) : e.mnemonic ∉ loadStores := by
  intro hload
  have hfam := (operands_of_loadStore he hload).1
  rw [h] at hfam
  cases hfam

end Instruction

end CheatScript
