import CheatScript.Proofs.LineCounts
import CheatScript.Proofs.PatchLines
import CheatScript.Proofs.PrintedNames

/-!
# Proofs: lines of codes are read back

The device takes every line as two words of eight digits each. Reading the text of a fragment gives
for each of its lines the two words it was written from.
-/

namespace CheatScript

/-! ## Digits one after the other -/

namespace Hex

/-- The digits of two numbers in a row are those of one number. -/
theorem fixed_append (first second m n : Nat) :
    fixed first m ++ fixed second n =
      fixed (first + second) (m * 16 ^ second + n % 16 ^ second) := by
  induction second generalizing n with
  | zero => simp [fixed, Nat.mod_one]
  | succ second ih =>
    have hvalue : m * 16 ^ (second + 1) + n % 16 ^ (second + 1) =
        (m * 16 ^ second + n / 16 % 16 ^ second) * 16 + n % 16 := by
      rw [Nat.pow_succ', Nat.mod_mul]
      ring
    have hlast : n % 16 < 16 := Nat.mod_lt n (by decide)
    rw [← Nat.add_assoc, fixed, fixed, hvalue, ← List.append_assoc, ih]
    congr 3 <;> omega

theorem cons_fixed {d : Nat} (hd : d < 16) (width n : Nat) :
    digit d :: fixed width n = fixed (width + 1) (d * 16 ^ width + n % 16 ^ width) := by
  rw [Nat.add_comm width 1, ← fixed_append, fixed_one hd]
  rfl

end Hex

/-- The number of bytes of a width. -/
def Width.size : Width → Nat
  | .byte => 1
  | .half => 2
  | .word => 4

/-! ## Halves and lines -/

namespace Device

/-- The word of a half of eight digits. -/
def half? (s : Bytes) : Option Word := if s.length = 8 then (Numeral.hexWord s).toOption else none

/-- The two words of a line. -/
def line? (s : Bytes) : Option (Word × Word) := do
  let (left, right) ← Bytes.cut? Byte.space s
  return (← half? left, ← half? right)

/-- The lines of a text that has a newline in front of every line. -/
def lines? (s : Bytes) : Option (List (Word × Word)) :=
  match Bytes.split Byte.newline s with
  | [] :: lines => lines.mapM line?
  | _ => none

/-- The width that a digit stands for. -/
def width? (code : BitVec 4) : Option Width :=
  if code = 0 then some .byte
  else if code = 1 then some .half
  else if code = 2 then some .word
  else none

theorem width?_code (width : Width) : width? (BitVec.ofNat 4 width.code) = some width := by
  cases width <;> rfl

theorem half?_fixed (n : Nat) : half? (Hex.fixed 8 n) = some (BitVec.ofNat 32 n) := by
  have hmod : BitVec.ofNat 32 (n % 16 ^ 8) = BitVec.ofNat 32 n := by
    apply BitVec.eq_of_toNat_eq
    simp
  rw [half?, if_pos (Hex.length_fixed 8 n), Hex.hexWord_fixed n (by decide) (by decide), hmod]
  rfl

theorem half?_word (w : Word) : half? (Hex.word w) = some w := by
  rw [Hex.word, half?_fixed, BitVec.ofNat_toNat, BitVec.setWidth_eq]

/-- The word of a half with a type and an address of seven digits. -/
theorem half?_typed {type : Nat} (h : type < 16) (address : Word) :
    half? (Code.typed type address) = some (BitVec.ofNat 4 type ++ address.setWidth 28) := by
  have hword : BitVec.ofNat 32 (type * 16 ^ 7 + address.toNat % 16 ^ 7) =
      (BitVec.ofNat 4 type ++ address.setWidth 28 : BitVec 32) := by
    apply BitVec.eq_of_toNat_eq
    rw [BitVec.toNat_append, BitVec.toNat_ofNat, BitVec.toNat_ofNat, BitVec.toNat_setWidth,
      ← Nat.shiftLeft_add_eq_or_of_lt (Nat.mod_lt _ (by decide)), Nat.shiftLeft_eq]
    omega
  rw [Code.typed, Hex.cons_fixed h, half?_fixed, hword]

/-- A line whose halves are digits is cut at its blank. -/
theorem line?_text {l : CodeLine} {left right : Word} (hleft : half? l.left = some left)
    (hright : half? l.right = some right) (h : l.AllDigits) :
    line? l.text = some (left, right) := by
  obtain ⟨⟨m, hdigits⟩, -⟩ := h
  have hspace : Byte.space ∉ l.left := by
    intro hmem
    have hdigit := hdigits.2 _ hmem
    revert hdigit
    decide
  rw [line?, CodeLine.text, Bytes.cut?_append hspace]
  simp [hleft, hright]

end Device

namespace Fragment

/-- The text of lines is split into them again. -/
theorem split_linesText {lines : List CodeLine} (h : ∀ l ∈ lines, l.AllDigits) {s : Bytes}
    (hs : Byte.newline ∉ s) :
    Bytes.split Byte.newline (s ++ linesText lines) = s :: lines.map CodeLine.text := by
  induction lines generalizing s with
  | nil =>
    rw [linesText, List.flatMap_nil, List.append_nil, Bytes.split_of_not_mem hs]
    rfl
  | cons l lines ih =>
    obtain ⟨hl, hlines⟩ := List.forall_mem_cons.1 h
    have hcons : linesText (l :: lines) = Byte.newline :: (l.text ++ linesText lines) := rfl
    rw [hcons, Bytes.split_append hs, ih hlines hl.newline_not_mem]
    rfl

end Fragment

namespace Device

/-- Whether the halves of a line spell two words. -/
structure Spells (l : CodeLine) (words : Word × Word) : Prop where
  left : half? l.left = some words.1
  right : half? l.right = some words.2

/-- **Lines are read back.** The text of codes is read as the words that their lines spell. -/
theorem lines?_text {codes : List Code} {words : List (Word × Word)}
    (h : List.Forall₂ Spells (codes.flatMap Code.lines) words) :
    lines? (Fragment.codes codes).text = some words := by
  have hdigits : ∀ l ∈ codes.flatMap Code.lines, l.AllDigits := by
    intro l hl
    obtain ⟨code, -, hl⟩ := List.mem_flatMap.1 hl
    exact code.lines_allDigits l hl
  have hread : ((codes.flatMap Code.lines).map CodeLine.text).mapM line? = some words := by
    generalize codes.flatMap Code.lines = lines at h hdigits
    induction h with
    | nil => rfl
    | cons hfirst _ ih =>
      obtain ⟨hl, hlines⟩ := List.forall_mem_cons.1 hdigits
      rw [List.map_cons, List.mapM_cons, line?_text hfirst.left hfirst.right hl, ih hlines]
      rfl
  have hsplit : Bytes.split Byte.newline (Fragment.codes codes).text =
      [] :: (codes.flatMap Code.lines).map CodeLine.text :=
    Fragment.split_linesText hdigits List.not_mem_nil
  rw [lines?, hsplit]
  exact hread

end Device

end CheatScript
