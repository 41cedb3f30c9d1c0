import CheatScript.Text.Space
import Mathlib.Tactic.Common

/-!
# Proofs: trimmed text

Trimming takes off white space until none stands at the end of the text, so a second time it takes
off nothing. What it leaves is a part of the text, and holds every byte that is ASCII and no blank.
-/

namespace CheatScript

namespace Byte

/-- An ASCII byte that is no blank. -/
def isSolid (c : UInt8) : Bool := c < 0x80 && !isBlank c

end Byte

namespace Space

/-! ## Forms of white space -/

section Forms

variable {pair : UInt8 → UInt8 → Bool} {triple : UInt8 → UInt8 → UInt8 → Bool} {x : UInt8}

/-- Whether a byte is in no form of several bytes. -/
structure Apart (pair : UInt8 → UInt8 → Bool) (triple : UInt8 → UInt8 → UInt8 → Bool) (x : UInt8) :
    Prop where
  pair : ∀ a, pair x a = false ∧ pair a x = false
  triple : ∀ a b, triple x a b = false ∧ triple a x b = false ∧ triple a b x = false

/-- The same for the forms read from the end. -/
theorem Apart.flip (h : Apart pair triple x) :
    Apart (fun a b => pair b a) (fun a b c => triple c b a) x where
  pair a := (h.pair a).symm
  triple a b := by
    obtain ⟨hfirst, hsecond, hthird⟩ := h.triple b a
    exact ⟨hthird, hsecond, hfirst⟩

/-- Whether white space stands in front. -/
def leads (pair : UInt8 → UInt8 → Bool) (triple : UInt8 → UInt8 → UInt8 → Bool) : Bytes → Bool
  | a :: b :: c :: _ => Byte.isBlank a || pair a b || triple a b c
  | [a, b] => Byte.isBlank a || pair a b
  | [a] => Byte.isBlank a
  | [] => false

theorem dropForms_eq_self {s : Bytes} (h : leads pair triple s = false) :
    dropForms pair triple s = s := by
  unfold leads at h
  split at h
  · simp only [Bool.or_eq_false_iff] at h
    obtain ⟨⟨hblank, hpair⟩, htriple⟩ := h
    simp [dropForms, hblank, hpair, htriple]
  · simp only [Bool.or_eq_false_iff] at h
    simp [dropForms, h]
  · simp [dropForms, h]
  · rfl

theorem leads_dropForms (s : Bytes) : leads pair triple (dropForms pair triple s) = false := by
  fun_induction dropForms pair triple s <;> simp_all [leads]

theorem dropForms_suffix (s : Bytes) : dropForms pair triple s <:+ s := by
  fun_induction dropForms pair triple s with
  | case1 a b c s ha ih => exact ih.trans (List.suffix_cons a _)
  | case2 a b c s ha hab ih => exact ih.trans ⟨[a, b], rfl⟩
  | case3 a b c s ha hab habc ih => exact ih.trans ⟨[a, b, c], rfl⟩
  | case4 => exact List.suffix_rfl
  | case5 a b ha ih => exact ih.trans (List.suffix_cons a _)
  | case6 => exact List.nil_suffix
  | case7 => exact List.suffix_rfl
  | case8 => exact List.nil_suffix
  | case9 => exact List.suffix_rfl
  | case10 => exact List.suffix_rfl

theorem leads_of_append {s rest : Bytes} (h : leads pair triple (s ++ rest) = false) :
    leads pair triple s = false := by
  match s with
  | [] => rfl
  | [a] => rcases rest with _ | ⟨b, _ | ⟨c, rest⟩⟩ <;> simp_all [leads]
  | [a, b] => cases rest <;> simp_all [leads]
  | a :: b :: c :: s => exact h

/-- White space in front ends before a byte that is in no form of it. -/
theorem leads_append (hblank : Byte.isBlank x = false) (h : Apart pair triple x) (r z : Bytes) :
    leads pair triple (r ++ x :: z) = leads pair triple r := by
  obtain ⟨hpair, htriple⟩ := h
  match r with
  | [] =>
    match z with
    | [] => simp [leads, hblank]
    | [b] => simp [leads, hblank, hpair]
    | b :: c :: z => simp [leads, hblank, hpair, htriple]
  | [a] =>
    cases z <;> simp [leads, hpair, htriple]
  | [a, b] => simp [leads, htriple]
  | a :: b :: c :: r => rfl

/-- White space in front ends before a byte that is in no form of several bytes, or goes on with
it. -/
theorem dropForms_append (h : Apart pair triple x) (r z : Bytes) :
    dropForms pair triple (r ++ x :: z) =
      if dropForms pair triple r = [] then dropForms pair triple (x :: z)
      else dropForms pair triple r ++ x :: z := by
  obtain ⟨hpair, htriple⟩ := h
  fun_induction dropForms pair triple r with
  | case1 a b c s ha ih => simpa [dropForms, ha] using ih
  | case2 a b c s ha hab ih => simpa [dropForms, ha, hab] using ih
  | case3 a b c s ha hab habc ih => simpa [dropForms, ha, hab, habc] using ih
  | case4 a b c s ha hab habc => simp [dropForms, ha, hab, habc]
  | case5 a b ha ih => simpa [dropForms, ha] using ih
  | case6 a b ha hab => simp [dropForms, ha, hab]
  | case7 a b ha hab => simp [dropForms, ha, hab, htriple]
  | case8 a ha => cases z <;> simp [dropForms, ha]
  | case9 a ha => cases z <;> simp [dropForms, ha, hpair, htriple]
  | case10 => simp

theorem dropForms_of_blank {a : UInt8} (h : Byte.isBlank a = true) (s : Bytes) :
    dropForms pair triple (a :: s) = dropForms pair triple s := by
  match s with
  | [] => simp [dropForms, h]
  | [b] => simp [dropForms, h]
  | b :: c :: s => simp [dropForms, h]

theorem dropForms_blanks_append {r : Bytes} (h : ∀ a ∈ r, Byte.isBlank a = true) (s : Bytes) :
    dropForms pair triple (r ++ s) = dropForms pair triple s := by
  induction r with
  | nil => rfl
  | cons a r ih =>
    obtain ⟨ha, hr⟩ := List.forall_mem_cons.1 h
    rw [List.cons_append, dropForms_of_blank ha, ih hr]

theorem dropForms_of_blanks {s : Bytes} (h : ∀ a ∈ s, Byte.isBlank a = true) :
    dropForms pair triple s = [] := by
  rw [← List.append_nil s, dropForms_blanks_append h, dropForms]

theorem mem_dropForms {s : Bytes} (hblank : Byte.isBlank x = false) (hx : Apart pair triple x)
    (h : x ∈ s) : x ∈ dropForms pair triple s := by
  obtain ⟨hpair, htriple⟩ := hx
  fun_induction dropForms pair triple s with
  | case1 a c d s ha ih => grind
  | case2 a c d s ha hac ih => grind
  | case3 a c d s ha hac hacd ih => grind
  | case4 => exact h
  | case5 a c ha ih => grind
  | case6 a c ha hac => grind
  | case7 => exact h
  | case8 a ha => grind
  | case9 => exact h
  | case10 => exact h

theorem dropForms_of_solid (hblank : Byte.isBlank x = false) (h : Apart pair triple x) (s : Bytes) :
    dropForms pair triple (x :: s) = x :: s := by
  obtain ⟨hpair, htriple⟩ := h
  match s with
  | [] => simp [dropForms, hblank]
  | [b] => simp [dropForms, hblank, hpair]
  | b :: c :: s => simp [dropForms, hblank, hpair, htriple]

/-- White space in front ends before a byte that is in no form of it. -/
theorem dropForms_append_solid (hblank : Byte.isBlank x = false) (h : Apart pair triple x)
    (r z : Bytes) : dropForms pair triple (r ++ x :: z) = dropForms pair triple r ++ x :: z := by
  rw [dropForms_append h, dropForms_of_solid hblank h]
  split
  · next hnil => rw [hnil, List.nil_append]
  · rfl

end Forms

/-- An ASCII byte is in no form of several bytes. -/
theorem apart_of_lt {x : UInt8} (h : x < 0x80) : Apart isPair isTriple x where
  pair a := by grind [isPair]
  triple a b := by grind [isTriple]

theorem apart_of_isSolid {x : UInt8} (h : Byte.isSolid x = true) :
    Byte.isBlank x = false ∧ Apart isPair isTriple x := by
  obtain ⟨hascii, hblank⟩ : x < 0x80 ∧ Byte.isBlank x = false := by simpa [Byte.isSolid] using h
  exact ⟨hblank, apart_of_lt hascii⟩

theorem trimStart_of_head {s : Bytes} (h : ∀ a ∈ s.head?, Byte.isSolid a = true) :
    trimStart s = s := by
  cases s with
  | nil => rfl
  | cons a s =>
    obtain ⟨hblank, hapart⟩ := apart_of_isSolid (h a rfl)
    exact dropForms_of_solid hblank hapart s

theorem trimEnd_of_last {s : Bytes} (h : ∀ a ∈ s.getLast?, Byte.isSolid a = true) :
    trimEnd s = s := by
  rw [trimEnd]
  cases hrev : s.reverse with
  | nil => rw [List.reverse_eq_nil_iff.1 hrev]; rfl
  | cons a t =>
    have hlast : s.getLast? = some a := by rw [← List.head?_reverse, hrev]; rfl
    obtain ⟨hblank, hapart⟩ := apart_of_isSolid (h a hlast)
    rw [dropForms_of_solid hblank hapart.flip, ← hrev, List.reverse_reverse]

/-! ## Text without white space at its ends -/

theorem trimStart_trimStart (s : Bytes) : trimStart (trimStart s) = trimStart s :=
  dropForms_eq_self (leads_dropForms s)

/-- Whether white space stands at the end. -/
def trails (s : Bytes) : Bool :=
  leads (fun a b => isPair b a) (fun a b c => isTriple c b a) s.reverse

theorem trimEnd_eq_self {s : Bytes} (h : trails s = false) : trimEnd s = s := by
  rw [trimEnd, dropForms_eq_self h, List.reverse_reverse]

theorem trails_trimEnd (s : Bytes) : trails (trimEnd s) = false := by
  rw [trails, trimEnd, List.reverse_reverse]
  exact leads_dropForms _

theorem trimEnd_trimEnd (s : Bytes) : trimEnd (trimEnd s) = trimEnd s :=
  trimEnd_eq_self (trails_trimEnd s)

theorem trimEnd_prefix (s : Bytes) : trimEnd s <+: s := by
  rw [trimEnd, ← List.reverse_suffix, List.reverse_reverse]
  exact dropForms_suffix _

theorem trails_append {x : UInt8} (hx : Byte.isSolid x = true) (z y : Bytes) :
    trails (z ++ x :: y) = trails y := by
  obtain ⟨hblank, hapart⟩ := apart_of_isSolid hx
  rw [trails, trails, List.reverse_append, List.reverse_cons, List.append_assoc]
  exact leads_append hblank hapart.flip _ _

/-- White space in front of a text goes up to an ASCII byte that is no blank. -/
theorem trimStart_append {x : UInt8} (hx : Byte.isSolid x = true) (r z : Bytes) :
    trimStart (r ++ x :: z) = trimStart r ++ x :: z := by
  obtain ⟨hblank, hapart⟩ := apart_of_isSolid hx
  exact dropForms_append_solid hblank hapart r z

theorem trimEnd_append {x : UInt8} (hx : Byte.isSolid x = true) (z y : Bytes) :
    trimEnd (z ++ x :: y) = z ++ x :: trimEnd y := by
  obtain ⟨hblank, hapart⟩ := apart_of_isSolid hx
  rw [trimEnd, List.reverse_append, List.reverse_cons, List.append_assoc, List.singleton_append,
    dropForms_append_solid hblank hapart.flip, List.reverse_append, List.reverse_cons,
    List.reverse_reverse, List.append_assoc]
  rfl

theorem trimEnd_of_blanks {s : Bytes} (h : ∀ a ∈ s, Byte.isBlank a = true) : trimEnd s = [] := by
  rw [trimEnd, dropForms_of_blanks fun a ha => h a (List.mem_reverse.1 ha)]
  rfl

/-- Whether a text is not empty and starts and ends with an ASCII byte that is no blank. -/
structure SolidEnds (s : Bytes) : Prop where
  ne : s ≠ []
  head : ∀ a ∈ s.head?, Byte.isSolid a = true
  last : ∀ a ∈ s.getLast?, Byte.isSolid a = true

theorem SolidEnds.trim_eq {s : Bytes} (h : SolidEnds s) : trim s = s := by
  rw [trim, trimStart_of_head h.head, trimEnd_of_last h.last]

/-- White space at the end of a text goes back to a part that does not end with white space. -/
theorem SolidEnds.trimEnd_append {part : Bytes} (h : SolidEnds part) (z y : Bytes) :
    trimEnd (z ++ (part ++ y)) = z ++ (part ++ trimEnd y) := by
  have hpart : part.dropLast ++ [part.getLast h.ne] = part := List.dropLast_concat_getLast h.ne
  have hsplit : ∀ t, z ++ (part ++ t) = (z ++ part.dropLast) ++ part.getLast h.ne :: t := by
    intro t
    rw [List.append_cons, List.append_assoc z, hpart, List.append_assoc]
  rw [hsplit, Space.trimEnd_append (h.last _ (List.getLast?_eq_some_getLast h.ne)), ← hsplit]

/-- Trimming around a part of a text that has no white space at its ends. -/
theorem SolidEnds.trim_append {part : Bytes} (h : SolidEnds part) (r y : Bytes) :
    trim (r ++ (part ++ y)) = trimStart r ++ (part ++ trimEnd y) := by
  obtain ⟨a, rest, rfl⟩ := List.exists_cons_of_ne_nil h.ne
  rw [trim, List.cons_append, trimStart_append (h.head a rfl), ← List.cons_append, h.trimEnd_append]

/-- A blank at the end goes, whatever stands before it. -/
theorem trim_concat_blank {c : UInt8} (hc : Byte.isBlank c = true) (s : Bytes) :
    trim (s ++ [c]) = trim s := by
  have hend : ∀ r : Bytes, trimEnd (r ++ [c]) = trimEnd r := by
    intro r
    rw [trimEnd, List.reverse_append, List.reverse_singleton, List.singleton_append,
      dropForms_of_blank hc]
    rfl
  have hascii : c < 0x80 := by grind [Byte.isBlank]
  rw [trim, trim, trimStart, dropForms_append (apart_of_lt hascii)]
  split
  · next hnil => rw [trimStart, hnil, dropForms_of_blank hc]; rfl
  · exact hend _

/-- Trimming twice is trimming once: what is left at the start of a text is not changed by trimming
its end. -/
theorem trim_trim (s : Bytes) : trim (trim s) = trim s := by
  obtain ⟨rest, hrest⟩ := trimEnd_prefix (trimStart s)
  have hstart : trimStart (trimEnd (trimStart s)) = trimEnd (trimStart s) := by
    have hlead : leads isPair isTriple (trimEnd (trimStart s) ++ rest) = false := by
      rw [hrest]
      exact leads_dropForms s
    exact dropForms_eq_self (leads_of_append hlead)
  rw [trim, trim, hstart, trimEnd_trimEnd]

/-- Trimming leaves every byte that is ASCII and no blank. -/
theorem mem_trim {b : UInt8} {s : Bytes} (hb : Byte.isSolid b = true) (h : b ∈ s) : b ∈ trim s := by
  obtain ⟨hblank, hapart⟩ := apart_of_isSolid hb
  have hstart : b ∈ trimStart s := mem_dropForms hblank hapart h
  exact List.mem_reverse.2 (mem_dropForms hblank hapart.flip (List.mem_reverse.2 hstart))

end Space

end CheatScript
