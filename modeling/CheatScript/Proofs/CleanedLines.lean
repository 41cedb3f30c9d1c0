import CheatScript.Source
import CheatScript.Proofs.SplitText
import CheatScript.Proofs.TrimmedText
import Mathlib.Data.List.TakeWhile

/-!
# Proofs: cleaned lines stay aligned

Every step of the clean-up deletes bytes, and none deletes a newline: a literal is kept as it is, a
block comment leaves its newlines behind and a line comment the one that ends it. So the lines of
the cleaned text are those of the text with bytes deleted, one for one.
-/

namespace CheatScript

theorem Space.trim_sublist (s : Bytes) : List.Sublist (trim s) s := by
  have hend : trim s <+: trimStart s := trimEnd_prefix _
  exact hend.sublist.trans (dropForms_suffix s).sublist

namespace Source

open Bytes (Thinned)

theorem thinned_blockComment {s : Bytes} {n : Nat} {new : Bytes}
    (h : blockComment? s = some (n, new)) : 0 < n ∧ Thinned Byte.newline new (s.take n) := by
  cases s with
  | nil => cases h
  | cons c s =>
    rw [blockComment?] at h
    split at h
    · obtain ⟨rfl, rfl⟩ := Prod.mk.inj (Option.some.inj h)
      exact ⟨Nat.succ_pos _, Thinned.refl _ _⟩
    · split at h
      · obtain ⟨rfl, rfl⟩ := Prod.mk.inj (Option.some.inj h)
        exact ⟨Nat.succ_pos _, Thinned.filter (by simp) _⟩
      · cases h

/-! ## Line comments -/

/-- Whether a text is what can follow a line: nothing, or a newline and more. -/
inductive FollowsLine : Bytes → Prop
  | nothing : FollowsLine []
  | newline (rest : Bytes) : FollowsLine (Byte.newline :: rest)

theorem exists_line (s : Bytes) :
    ∃ line rest, s = line ++ rest ∧ Byte.newline ∉ line ∧ FollowsLine rest := by
  induction s with
  | nil => exact ⟨[], [], rfl, List.not_mem_nil, .nothing⟩
  | cons c s ih =>
    by_cases hc : c = Byte.newline
    · exact ⟨[], c :: s, rfl, List.not_mem_nil, hc ▸ .newline s⟩
    · obtain ⟨line, rest, rfl, hline, hrest⟩ := ih
      refine ⟨c :: line, rest, rfl, ?_, hrest⟩
      rw [List.mem_cons, not_or]
      exact ⟨Ne.symm hc, hline⟩

theorem slashes_append (line rest : Bytes) :
    Byte.slash :: Byte.slash :: (line ++ rest) =
      (Byte.slash :: Byte.slash :: (line ++ rest.take 1)) ++ rest.drop 1 := by
  rw [List.cons_append, List.cons_append, List.append_assoc, List.take_append_drop]

/-- A line comment ends with the newline behind its line, if there is one. -/
theorem lineComment?_slashes {line rest : Bytes} (hline : Byte.newline ∉ line)
    (hrest : FollowsLine rest) : lineComment? (Byte.slash :: Byte.slash :: (line ++ rest)) =
      some ((Byte.slash :: Byte.slash :: (line ++ rest.take 1)).length, rest.take 1) := by
  have hall : ∀ c ∈ Byte.slash :: line, (c != Byte.newline) = true := by
    intro c hc
    rw [bne_iff_ne]
    rintro rfl
    rcases List.mem_cons.1 hc with hslash | hmem
    · cases hslash
    · exact hline hmem
  have htake : (Byte.slash :: (line ++ rest)).takeWhile (· != Byte.newline) = Byte.slash ::
      line := by
    rw [← List.cons_append, List.takeWhile_append_of_pos hall]
    cases hrest <;> simp
  have hdrop : (Byte.slash :: (line ++ rest)).dropWhile (· != Byte.newline) = rest := by
    rw [← List.cons_append, List.dropWhile_append_of_pos hall]
    cases hrest <;> simp
  rw [lineComment?, if_neg (by decide), if_pos (by rfl), htake, hdrop]
  cases hrest <;> simp

theorem thinned_lineComment {s : Bytes} {n : Nat} {new : Bytes}
    (h : lineComment? s = some (n, new)) : 0 < n ∧ Thinned Byte.newline new (s.take n) := by
  cases s with
  | nil => cases h
  | cons c s =>
    by_cases hmarks : c = Byte.slash ∧ s.head? = some Byte.slash
    · obtain ⟨rfl, hhead⟩ := hmarks
      obtain ⟨s, rfl⟩ := List.head?_eq_some_iff.1 hhead
      obtain ⟨line, rest, rfl, hline, hrest⟩ := exists_line s
      rw [lineComment?_slashes hline hrest] at h
      obtain ⟨rfl, rfl⟩ := Prod.mk.inj (Option.some.inj h)
      have hfree : Byte.newline ∉ Byte.slash :: Byte.slash :: line :=
        List.not_mem_cons_of_ne_of_not_mem (by decide)
          (List.not_mem_cons_of_ne_of_not_mem (by decide) hline)
      rw [slashes_append line rest, List.take_left]
      exact ⟨Nat.succ_pos _, (Thinned.nil hfree).append (Thinned.refl _ _)⟩
    · rw [lineComment?] at h
      split at h
      · obtain ⟨rfl, rfl⟩ := Prod.mk.inj (Option.some.inj h)
        exact ⟨Nat.succ_pos _, Thinned.refl _ _⟩
      · rw [if_neg (by simpa using hmarks)] at h
        cases h

theorem thinned_stripComments (s : Bytes) : Thinned Byte.newline (stripComments s) s :=
  (Thinned.of_edit (fun _ _ _ => thinned_lineComment) _).trans
    (Thinned.of_edit (fun _ _ _ => thinned_blockComment) s)

/-- The lines of a cleaned text are the lines that were given with bytes deleted, one for one. -/
theorem cleanUp_aligned {lines : List Bytes} (hne : lines ≠ [])
    (hfree : ∀ l ∈ lines, Byte.newline ∉ l) : List.Forall₂ List.Sublist (cleanUp lines) lines := by
  have htabs : Thinned Byte.newline ((Bytes.join [Byte.newline] lines).filter (· != Byte.tab))
      (Bytes.join [Byte.newline] lines) := Thinned.filter rfl _
  have hlines := ((thinned_stripComments _).trans htabs).forall₂_split
  rw [Bytes.split_join hne hfree] at hlines
  rw [cleanUp, List.forall₂_map_left_iff]
  exact hlines.imp fun out l hout => (Space.trim_sublist out).trans hout

/-- A comment with a second opening in it, a literal over two lines with slashes in it, and a
comment that is never closed. -/
def tangledLines : List Bytes :=
  [ascii "\tW8 0 1 /* a /* b", ascii "*/ WS 0x100 \"x", ascii "// y\" // z", ascii "W8 0 2 /* open",
    ascii "W8 0 3"]

theorem cleanUp_aligned_tangled : tangledLines ≠ [] ∧ (∀ l ∈ tangledLines, Byte.newline ∉ l) ∧
    cleanUp tangledLines =
      [ascii "W8 0 1", ascii "WS 0x100 \"x", ascii "// y\"", ascii "W8 0 2", ascii ""] ∧
    List.Forall₂ List.Sublist (cleanUp tangledLines) tangledLines :=
  ⟨by decide, by decide, by decide, cleanUp_aligned (by decide) (by decide)⟩

end Source

end CheatScript
