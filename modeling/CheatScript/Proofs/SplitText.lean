import CheatScript.Text.Bytes
import Mathlib.Data.List.Forall2
import Mathlib.Tactic.Common

/-!
# Proofs: texts in pieces

How splitting, joining and editing a byte string go with putting strings together, and what an edit
that only deletes does to the lines of a text.
-/

namespace CheatScript.Bytes

variable {sep : UInt8} {s t : Bytes}

/-! ## Splitting -/

theorem length_split (sep : UInt8) (s : Bytes) : (split sep s).length = List.count sep s + 1 := by
  induction s with
  | nil => rfl
  | cons c s ih =>
    by_cases hc : c = sep
    · simp [split, hc, ih]
    · rw [split, if_neg hc, List.count_cons_of_ne hc]
      cases hs : split sep s with
      | nil => simp [hs] at ih
      | cons piece pieces => simpa [hs] using ih

theorem split_ne_nil (sep : UInt8) (s : Bytes) : split sep s ≠ [] := by
  intro hnil
  have hlength := length_split sep s
  rw [hnil] at hlength
  cases hlength

theorem split_cons_self (sep : UInt8) (s : Bytes) : split sep (sep :: s) = [] :: split sep s := by
  rw [split, if_pos rfl]

theorem split_cons_of_ne {c : UInt8} (hc : c ≠ sep) (s : Bytes) :
    split sep (c :: s) = (split sep s).modifyHead (c :: ·) := by
  rw [split, if_neg hc]
  cases hs : split sep s with
  | nil => exact absurd hs (split_ne_nil sep s)
  | cons piece pieces => rfl

/-- The pieces of a split text with the separator in front of each are the text after a
separator. -/
theorem flatMap_split (sep : UInt8) (s : Bytes) : (split sep s).flatMap (sep :: ·) = sep :: s := by
  induction s with
  | nil => rfl
  | cons c s ih =>
    by_cases hc : c = sep
    · rw [split, if_pos hc, List.flatMap_cons, ih, hc]
      rfl
    · rw [split, if_neg hc]
      cases hs : split sep s with
      | nil => simp [hs] at ih
      | cons piece pieces =>
        rw [hs, List.flatMap_cons, List.cons_append, List.cons.injEq] at ih
        simp only [List.flatMap_cons, List.cons_append, ih.2]

theorem split_append_cons (sep : UInt8) (s rest : Bytes) :
    split sep (s ++ sep :: rest) = split sep s ++ split sep rest := by
  induction s with
  | nil => exact split_cons_self sep rest
  | cons c s ih =>
    by_cases hc : c = sep
    · rw [hc, List.cons_append, split_cons_self, ih, split_cons_self]
      rfl
    · rw [List.cons_append, split_cons_of_ne hc, ih, split_cons_of_ne hc]
      obtain ⟨piece, pieces, hs⟩ := List.exists_cons_of_ne_nil (split_ne_nil sep s)
      rw [hs]
      rfl

theorem not_mem_of_mem_split {piece : Bytes} (h : piece ∈ split sep s) : sep ∉ piece := by
  induction s generalizing piece with
  | nil =>
    obtain rfl := List.mem_singleton.1 h
    exact List.not_mem_nil
  | cons c s ih =>
    by_cases hc : c = sep
    · rw [hc, split_cons_self] at h
      rcases List.mem_cons.1 h with rfl | hmem
      · exact List.not_mem_nil
      · exact ih hmem
    · obtain ⟨first, pieces, hs⟩ := List.exists_cons_of_ne_nil (split_ne_nil sep s)
      rw [split_cons_of_ne hc, hs, List.modifyHead_cons] at h
      rw [hs] at ih
      rcases List.mem_cons.1 h with rfl | hmem
      · exact List.not_mem_cons_of_ne_of_not_mem (Ne.symm hc) (ih List.mem_cons_self)
      · exact ih (List.mem_cons_of_mem first hmem)

/-- Bytes before the first separator go to the front of the first piece. -/
theorem split_append_of_not_mem (h : sep ∉ s) (rest : Bytes) :
    split sep (s ++ rest) = (split sep rest).modifyHead (s ++ ·) := by
  obtain ⟨piece, pieces, hrest⟩ := List.exists_cons_of_ne_nil (split_ne_nil sep rest)
  rw [hrest]
  induction s with
  | nil => exact hrest
  | cons c s ih =>
    obtain ⟨hc, hs⟩ := not_or.1 (List.mem_cons.not.1 h)
    rw [List.cons_append, split_cons_of_ne (Ne.symm hc), ih hs]
    rfl

/-- The first piece is what stands before the first separator. -/
theorem eq_append_of_split {piece : Bytes} {pieces : List Bytes}
    (h : split sep s = piece :: pieces) : s = piece ++ pieces.flatMap (sep :: ·) := by
  have hs := flatMap_split sep s
  rw [h, List.flatMap_cons, List.cons_append] at hs
  exact (List.cons.inj hs).2.symm

theorem split_concat {c : UInt8} (hc : c ≠ sep) (s : Bytes) :
    ∃ init last, split sep s = init ++ [last] ∧ split sep (s ++ [c]) = init ++ [last ++ [c]] := by
  induction s with
  | nil => exact ⟨[], [], rfl, by rw [List.nil_append, split_cons_of_ne hc]; rfl⟩
  | cons b s ih =>
    obtain ⟨init, last, hs, hsc⟩ := ih
    by_cases hb : b = sep
    · refine ⟨[] :: init, last, ?_, ?_⟩
      · rw [hb, split_cons_self, hs, List.cons_append]
      · rw [hb, List.cons_append, split_cons_self, hsc, List.cons_append]
    · rw [List.cons_append, split_cons_of_ne hb, split_cons_of_ne hb, hs, hsc]
      cases init with
      | nil => exact ⟨[], b :: last, rfl, rfl⟩
      | cons first init => exact ⟨(b :: first) :: init, last, rfl, rfl⟩

theorem split_of_not_mem (h : sep ∉ s) : split sep s = [s] := by
  induction s with
  | nil => rfl
  | cons c s ih =>
    rw [List.mem_cons, not_or] at h
    rw [split, if_neg (Ne.symm h.1), ih h.2]

theorem split_append (h : sep ∉ s) (rest : Bytes) :
    split sep (s ++ sep :: rest) = s :: split sep rest := by
  rw [split_append_cons, split_of_not_mem h]
  rfl

/-! ## Joining -/

theorem join_cons (sep : UInt8) (s : Bytes) (l : List Bytes) :
    join [sep] (s :: l) = s ++ l.flatMap (sep :: ·) := by
  induction l generalizing s with
  | nil => simp [join]
  | cons t l ih => simp [join, ih]

theorem join_append (sep : UInt8) {front : List Bytes} (h : front ≠ []) (back : List Bytes) :
    join [sep] (front ++ back) = join [sep] front ++ back.flatMap (sep :: ·) := by
  obtain ⟨s, front, rfl⟩ := List.exists_cons_of_ne_nil h
  rw [List.cons_append, join_cons, join_cons, List.flatMap_append, List.append_assoc]

theorem join_concat_append (sep : UInt8) (front : List Bytes) (s e : Bytes) :
    join [sep] (front ++ [s ++ e]) = join [sep] (front ++ [s]) ++ e := by
  cases front with
  | nil => rfl
  | cons t front =>
    rw [join_append sep (List.cons_ne_nil t front), join_append sep (List.cons_ne_nil t front)]
    simp

/-- Lines without newlines are what a text of them is split into. -/
theorem split_join {pieces : List Bytes} (hne : pieces ≠ []) (h : ∀ s ∈ pieces, sep ∉ s) :
    split sep (join [sep] pieces) = pieces := by
  induction pieces with
  | nil => exact absurd rfl hne
  | cons s rest ih =>
    have hs := h s List.mem_cons_self
    cases rest with
    | nil => exact split_of_not_mem hs
    | cons t rest =>
      rw [join, List.append_assoc, List.singleton_append, split_append hs,
        ih (List.cons_ne_nil _ _) fun s hs => h s (List.mem_cons_of_mem _ hs)]
      simp

/-! ## Editing -/

section Edit

variable {next : Bytes → Option (Nat × Bytes)}

theorem editFrom_skip (next : Bytes → Option (Nat × Bytes)) (skip : Nat) (s : Bytes) :
    editFrom next skip s = edit next (s.drop skip) := by
  induction skip generalizing s with
  | zero => rfl
  | succ skip ih =>
    cases s with
    | nil => rfl
    | cons c s => rw [editFrom, ih, List.drop_succ_cons]

theorem edit_keep {c : UInt8} (h : next (c :: s) = none) :
    edit next (c :: s) = c :: edit next s := by
  rw [edit, editFrom, h]
  rfl

theorem edit_match {part new : Bytes} (hne : part ≠ [])
    (h : next (part ++ s) = some (part.length, new)) :
    edit next (part ++ s) = new ++ edit next s := by
  obtain ⟨c, part, rfl⟩ := List.exists_cons_of_ne_nil hne
  rw [List.cons_append] at h ⊢
  rw [edit, editFrom, h]
  simp only [List.length_cons, Nat.add_sub_cancel]
  rw [editFrom_skip, List.drop_left]

theorem edit_whole {new : Bytes} (hne : s ≠ []) (h : next s = some (s.length, new)) :
    edit next s = new := by
  have hfound : next (s ++ []) = some (s.length, new) := by rwa [List.append_nil]
  have hmatch := edit_match hne hfound
  rwa [List.append_nil, edit, edit, editFrom, List.append_nil] at hmatch

/-- Whether the matches in a text are the same whatever follows it, if its first byte is allowed. -/
inductive Settled (next : Bytes → Option (Nat × Bytes)) (allowed : Option UInt8 → Prop) :
    Bytes → Prop
  | nil : Settled next allowed []
  | keep {c : UInt8} {s : Bytes} (hkeep : ∀ x, allowed x.head? → next (c :: (s ++ x)) = none)
      (hs : Settled next allowed s) : Settled next allowed (c :: s)
  | part {part new s : Bytes} (hne : part ≠ [])
      (hpart : ∀ x, next (part ++ x) = some (part.length, new)) (hs : Settled next allowed s) :
      Settled next allowed (part ++ s)

/-- A settled text is edited on its own. -/
theorem Settled.edit_append {allowed : Option UInt8 → Prop} (h : Settled next allowed s)
    (hnone : allowed none) {x : Bytes} (hx : allowed x.head?) :
    edit next (s ++ x) = edit next s ++ edit next x := by
  induction h with
  | nil => rfl
  | @keep c s hkeep _ ih =>
    have halone : next (c :: s) = none := by
      have hnil := hkeep [] hnone
      rwa [List.append_nil] at hnil
    rw [List.cons_append, edit_keep (hkeep x hx), ih, edit_keep halone, List.cons_append]
  | part hne hpart _ ih =>
    rw [List.append_assoc, edit_match hne (hpart _), ih, edit_match hne (hpart _),
      List.append_assoc]

end Edit

/-! ## Deleting -/

/-- Whether a text is another one with some bytes deleted, but none of the bytes `sep`. -/
structure Thinned (sep : UInt8) (s t : Bytes) : Prop where
  sublist : List.Sublist s t
  count : List.count sep s = List.count sep t

namespace Thinned

theorem refl (sep : UInt8) (s : Bytes) : Thinned sep s s := ⟨List.Sublist.refl s, rfl⟩

theorem nil (h : sep ∉ s) : Thinned sep [] s where
  sublist := List.nil_sublist s
  count := (List.count_eq_zero_of_not_mem h).symm

theorem trans {u : Bytes} (h : Thinned sep s t) (h' : Thinned sep t u) : Thinned sep s u :=
  ⟨h.sublist.trans h'.sublist, h.count.trans h'.count⟩

theorem append {s' t' : Bytes} (h : Thinned sep s t) (h' : Thinned sep s' t') :
    Thinned sep (s ++ s') (t ++ t') where
  sublist := h.sublist.append h'.sublist
  count := by rw [List.count_append, List.count_append, h.count, h'.count]

theorem filter {p : UInt8 → Bool} (hp : p sep = true) (s : Bytes) : Thinned sep (s.filter p) s where
  sublist := List.filter_sublist
  count := List.count_filter hp

/-- An edit whose new texts are thinned matches thins the text. -/
theorem of_edit {next : Bytes → Option (Nat × Bytes)}
    (h : ∀ s n new, next s = some (n, new) → 0 < n ∧ Thinned sep new (s.take n)) (s : Bytes) :
    Thinned sep (edit next s) s := by
  have hskip : ∀ skip, Thinned sep (editFrom next skip s) (s.drop skip) := by
    induction s with
    | nil =>
      intro skip
      rw [List.drop_nil]
      exact refl sep []
    | cons c s ih =>
      intro skip
      cases skip with
      | succ skip => exact ih skip
      | zero =>
        rw [editFrom, List.drop_zero]
        cases hnext : next (c :: s) with
        | none => exact append (refl sep [c]) (ih 0)
        | some found =>
          obtain ⟨n, new⟩ := found
          obtain ⟨hpos, hnew⟩ := h _ _ _ hnext
          obtain ⟨n, rfl⟩ : ∃ m, n = m + 1 := ⟨n - 1, by omega⟩
          have hsplit := append hnew (ih n)
          rwa [List.take_succ_cons, List.cons_append, List.take_append_drop] at hsplit
  exact hskip 0

theorem forall₂_modifyHead {l l' : List Bytes} {f g : Bytes → Bytes}
    (h : List.Forall₂ List.Sublist l l')
    (hfg : ∀ a b, List.Sublist a b → List.Sublist (f a) (g b)) :
    List.Forall₂ List.Sublist (l.modifyHead f) (l'.modifyHead g) := by
  cases h with
  | nil => exact .nil
  | cons hfirst hrest => exact .cons (hfg _ _ hfirst) hrest

/-- The lines of a thinned text are lines of the text with bytes deleted, one for one. -/
theorem forall₂_split (h : Thinned sep s t) :
    List.Forall₂ List.Sublist (split sep s) (split sep t) := by
  obtain ⟨hsublist, hcount⟩ := h
  induction hsublist with
  | slnil => exact .cons (List.Sublist.refl _) .nil
  | @cons s t a hst ih =>
    have hle := hst.count_le sep
    have ha : a ≠ sep := by
      rintro rfl
      rw [List.count_cons_self] at hcount
      omega
    rw [List.count_cons_of_ne ha] at hcount
    have hlines : List.Forall₂ List.Sublist ((split sep s).modifyHead id)
        ((split sep t).modifyHead (a :: ·)) :=
      forall₂_modifyHead (ih hcount) fun _ _ hab => hab.cons a
    rwa [List.modifyHead_id, ← split_cons_of_ne ha] at hlines
  | @cons_cons s t a hst ih =>
    by_cases ha : a = sep
    · subst ha
      rw [List.count_cons_self, List.count_cons_self, Nat.add_right_cancel_iff] at hcount
      rw [split_cons_self, split_cons_self]
      exact .cons (List.Sublist.refl _) (ih hcount)
    · rw [List.count_cons_of_ne ha, List.count_cons_of_ne ha] at hcount
      rw [split_cons_of_ne ha, split_cons_of_ne ha]
      exact forall₂_modifyHead (ih hcount) fun _ _ hab => hab.cons_cons a

end Thinned

end CheatScript.Bytes
