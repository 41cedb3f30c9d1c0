import CheatScript.Proofs.PrintedLines
import CheatScript.Proofs.TextReading

/-!
# Proofs: the scanner loses nothing

The readings of a token are tried by walking over a text and backing off, and each matcher only says
how many bytes it takes. Whatever the text is, that is at least one byte and not more than there
are. So the tokens are parts of the text that follow one another, and the bytes between them are
those that start no word: blanks, `(`, `+` and `,`.
-/

namespace CheatScript

theorem Bytes.eq_append_of_cut? {c : UInt8} {s l r : Bytes} (h : cut? c s = some (l, r)) :
    s = l ++ c :: r := by
  induction s generalizing l with
  | nil => cases h
  | cons b s ih =>
    rw [cut?] at h
    split at h
    · next hb =>
      obtain ⟨rfl, rfl⟩ := Prod.mk.inj (Option.some.inj h)
      rw [hb, List.nil_append]
    · obtain ⟨⟨l', r'⟩, hcut, hpair⟩ := Option.map_eq_some_iff.1 h
      obtain ⟨rfl, rfl⟩ := Prod.mk.inj hpair
      rw [ih hcut, List.cons_append]

theorem Bytes.eq_append_of_cutLast? {c : UInt8} {s l r : Bytes} (h : cutLast? c s = some (l, r)) :
    s = l ++ c :: r := by
  obtain ⟨⟨r', l'⟩, hcut, hpair⟩ := Option.map_eq_some_iff.1 h
  obtain ⟨rfl, rfl⟩ := Prod.mk.inj hpair
  rw [← List.reverse_reverse s, eq_append_of_cut? hcut, List.reverse_append, List.reverse_cons,
    List.append_assoc, List.singleton_append]

/-- Every possible end of a quoted string lies behind its opening quote and inside the text. -/
theorem Quote.mem_quoteEnds {e : Nat} {s : Bytes} (h : e ∈ quoteEnds s) :
    0 < e ∧ e ≤ s.length + 1 := by
  have hends : ∀ e ∈ (walk 1 s {}).ends, 0 < e ∧ e ≤ s.length + 1 := by
    refine walk_preserves (P := fun w => ∀ e ∈ w.ends, 0 < e ∧ e ≤ s.length + 1) 1 s
      (fun w q _ hw => hw) (fun w q hlow hhigh hw => ?_) fun e he => absurd he List.not_mem_nil
    rw [Walk.addEnd]
    split
    · exact hw
    · exact List.forall_mem_cons.2 ⟨by omega, hw⟩
  exact hends e (List.mem_reverse.1 h)

namespace Token

variable {s : Bytes} {n : Nat}

/-! ## Runs -/

theorem firstDown_eq_some {f : Nat → Option Nat} {most : Nat} (h : firstDown f most = some n) :
    ∃ k ≤ most, f k = some n := by
  induction most with
  | zero => exact ⟨0, Nat.le_refl 0, h⟩
  | succ most ih =>
    rcases Option.or_eq_some_iff.1 h with hfirst | ⟨-, hrest⟩
    · exact ⟨most + 1, Nat.le_refl _, hfirst⟩
    · obtain ⟨k, hk, hn⟩ := ih hrest
      exact ⟨k, Nat.le_succ_of_le hk, hn⟩

theorem shortestRun_eq_some {stop : UInt8 → Bool} {ok : Bytes → Bool}
    (h : shortestRun stop ok s = some n) : 0 < n ∧ n ≤ s.length ∧ ok (s.drop n) = true := by
  induction s generalizing n with
  | nil => cases h
  | cons c s ih =>
    rw [shortestRun] at h
    split at h
    · cases h
    · split at h
      · next hok =>
        obtain rfl := Option.some.inj h
        exact ⟨Nat.one_pos, Nat.succ_pos _, hok⟩
      · obtain ⟨m, hm, rfl⟩ := Option.map_eq_some_iff.1 h
        obtain ⟨-, hle, hok⟩ := ih hm
        exact ⟨Nat.succ_pos m, Nat.succ_le_succ hle, hok⟩

/-- The text of a comma term takes at least one byte behind the blanks, and stops where it may. -/
theorem commaText?_eq_some {ok : Bytes → Bool} (h : commaText? ok s = some n) :
    0 < n ∧ n ≤ s.length ∧ ok (s.drop n) = true := by
  obtain ⟨k, -, hk⟩ := firstDown_eq_some h
  obtain ⟨m, hm, rfl⟩ := Option.map_eq_some_iff.1 hk
  obtain ⟨hpos, hle, hok⟩ := shortestRun_eq_some hm
  rw [List.length_drop] at hle
  rw [List.drop_drop, Nat.add_comm] at hok
  exact ⟨by omega, by omega, hok⟩

/-! ## Matchers -/

/-- Whether every token that a matcher finds takes at least one byte, and no more than there are. -/
def Fits (next : Bytes → Option Nat) : Prop := ∀ s, ∀ n ∈ next s, 0 < n ∧ n ≤ s.length

theorem Fits.or {next next' : Bytes → Option Nat} (h : Fits next) (h' : Fits next') :
    Fits fun s => (next s).or (next' s) := by
  intro s n hn
  rcases Option.or_eq_some_iff.1 hn with hfirst | ⟨-, hsecond⟩
  · exact h s n hfirst
  · exact h' s n hsecond

theorem fits_group : Fits group? := by
  intro s n hn
  cases s with
  | nil => cases hn
  | cons c s =>
    rw [group?] at hn
    split at hn
    · obtain ⟨⟨inside, rest⟩, hcut, rfl⟩ := Option.map_eq_some_iff.1 hn
      have hlength := congrArg List.length (Bytes.eq_append_of_cutLast? hcut)
      rw [List.length_append, List.length_cons] at hlength
      rw [List.length_cons]
      exact ⟨Nat.succ_pos _, by simp only; omega⟩
    · cases hn

theorem fits_quoted : Fits quoted? := by
  intro s n hn
  cases s with
  | nil => cases hn
  | cons c s =>
    rw [quoted?] at hn
    split at hn
    · exact Quote.mem_quoteEnds (List.mem_of_mem_head? hn)
    · cases hn

theorem fits_plusText : Fits plusText? := by
  intro s n hn
  cases s with
  | nil => cases hn
  | cons c s =>
    rw [plusText?] at hn
    split at hn
    · exact Quote.mem_quoteEnds (List.mem_of_find?_eq_some hn)
    · obtain ⟨hpos, hle, -⟩ := shortestRun_eq_some hn
      exact ⟨hpos, hle⟩

theorem fits_plusTerm (bare : Bool) : Fits (plusTerm? bare) := by
  intro s n hn
  cases s with
  | nil => cases hn
  | cons c s =>
    rw [plusTerm?] at hn
    split at hn
    · obtain ⟨m, hm, rfl⟩ := Option.map_eq_some_iff.1 hn
      obtain ⟨k, hk, hfound⟩ := firstDown_eq_some hm
      have hblanks : (s.takeWhile Byte.isBlank).length ≤ s.length :=
        (List.takeWhile_sublist _).length_le
      rw [List.length_cons]
      rcases Option.or_eq_some_iff.1 hfound with htext | ⟨-, hbare⟩
      · obtain ⟨l, hl, rfl⟩ := Option.map_eq_some_iff.1 htext
        have hle := (fits_plusText _ l hl).2
        rw [List.length_drop] at hle
        omega
      · split at hbare
        · obtain rfl := Option.some.inj hbare
          omega
        · cases hbare
    · cases hn

theorem fits_commaTerm : Fits commaTerm? := by
  intro s n hn
  cases s with
  | nil => cases hn
  | cons c s =>
    rw [commaTerm?] at hn
    split at hn
    · obtain ⟨m, hm, rfl⟩ := Option.map_eq_some_iff.1 hn
      rw [List.length_cons]
      rcases Option.or_eq_some_iff.1 hm with hquoted | ⟨-, hplain⟩
      · cases s with
        | nil => cases hquoted
        | cons d s =>
          simp only at hquoted
          split at hquoted
          · obtain ⟨l, hl, rfl⟩ := Option.map_eq_some_iff.1 hquoted
            obtain ⟨-, hle, hclose⟩ := commaText?_eq_some hl
            -- The closing quote is still to come behind the run.
            have hlt : l < s.length := by
              by_contra hend
              rw [List.drop_of_length_le (by omega)] at hclose
              cases hclose
            rw [List.length_cons]
            omega
          · cases hquoted
      · have hle := (commaText?_eq_some hplain).2.1
        omega
    · cases hn

theorem fits_word : Fits word? := by
  intro s n hn
  have hle : (s.takeWhile isWordByte).length ≤ s.length := (List.takeWhile_sublist _).length_le
  rw [word?] at hn
  split at hn
  · cases hn
  · next hlength =>
    obtain rfl := Option.some.inj hn
    omega

theorem fits_line : Fits line? :=
  (((fits_group.or fits_quoted).or (fits_plusTerm true)).or fits_commaTerm).or fits_word

theorem fits_term : Fits term? := (fits_plusTerm false).or fits_word

/-! ## Bytes between tokens -/

/-- Whether a byte may stand between tokens: a blank, `(`, `+` or `,`. -/
def isPassed (c : UInt8) : Bool :=
  Byte.isBlank c || c == Byte.opening || c == Byte.plus || c == Byte.comma

theorem isPassed_of_word?_eq_none {c : UInt8} (h : word? (c :: s) = none) : isPassed c = true := by
  have hword : isWordByte c = false := by
    cases hc : isWordByte c with
    | false => rfl
    | true =>
      rw [word?, List.takeWhile_cons_of_pos hc] at h
      cases h
  grind [isWordByte, isPassed]

/-- Whether a matcher finds a token at every byte that may not stand between tokens. -/
def Thorough (next : Bytes → Option Nat) : Prop := ∀ c s, next (c :: s) = none → isPassed c = true

theorem thorough_line : Thorough line? :=
  fun _ _ h => isPassed_of_word?_eq_none (Option.or_eq_none_iff.1 h).2

theorem thorough_term : Thorough term? :=
  fun _ _ h => isPassed_of_word?_eq_none (Option.or_eq_none_iff.1 h).2

/-! ## Scanning -/

/-- Whether a text consists of tokens in order, none of them empty, and of bytes between them that
may stand there. -/
inductive Covers : (tokens : List Bytes) → Bytes → Prop
  | nil : Covers [] []
  | pass {tokens : List Bytes} {c : UInt8} {s : Bytes} (hc : isPassed c = true)
      (hs : Covers tokens s) : Covers tokens (c :: s)
  | token {token : Bytes} {tokens : List Bytes} {s : Bytes} (hne : token ≠ [])
      (hs : Covers tokens s) : Covers (token :: tokens) (token ++ s)

/-- One round of the scanner: the token at a byte is cut off, and the rest is scanned behind it. -/
theorem scanFrom_of_eq_some {next : Bytes → Option Nat} {c : UInt8} (hpos : 0 < n)
    (h : next (c :: s) = some n) :
    scanFrom next 0 (c :: s) = (c :: s).take n :: scanFrom next 0 ((c :: s).drop n) := by
  obtain ⟨m, rfl⟩ : ∃ m, n = m + 1 := ⟨n - 1, by omega⟩
  rw [scanFrom, h]
  simp only [Nat.add_sub_cancel]
  rw [scanFrom_skip, List.drop_succ_cons]

theorem covers_scanFrom {next : Bytes → Option Nat} (hfits : Fits next) (hthorough : Thorough next)
    (s : Bytes) : Covers (scanFrom next 0 s) s := by
  induction hlength : s.length using Nat.strongRecOn generalizing s with
  | ind k ih =>
    subst hlength
    cases s with
    | nil => exact .nil
    | cons c s =>
      cases hnext : next (c :: s) with
      | none =>
        rw [scanFrom, hnext]
        exact .pass (hthorough c s hnext) (ih _ (Nat.lt_succ_self _) s rfl)
      | some n =>
        obtain ⟨hpos, hle⟩ := hfits _ n hnext
        have hshort : ((c :: s).drop n).length < (c :: s).length := by
          rw [List.length_drop]
          omega
        have hne : (c :: s).take n ≠ [] :=
          List.ne_nil_of_length_pos (by rw [List.length_take]; omega)
        have hrest := Covers.token hne (ih _ hshort _ rfl)
        rwa [List.take_append_drop, ← scanFrom_of_eq_some hpos hnext] at hrest

/-- **The scanner loses and duplicates nothing.** The tokens of a line, and the words and plus terms
of an argument, are not empty and stand in the text in their order, one behind the other, with
nothing but blanks, `(`, `+` and `,` between them. In both ways of scanning every token that is
found, at any place of any text, ends behind its start and inside the text. -/
theorem scan_covers (s : Bytes) :
    (Covers (scan s) s ∧ Covers (splitTerms s) s) ∧ Fits line? ∧ Fits term? :=
  ⟨⟨covers_scanFrom fits_line thorough_line s, covers_scanFrom fits_term thorough_term s⟩,
    fits_line, fits_term⟩

end Token

end CheatScript
