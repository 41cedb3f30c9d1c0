import CheatScript.Function
import CheatScript.Proofs.ConditionLines

/-!
# Proofs: lines with a function header

Every byte of a word is in some token of its line, so a line whose only token is a word has no
second word in it. A function header has two words with a blank between them: a line with a header
that starts with FUNCTION always has an argument.
-/

namespace CheatScript

/-! ## Lines of one token -/

namespace Token

theorem isWordByte_of_line?_eq_none {c : UInt8} {s : Bytes} (h : line? (c :: s) = none) :
    isWordByte c = false := by
  cases hc : isWordByte c with
  | false => rfl
  | true =>
    simp [line?, word?, hc] at h

/-- Where no token follows, every byte is passed over. -/
theorem scanFrom_eq_nil {skip : Nat} {s : Bytes} (h : scanFrom line? skip s = []) :
    ∀ c ∈ s.drop skip, isWordByte c = false := by
  fun_induction scanFrom line? skip s with
  | case1 => simp
  | case2 skip c s ih => exact ih h
  | case3 c s n hline ih => cases h
  | case4 c s hline ih => exact List.forall_mem_cons.2 ⟨isWordByte_of_line?_eq_none hline, ih h⟩

/-- The only token of a line stands between bytes that are passed over. -/
theorem exists_of_scan_eq_singleton {s token : Bytes} (h : scan s = [token]) (hne : token ≠ []) :
    ∃ front back n, s = front ++ back ∧ (∀ c ∈ front, isWordByte c = false) ∧ line? back = some n ∧
      token = back.take n ∧ ∀ c ∈ back.drop n, isWordByte c = false := by
  induction s with
  | nil => cases h
  | cons c s ih =>
    rw [scan, scanFrom] at h
    cases hline : line? (c :: s) with
    | none =>
      rw [hline] at h
      obtain ⟨front, back, n, rfl, hfront, hrest⟩ := ih h
      refine ⟨c :: front, back, n, rfl, ?_, hrest⟩
      exact List.forall_mem_cons.2 ⟨isWordByte_of_line?_eq_none hline, hfront⟩
    | some n =>
      rw [hline] at h
      obtain ⟨htoken, hrest⟩ := List.cons.inj h
      refine ⟨[], c :: s, n, rfl, by simp, hline, htoken.symm, ?_⟩
      cases n with
      | zero => exact absurd htoken.symm hne
      | succ n => exact scanFrom_eq_nil hrest

/-- The bytes that tokens other than words begin with. -/
def signs : List UInt8 := [Byte.opening, Byte.quote, Byte.plus, Byte.comma]

theorem line?_eq_some {c : UInt8} {s : Bytes} {n : Nat} (h : line? (c :: s) = some n) :
    c ∈ signs ∨ (c :: s).take n = (c :: s).takeWhile isWordByte := by
  by_cases hc : c ∈ signs
  · exact .inl hc
  · simp only [signs, List.mem_cons, List.not_mem_nil, or_false, not_or] at hc
    obtain ⟨hopening, hquote, hplus, hcomma⟩ := hc
    have hword : word? (c :: s) = some n := by
      simpa [line?, group?, quoted?, plusTerm?, commaTerm?, hopening, hquote, hplus, hcomma] using h
    have hlength : n = ((c :: s).takeWhile isWordByte).length := by
      unfold word? at hword
      split at hword
      · cases hword
      · next hlength => exact (hlength.trans (Option.some.inj hword)).symm
    exact .inr (hlength ▸ (List.prefix_iff_eq_take.1 (List.takeWhile_prefix isWordByte)).symm)

theorem head?_upper {c : UInt8} (h : c ∈ signs) (s : Bytes) :
    (Bytes.upper (c :: s)).head? = some c := by
  unfold Bytes.upper
  simp only [signs, List.mem_cons, List.not_mem_nil, or_false] at h
  rcases h with rfl | rfl | rfl | rfl <;> split <;> rfl

theorem dropWhile_append_cons {p : UInt8 → Bool} {c : UInt8} (h : p c = false)
    (front rest : Bytes) : (front ++ c :: rest).dropWhile p = front.dropWhile p ++ c :: rest := by
  rw [List.dropWhile_append]
  split
  · next hempty => rw [List.isEmpty_iff.1 hempty, List.dropWhile_cons_of_neg (by simp [h])]; rfl
  · rfl

/-- The only token of a line is a word, if its upper case does not begin with a sign. -/
theorem isWordByte_of_scan_eq_singleton {s token : Bytes} (h : scan s = [token]) (hne : token ≠ [])
    (hupper : ∀ c ∈ (Bytes.upper token).head?, c ∉ signs) : ∀ c ∈ token, isWordByte c = true := by
  obtain ⟨-, back, n, -, -, hline, rfl, -⟩ := exists_of_scan_eq_singleton h hne
  cases back with
  | nil => simp at hne
  | cons d back =>
    rcases line?_eq_some hline with hsign | hword
    · cases n with
      | zero => exact absurd rfl hne
      | succ n =>
        rw [List.take_succ_cons, head?_upper hsign] at hupper
        exact absurd hsign (hupper d rfl)
    · rw [hword]
      exact List.all_eq_true.1 List.all_takeWhile

/-- Where the only token of a line is a word, no word follows it behind a blank. -/
theorem isWordByte_behind {s token front rest : Bytes} {a b c : UInt8} (h : scan s = [token])
    (hne : token ≠ []) (htoken : ∀ d ∈ token, isWordByte d = true)
    (hs : s = front ++ a :: b :: c :: rest) (ha : isWordByte a = true) (hb : isWordByte b = false) :
    isWordByte c = false := by
  obtain ⟨skipped, back, n, hsplit, hskipped, -, rfl, hback⟩ := exists_of_scan_eq_singleton h hne
  have hfirst : back.dropWhile (!isWordByte ·) = back := by
    obtain ⟨d, token, hcons⟩ := List.exists_cons_of_ne_nil hne
    rw [← List.take_append_drop n back, hcons, List.cons_append]
    refine List.dropWhile_cons_of_neg ?_
    simp [htoken d (by simp [hcons])]
  -- both sides of the gap are compared by what the first run of word bytes leaves behind it
  have hwords :
      (s.dropWhile (!isWordByte ·)).dropWhile isWordByte = (back.drop n).dropWhile isWordByte := by
    rw [hsplit, List.dropWhile_append_of_pos (by simpa using hskipped), hfirst]
    conv_lhs => rw [← List.take_append_drop n back]
    exact List.dropWhile_append_of_pos htoken
  have hgap : (s.dropWhile (!isWordByte ·)).dropWhile isWordByte =
      (front.dropWhile (!isWordByte ·) ++ [a]).dropWhile isWordByte ++ b :: c :: rest := by
    rw [hs, dropWhile_append_cons (by simp [ha]), List.append_cons, dropWhile_append_cons hb]
  refine hback c ((List.dropWhile_sublist isWordByte).subset ?_)
  rw [← hwords, hgap]
  simp

end Token

/-! ## Headers -/

namespace Function

/-- A header has a blank between two bytes of words. -/
theorem exists_of_headerAt? {s : Bytes} {header : Bytes × Bytes} (h : headerAt? s = some header) :
    ∃ front a b rest, s = front ++ a :: Byte.space :: b :: rest ∧ Token.isWordByte a = true ∧
      Token.isWordByte b = true := by
  simp only [headerAt?, heading?, Option.bind_eq_bind, Option.bind_eq_some_iff] at h
  obtain ⟨-, ⟨behind, hlead, ⟨name, more⟩, hcut, -⟩, -⟩ := h
  obtain ⟨lead, rfl, hfold⟩ := Bytes.afterFolded?_eq_some hlead
  obtain ⟨rfl, hname, hnames⟩ := Identifier.cut?_eq_some hcut
  have hlower : lead.map Byte.toLower = ascii "function" ++ [Byte.space] := hfold
  obtain ⟨word, blank, rfl, hword, hblank⟩ := List.map_eq_append_iff.1 hlower
  obtain ⟨c, rfl, hc⟩ := List.map_eq_singleton_iff.1 hblank
  obtain ⟨b, name, rfl⟩ := List.exists_cons_of_ne_nil hname
  have hnil : word ≠ [] := by
    rintro rfl
    cases hword
  have hspace : c = Byte.space := by
    grind [Byte.toLower, Byte.isUpper]
  have hlast := Condition.Grammar.isName_of_fold hword (by decide) _ (List.getLast_mem hnil)
  refine ⟨word.dropLast, word.getLast hnil, b, name ++ more, ?_, Byte.isWordByte_of_isName hlast,
    Byte.isWordByte_of_isName (hnames b List.mem_cons_self)⟩
  rw [hspace]
  conv_lhs => rw [← List.dropLast_concat_getLast hnil]
  simp

theorem exists_of_header? {line : Bytes} {header : Bytes × Bytes} (h : header? line = some header) :
    ∃ front a b rest, line = front ++ a :: Byte.space :: b :: rest ∧ Token.isWordByte a = true ∧
      Token.isWordByte b = true := by
  induction line with
  | nil => cases h
  | cons c s ih =>
    rcases Option.or_eq_some_iff.1 h with hhere | ⟨-, hlater⟩
    · exact exists_of_headerAt? hhere
    · obtain ⟨front, a, b, rest, rfl, hbytes⟩ := ih hlater
      exact ⟨c :: front, a, b, rest, rfl, hbytes⟩

/-- A line with a header has an argument. -/
theorem args_ne_nil_of_header? {line : Bytes}
    (hname : (Command.ofLine line).name = ascii "FUNCTION")
    (hheader : (header? line).isSome = true) : (Command.ofLine line).args ≠ [] := by
  obtain ⟨header, hheader⟩ := Option.isSome_iff_exists.1 hheader
  obtain ⟨front, a, b, rest, hline, ha, hb⟩ := exists_of_header? hheader
  intro hargs
  unfold Command.ofLine Token.ofLine at hname hargs
  cases hscan : Token.scan line with
  | nil =>
    rw [hscan] at hname
    cases hname
  | cons token args =>
    rw [hscan] at hname hargs
    obtain rfl : args = [] := hargs
    have hupper : Bytes.upper token = ascii "FUNCTION" := hname
    have hne : token ≠ [] := by
      rintro rfl
      cases hupper
    have hsign : ∀ c ∈ (Bytes.upper token).head?, c ∉ Token.signs := by
      rw [hupper]
      rintro c ⟨⟩
      decide
    have htoken := Token.isWordByte_of_scan_eq_singleton hscan hne hsign
    have hbehind := Token.isWordByte_behind hscan hne htoken hline ha rfl
    rw [hb] at hbehind
    cases hbehind

end Function

end CheatScript
