import CheatScript.Text.Byte

/-!
# Where a quoted string can end

A quoted string starts with a quote and runs over items: a backslash with the byte after it (any
byte but a newline), or any single byte but a quote. A closing quote ends it, if there is one. A
backslash may be read either way, so one opening quote has several possible ends; a term that cannot
stop at one end tries the next. `quoteEnds` lists the ends in the order of preference: escapes
before single bytes, longer runs before shorter ones, the closing quote before none.

`spans` is the list as the preference order defines it. The number of ways to read a run of
backslashes grows exponentially, so `quoteEnds` visits every position once instead.
-/

namespace CheatScript.Quote

/-- Whether a backslash before `s` can escape a byte. -/
def escapes : Bytes → Bool
  | c :: _ => c != Byte.newline
  | [] => false

/-- Every way to end a quoted string whose remaining bytes start at position `p`, in the order of
preference and with repetitions. Positions count from the opening quote. -/
def spans : (p : Nat) → Bytes → List Nat
  | p, [] => [p]
  | p, c :: s =>
    (if c = Byte.backslash && escapes s then
      match s with
      | _ :: s' => spans (p + 2) s'
      | [] => []
    else [])
    ++ (if c = Byte.quote then [p + 1] else spans (p + 1) s)
    ++ [p]

/-- A set of positions: the position `p` is in it if bit `p` is set. -/
structure Positions where
  /-- The bits. -/
  bits : Nat := 0

/-- Whether a position is in the set. -/
def Positions.contains (a : Positions) (p : Nat) : Bool := a.bits.testBit p

/-- The set with one more position. -/
def Positions.insert (a : Positions) (p : Nat) : Positions := ⟨a.bits ||| 1 <<< p⟩

/-- No position is in the empty set. -/
@[simp]
theorem Positions.contains_empty (p : Nat) : ({} : Positions).contains p = false := by
  simp [contains]

/-- A set with one more position has that position and those it had. -/
@[simp]
theorem Positions.contains_insert (a : Positions) (p q : Nat) :
    (a.insert p).contains q = (a.contains q || p == q) := by
  simp only [contains, insert, Nat.testBit_or, Nat.one_shiftLeft, Nat.testBit_two_pow]
  rfl

/-- The positions already visited and the ends found so far, the latest first. -/
structure Walk where
  /-- The positions the walk has reached. -/
  visited : Positions := {}
  /-- The ends found, as a set. -/
  found : Positions := {}
  /-- The ends found, the latest first and each once. -/
  ends : List Nat := []

/-- Notes an end unless it is known. -/
def Walk.addEnd (w : Walk) (e : Nat) : Walk :=
  if w.found.contains e then w else { w with found := w.found.insert e, ends := e :: w.ends }

/-- Notes a position as visited. -/
def Walk.visit (w : Walk) (p : Nat) : Walk := { w with visited := w.visited.insert p }

/-- Walks on from position `p`, where the bytes `s` remain, and skips a position it has been at. -/
def walk : (p : Nat) → Bytes → Walk → Walk
  | p, [], w => if w.visited.contains p then w else (w.visit p).addEnd p
  | p, c :: s, w =>
    if w.visited.contains p then w
    else
      let w := w.visit p
      let w :=
        if c = Byte.backslash && escapes s then
          match s with
          | _ :: s' => walk (p + 2) s' w
          | [] => w
        else w
      let w := if c = Byte.quote then w.addEnd (p + 1) else walk (p + 1) s w
      w.addEnd p

/-- The possible ends of a quoted string that has `s` after its opening quote, each once, in the
order of preference. An end is the number of bytes up to it, the opening quote included. -/
def quoteEnds (s : Bytes) : List Nat := (walk 1 s {}).ends.reverse

end CheatScript.Quote
