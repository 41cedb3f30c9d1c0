import CheatScript.Fault
import CheatScript.Text.Space

/-!
# Definitions

A `Set` binds a name to value tokens from its own position on. The table keeps the definitions of
each name in the order of their positions, those of one position in the order in which they came. A
name seen from a position stands for its nearest definition at or before it; names among the values
are seen from the same position. A definition that leads back to itself has no expansion.
-/

namespace CheatScript

/-- A name bound to value tokens from a position on. -/
structure Definition where
  /-- The name. -/
  name : Bytes
  /-- The tokens it stands for. -/
  values : List Bytes
  /-- The position of the binding. -/
  position : Int
  deriving DecidableEq, Repr

/-- The definitions of a script, by name. -/
structure DefinitionTable where
  /-- Each name once, with its definitions in the order of their positions. -/
  byName : List (Bytes × List Definition) := []

namespace DefinitionTable

/-- Puts a definition behind all definitions at or before its position. -/
def insert (d : Definition) (ds : List Definition) : List Definition :=
  ds.takeWhile (·.position ≤ d.position) ++ d :: ds.dropWhile (·.position ≤ d.position)

/-- Adds a definition to the list of its name. -/
def addTo (d : Definition) : List (Bytes × List Definition) → List (Bytes × List Definition)
  | [] => [(d.name, [d])]
  | (name, ds) :: rest =>
    if name = d.name then (name, insert d ds) :: rest else (name, ds) :: addTo d rest

/-- Adds a definition. -/
def add (t : DefinitionTable) (d : Definition) : DefinitionTable := ⟨addTo d t.byName⟩

/-- The table of a list of definitions. -/
def ofList (ds : List Definition) : DefinitionTable := ds.foldl add {}

/-- The number of definitions. -/
def size (t : DefinitionTable) : Nat := t.byName.foldl (fun n (_, ds) => n + ds.length) 0

/-- The definitions of a name. -/
def definitions (t : DefinitionTable) (name : Bytes) : List Definition :=
  (t.byName.lookup name).getD []

/-- Whether a name is defined anywhere. -/
def declares (t : DefinitionTable) (name : Bytes) : Bool := (t.byName.lookup name).isSome

/-- The definition of a name seen from a position: one with the greatest position not after it, and
of those the first. -/
def find? (t : DefinitionTable) (name : Bytes) (position : Int) : Option Definition :=
  let older := (t.definitions name).takeWhile (·.position ≤ position)
  older.getLast?.bind fun d => older.find? (·.position == d.position)

end DefinitionTable

/-! ## Expansion -/

/-- The `+` or `,` in front of a token, and the token without it and the blanks after it. -/
def splitMark : Bytes → Bytes × Bytes
  | [] => ([], [])
  | c :: s =>
    if c = Byte.plus || c = Byte.comma then ([c], Space.trimStart s) else ([], c :: s)

/-- Tokens with a mark put in front of the first one. -/
def markFirst (mark : Bytes) : List Bytes → List Bytes
  | [] => []
  | t :: ts => (mark ++ t) :: ts

/-- A token without the blanks after its mark. -/
def tidyMark (token : Bytes) : Bytes :=
  match splitMark token with
  | ([], _) => token
  | (mark, bare) => mark ++ bare

namespace DefinitionTable

/-- The tokens a name stands for, seen from a position; none if a definition on the way leads back
to one of `active`, the names being expanded. A name without definition stands for nothing. The
depth bounds the number of names on the way and is never used up by a table with that many names. -/
def expandWithin (t : DefinitionTable) (position : Int) :
    (depth : Nat) → (active : List Bytes) → (name : Bytes) → Option (List Bytes)
  | depth, active, name =>
    if name ∈ active then none
    else match t.find? name position with
      | none => some []
      | some d => match depth with
        | 0 => none
        | depth + 1 =>
          (d.values.mapM fun token =>
            let (mark, bare) := splitMark token
            if t.declares bare then
              match expandWithin t position depth (active ++ [name]) bare with
              | none => none
              | some [] => some [token]
              | some tokens => some (markFirst mark tokens)
            else some [token]).map List.flatten

/-- The tokens a name stands for, seen from a position; none if its definitions form a cycle. -/
def expand (t : DefinitionTable) (name : Bytes) (position : Int) : Option (List Bytes) :=
  t.expandWithin position t.byName.length [] name

/-- The tokens that take the place of one argument seen from a position; none for a cycle. The first
token takes over the mark of the argument; the blanks after the other marks go. -/
def substituteToken (t : DefinitionTable) (position : Int) (token : Bytes) : Option (List Bytes) :=
  let (mark, bare) := splitMark token
  if t.declares bare then
    match t.expand bare position with
    | none => none
    | some [] => some [tidyMark token]
    | some (first :: rest) => some ((mark ++ first) :: rest.map tidyMark)
  else some [tidyMark token]

/-- The command with every argument that names a variable replaced by its values. -/
def substitute (t : DefinitionTable) (c : Command) : Except Failure Command :=
  match c.args.mapM (t.substituteToken c.position) with
  | none => .error ⟨.setStackOverflow, c⟩
  | some args => .ok { c with args := args.flatten }

/-- Substitutes in every command; the first cycle met ends it. -/
def substituteAll (t : DefinitionTable) (cmds : List Command) : Except Failure (List Command) :=
  cmds.mapM t.substitute

end DefinitionTable

end CheatScript
