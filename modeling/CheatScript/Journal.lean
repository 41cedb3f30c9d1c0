import CheatScript.Assembly

/-!
# Journals

A stage of compilation gives a result or a failure, and in either case a journal of what happened on
the way. The files that were read, the progress notes and the assembly listing are views of it.
-/

namespace CheatScript

/-- Something that happened during compilation. -/
inductive Event
  /-- The script was read. -/
  | script (path : Bytes) (lines : Nat)
  /-- A file was included. -/
  | included (path : Bytes)
  /-- A function was defined. -/
  | defined (name : Bytes) (parameters : List Bytes) (commands : Nat)
  /-- The definitions of variables were collected. -/
  | collected (definitions : Nat)
  /-- Includes, functions, calls and variables were worked in. -/
  | flattened (commands : Nat)
  /-- An asm scope was assembled. -/
  | assembled (listing : List Assembly.ListingLine)

namespace Event

/-- The file that was read, if it is about one. -/
def file? : Event → Option Bytes
  | .script path _ => some path
  | .included path => some path
  | _ => none

/-- The progress note of an event, if it has one. -/
def note? : Event → Option Bytes
  | .script path lines =>
    some (ascii "read " ++ path ++ ascii ": " ++ Decimal.natural lines ++ ascii " lines")
  | .included path => some (ascii "include " ++ path)
  | .defined name parameters commands =>
    some (ascii "function " ++ name ++ ascii "(" ++ Bytes.join [Byte.comma] parameters ++
      ascii "): " ++ Decimal.natural commands ++ ascii " commands")
  | .collected n => some (Decimal.natural n ++ ascii " set definitions")
  | .flattened n => some (Decimal.natural n ++ ascii " commands after preprocessing")
  | .assembled _ => none

/-- The listing of an event. -/
def listing : Event → List Assembly.ListingLine
  | .assembled lines => lines
  | _ => []

end Event

/-- Events in the order in which they happened. -/
abbrev Journal := List Event

namespace Journal

/-- The files that were read, sorted and each once. -/
def files (j : Journal) : List Bytes :=
  ((j.filterMap Event.file?).eraseDups).mergeSort Bytes.precedes

/-- The progress notes. -/
def notes (j : Journal) : List Bytes := j.filterMap Event.note?

/-- The assembly listing. -/
def listing (j : Journal) : List Assembly.ListingLine := j.flatMap Event.listing

end Journal

/-- What a stage of compilation comes to. -/
structure Stage (α : Type) where
  /-- What happened on the way. -/
  journal : Journal
  /-- What it gives, or the failure that ended it. -/
  result : Except Failure α

namespace Stage

/-- A stage that gives a value. -/
def give {α : Type} (a : α) : Stage α := ⟨[], .ok a⟩

/-- One stage after the other; a failure ends it, and what happened before stays in the journal. -/
def andThen {α β : Type} (s : Stage α) (next : α → Stage β) : Stage β := match s.result with
  | .error f => ⟨s.journal, .error f⟩
  | .ok a =>
    let t := next a
    ⟨s.journal ++ t.journal, t.result⟩

instance : Monad Stage where
  pure := give
  bind := andThen

/-- A stage that notes an event. -/
def note (e : Event) : Stage Unit := ⟨[e], .ok ()⟩

/-- A stage without events. -/
def ofResult {α : Type} (r : Except Failure α) : Stage α := ⟨[], r⟩

end Stage

end CheatScript
