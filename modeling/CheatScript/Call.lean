import CheatScript.Function
import CheatScript.Text.Utf8

/-!
# Calls

A call stands for the body of a function with the arguments in place of the parameters. Parameters
are bound in a table of their own, which only the body of the call sees. Calls in the body are
worked in too; a function that calls itself, directly or through others, is refused.
-/

namespace CheatScript.Call

/-! ## Arguments -/

/-- The arguments in a list, split at the commas outside string literals. A parenthesis outside a
literal is refused. `inString` tells whether a literal is open and `escaped` whether a backslash in
it came before. -/
def splitList : (inString escaped : Bool) → List Char → Except Fault (List (List Char))
  | _, _, [] => .ok [[]]
  | inString, escaped, ch :: rest =>
    let keep (more : Except Fault (List (List Char))) : Except Fault (List (List Char)) := do
      match ← more with
      | [] => return [[ch]]
      | arg :: args => return (ch :: arg) :: args
    if ch = ',' && !inString then do
      let args ← splitList inString escaped rest
      return [] :: args
    else if ch = '\\' && inString then keep (splitList inString true rest)
    else if ch = '"' && !escaped then keep (splitList (!inString) escaped rest)
    else if !inString && (ch = '(' || ch = ')') then .error .wrongSyntax
    else keep (splitList inString false rest)

/-- The text of an argument list between its parentheses. -/
def insideParentheses (s : Bytes) : Bytes :=
  Bytes.dropEndWhile (· == Byte.closing) (s.dropWhile (· == Byte.opening))

/-- The arguments of a parenthesised list. -/
def listArguments (list : Bytes) : Except Fault (List Bytes) := do
  let args ← splitList false false (Utf8.decode (insideParentheses list))
  return args.map fun arg => Space.trim (Utf8.encode arg)

/-- The arguments of a call. The list is the token after the name. -/
def arguments (c : Command) : Except Fault (List Bytes) := match c.args with
  | _ :: list :: _ => listArguments list
  | _ => .error .wrongSyntax

/-- The name of the called function, if a text starts with a call whose list is closed. -/
def calleeAt? (s : Bytes) : Option Bytes := do
  let (name, rest) ← Function.heading? (ascii "call ") s
  if (rest.takeWhile (· != Byte.newline)).contains Byte.closing then some name else none

/-- The name of the function that the first call in a line calls. -/
def callee? : Bytes → Option Bytes
  | [] => none
  | c :: s => (calleeAt? (c :: s)).or (callee? s)

/-! ## Binding -/

/-- The tokens an argument stands for. -/
def valuesOf (arg : Bytes) : List Bytes :=
  if arg.contains Byte.plus then Token.splitTerms arg else [arg]

/-- The table that binds parameters to arguments. An argument that is its parameter's own name needs
no binding. -/
def bindings (parameters args : List Bytes) : DefinitionTable :=
  DefinitionTable.ofList ((parameters.zip args).filterMap fun (name, arg) =>
    if arg = name then none else some ⟨name, valuesOf arg, 0⟩)

/-- Whether a position between two bytes is the edge of a word. -/
def isEdge (before after : Option UInt8) : Bool := before.any Byte.isWord != after.any Byte.isWord

/-- Replaces the occurrences of a name that start and end at the edge of a word. `before` is the
byte before the text and `skip` the number of bytes that belong to the last occurrence. -/
def replaceNameFrom (name new : Bytes) : (before : Option UInt8) → (skip : Nat) → Bytes → Bytes
  | before, _, [] => if name.isEmpty && isEdge before none then new else []
  | _, skip + 1, c :: s => replaceNameFrom name new (some c) skip s
  | before, 0, c :: s =>
    match isEdge before (some c), Bytes.after? name (c :: s) with
    | true, some rest =>
      if name.isEmpty then new ++ c :: replaceNameFrom name new (some c) 0 s
      else if isEdge name.getLast? rest.head? then
        new ++ replaceNameFrom name new (some c) (name.length - 1) s
      else c :: replaceNameFrom name new (some c) 0 s
    | _, _ => c :: replaceNameFrom name new (some c) 0 s

/-- Replaces the occurrences of a name as a whole word. -/
def replaceName (name new s : Bytes) : Bytes := replaceNameFrom name new none 0 s

/-- The name in a plus term. -/
def termName (term : Bytes) : Bytes := Space.trim (Bytes.dropLead [Byte.plus] term)

/-- Puts the value of one bound name in an argument list; none for a cycle of bindings. -/
def substituteName (t : DefinitionTable) (list name : Bytes) : Option Bytes :=
  if t.declares name then (t.expand name 0).map fun values => replaceName name values.flatten list
  else some list

/-- A command of a body that is a call keeps its argument list in one token: puts the values of the
parameters in it. -/
def substituteList (t : DefinitionTable) (c : Command) : Except Failure Command :=
  if c.name = ascii "CALL" then
    match c.args with
    | callee :: list :: rest => do
      let args ← c.blame (listArguments list)
      let names := (args.flatMap Token.splitTerms).map termName
      match names.foldlM (substituteName t) list with
      | some list => return { c with args := callee :: list :: rest }
      | none => c.refuse .setStackOverflow
    | _ => return c
  else return c

/-! ## Expansion -/

/-- The body of a function as the call brings it in, with its parameters not yet replaced. -/
def bodyOf (f : Function) (call : Command) : List Command :=
  f.body.map fun c =>
    { c.broughtBy call with position := 0, callers := call.callers ++ [f.name] }

/-- The function that a call calls and the arguments it passes. -/
def resolve (functions : List Function) (call : Command) : Except Fault (Function × List Bytes) :=
  match callee? call.text with
  | none => .error .wrongSyntax
  | some name =>
    if call.args.length < 2 then .error .wrongSyntax
    else match Function.find? functions name with
      | none => .error .valueInvalid
      | some f => do
        let args ← arguments call
        let args := if args = [[]] then [] else args
        if args.length = f.parameters.length then return (f, args)
        else .error .argumentCountMismatch

/-- The commands that a call stands for: the body with the arguments in place of the parameters. -/
def inline (functions : List Function) (call : Command) : Except Failure (List Command) := do
  let (f, args) ← call.blame (resolve functions call)
  let t := bindings f.parameters args
  let body := bodyOf f call
  if t.size = 0 then return body
  else
    let body ← t.substituteAll body
    body.mapM (substituteList t)

/-- Whether a command of the body of `call` calls a function whose body is being worked in. -/
def isRecursive (call c : Command) : Bool :=
  c.name == ascii "CALL" && (match c.args with
    | [] => false
    | name :: _ => call.args.head? == some name || c.callers.contains name)

/-- The commands a call stands for, if none of them calls a function whose body is being worked
in. -/
def open? (functions : List Function) (call : Command) : Except Failure (List Command) := do
  let body ← inline functions call
  match body.find? (isRecursive call) with
  | some c => c.refuse .callStackOverflow
  | none => return body

/-- Works in the calls of a list of commands to a depth; a call deeper than that is refused. -/
def expandWithin (functions : List Function) : (depth : Nat) → List Command →
    Except Failure (List Command)
  | 0, cmds => match cmds.find? (·.name == ascii "CALL") with
    | some c => c.refuse .callStackOverflow
    | none => .ok cmds
  | depth + 1, cmds => do
    let parts ← cmds.mapM fun c =>
      if c.name = ascii "CALL" then do
        let body ← open? functions c
        expandWithin functions depth body
      else return [c]
    return parts.flatten

/-- The depth to which `expand` works in calls. A function is called inside itself past the number
of functions at the latest. The guard refuses that, unless a parameter takes the place of the name
of the function in the call. Then replacing one call after the other ends only by a fault in the
arguments that are passed on, at any depth, or never. There `expand` departs from it and refuses the
first call past this depth. What it gives is the same, because no list without calls comes from
deeper. -/
def maxDepth (functions : List Function) : Nat := functions.length + 1000

/-- Works in all calls, down to `maxDepth`, and numbers the commands. -/
def expand (functions : List Function) (cmds : List Command) : Except Failure (List Command) := do
  let cmds ← expandWithin functions (maxDepth functions) cmds
  return renumber cmds

end CheatScript.Call
