/-! Reading the command line: options of the program, an action, and options and the file of the
action. An option's value is joined to it or is the next argument; after two dashes, all
arguments are names of files. -/

namespace SchemaTidy.Command

inductive Action where
  | validate
  | report
  | repair (output : Option String)
  | dedupe (output : Option String)
  | check (output : Option String) (diff : Bool)
deriving DecidableEq, Repr

structure Invocation where
  config : Option String
  file : String
  action : Action
deriving DecidableEq, Repr

/-! ## What may be given -/

/-- A place for an argument. -/
inductive Slot where
  | config
  | file
  | output
  | diff
deriving DecidableEq, Repr

namespace Slot

def long? : Slot → Option String
  | config => some "config"
  | file => none
  | output => some "output"
  | diff => some "diff"

def short? : Slot → Option Char
  | config => some 'c'
  | output => some 'o'
  | file | diff => none

def takesValue (slot : Slot) : Bool := slot != diff

def shown : Slot → String
  | config => "--config <CONFIG>"
  | file => "<FILE>"
  | output => "--output <OUTPUT>"
  | diff => "--diff"

end Slot

inductive Verb where
  | validate
  | report
  | repair
  | dedupe
  | check
deriving DecidableEq, Repr

def Verb.ofName? : String → Option Verb
  | "validate" => some .validate
  | "report" => some .report
  | "repair" => some .repair
  | "dedupe" => some .dedupe
  | "check" => some .check
  | _ => none

/-- The options and the file that a verb takes. -/
def Verb.slots : Verb → List Slot
  | validate | report => [.file]
  | repair | dedupe => [.file, .output]
  | check => [.file, .output, .diff]

/-! ## Faults -/

inductive Fault where
  | unexpected (argument : String)
  | unexpectedValue (value : String) (slot : Slot)
  | unknownVerb (name : String)
  | noVerb
  | noFile
  | noValue (slot : Slot)
  | repeated (slot : Slot)
deriving DecidableEq, Repr

def Fault.message : Fault → String
  | unexpected argument => s!"error: unexpected argument '{argument}' found"
  | unexpectedValue value slot =>
    s!"error: unexpected value '{value}' for '{slot.shown}' found; no more were expected"
  | unknownVerb name => s!"error: unrecognized subcommand '{name}'"
  | noVerb => "error: 'schema-doctor' requires a subcommand but one was not provided"
  | noFile => "error: the following required arguments were not provided:"
  | noValue slot => s!"error: a value is required for '{slot.shown}' but none was supplied"
  | repeated slot => s!"error: the argument '{slot.shown}' cannot be used multiple times"

/-! ## Reading one level -/

/-- An argument that may still be refused: an option without its value yet, or a value that has
not been looked at. -/
abbrev Pending := Slot × Option String

/-- What one level of the command line has been given so far. -/
structure Level where
  slots : List Slot
  given : List (Slot × String)
  pending : Option Pending
  hasFile : Bool
  /-- Whether two dashes have been met. -/
  namesOnly : Bool
deriving Repr

namespace Level

def ofSlots (slots : List Slot) : Level := ⟨slots, [], none, false, false⟩

/-- Give a slot its value, which may not be empty; flags have none. -/
def give (l : Level) (slot : Slot) (value : String) : Except Fault Level :=
  if (l.given.lookup slot).isSome then .error (.repeated slot)
  else if slot.takesValue && value.isEmpty then .error (.noValue slot)
  else .ok { l with given := l.given ++ [(slot, value)] }

def settle (l : Level) : Except Fault Level :=
  match l.pending with
  | none => .ok l
  | some (slot, none) => .error (.noValue slot)
  | some (slot, some value) => { l with pending := none }.give slot value

/-- Whether the next argument is the value of an option. -/
def awaitsValue (l : Level) : Bool := l.pending.any (·.2.isNone)

/-- Whether the next argument may be a verb or an option. -/
def readsWords (l : Level) : Bool := !l.namesOnly && !l.awaitsValue

/-- An option with the value that is joined to it, if there is one. -/
def takeOption (l : Level) (slot : Slot) (joined : Option String) : Except Fault Level := do
  match joined with
  | some value =>
    if slot.takesValue then (← l.settle).give slot value
    else .error (.unexpectedValue value slot)
  | none =>
    let l ← l.settle
    if slot.takesValue then .ok { l with pending := some (slot, none) } else l.give slot ""

/-- An argument that is neither an option nor the value of one. -/
def takeName (l : Level) (argument : String) : Except Fault Level := do
  if .file ∈ l.slots then
    if l.hasFile then .error (.unexpected argument)
    else .ok { ← l.settle with pending := some (.file, some argument), hasFile := true }
  else if l.namesOnly && (Verb.ofName? argument).isSome then .error (.unexpected argument)
  else .error (.unknownVerb argument)

private def dropEqualsSign : List Char → List Char
  | '=' :: cs => cs
  | cs => cs

def takeLong (l : Level) (body : List Char) : Except Fault Level :=
  let name := String.ofList (body.takeWhile (· != '='))
  let joined :=
    match body.dropWhile (· != '=') with
    | _ :: value => some (String.ofList value)
    | [] => none
  match l.slots.find? (·.long? == some name) with
  | some slot => l.takeOption slot joined
  | none => .error (.unexpected ("--" ++ name))

def takeShort (l : Level) (name : Char) (value : List Char) : Except Fault Level :=
  match l.slots.find? (·.short? == some name) with
  | some slot =>
    l.takeOption slot (if value.isEmpty then none else some (String.ofList (dropEqualsSign value)))
  | none => .error (.unexpected (String.ofList ['-', name]))

def takeWord (l : Level) (argument : String) : Except Fault Level :=
  match l.pending with
  | some (slot, none) => .ok { l with pending := some (slot, some argument) }
  | _ => l.takeName argument

def take (l : Level) (argument : String) : Except Fault Level :=
  if l.namesOnly then l.takeName argument
  else
    match argument.toList with
    | ['-', '-'] => .ok { l with namesOnly := true }
    | '-' :: '-' :: body => l.takeLong body
    | '-' :: name :: value => l.takeShort name value
    | _ => l.takeWord argument

end Level

/-! ## Reading all of it -/

def actionOf (verb : Verb) (given : List (Slot × String)) : Action :=
  let output := given.lookup .output
  match verb with
  | .validate => .validate
  | .report => .report
  | .repair => .repair output
  | .dedupe => .dedupe output
  | .check => .check output (given.lookup .diff).isSome

def readAction (verb : Verb) (arguments : List String) : Except Fault (String × Action) := do
  let level ← arguments.foldlM Level.take (.ofSlots verb.slots)
  let given := (← level.settle).given
  match given.lookup .file with
  | some file => .ok (file, actionOf verb given)
  | none => .error .noFile

/-- What stands before the verb is looked at again only after the rest has been read. -/
def readFrom (level : Level) : List String → Except Fault Invocation
  | [] => do
    discard level.settle
    .error .noVerb
  | argument :: rest => do
    match if level.readsWords then Verb.ofName? argument else none with
    | some verb =>
      let (file, action) ← readAction verb rest
      return ⟨(← level.settle).given.lookup .config, file, action⟩
    | none => readFrom (← level.take argument) rest

def read (arguments : List String) : Except Fault Invocation := readFrom (.ofSlots [.config]) arguments

end SchemaTidy.Command
