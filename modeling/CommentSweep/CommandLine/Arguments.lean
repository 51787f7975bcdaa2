import CommentSweep.Text.Occurrence

/-!
# Arguments of a program

A program declares its options, and its arguments are read from left to right against them. Asking
for the version or for help stops the reading at once.
-/

namespace CommentSweep

/-- What giving an option does. -/
inductive OptionRole where
  | flag
  | value
  | version
  | help
  deriving DecidableEq, Repr

/-- An option of a program. -/
structure OptionSpec where
  long : Text
  short : Option Char
  role : OptionRole
  deriving DecidableEq, Repr

/-- What a program takes. -/
structure Grammar where
  options : List OptionSpec
  operands : Bool
  required : List Text
  deriving DecidableEq, Repr

/-- What was given to a program. -/
structure Arguments where
  flags : List Text
  values : List (Text × Text)
  operands : List Text
  deriving DecidableEq, Repr

/-- A way in which arguments do not fit. -/
inductive Misuse where
  | unknownOption (name : Text)
  | unexpectedValue (name : Text)
  | missingValue (name : Text)
  | repeated (name : Text)
  | unexpectedOperand (argument : Text)
  | missingOption (name : Text)
  deriving DecidableEq, Repr

inductive Halt where
  | version
  | help
  | misuse (reason : Misuse)
  deriving DecidableEq, Repr

def Misuse.message : Misuse → Text
  | .unknownOption name => "unexpected option: ".toList ++ name
  | .unexpectedValue name => "option takes no value: ".toList ++ name
  | .missingValue name => "option needs a value: ".toList ++ name
  | .repeated name => "option given more than once: ".toList ++ name
  | .unexpectedOperand argument => "unexpected argument: ".toList ++ argument
  | .missingOption name => "required option not given: ".toList ++ name

namespace Arguments

def empty : Arguments := ⟨[], [], []⟩

def hasFlag (given : Arguments) (name : Text) : Bool := given.flags.contains name

def value? (given : Arguments) (name : Text) : Option Text := given.values.lookup name

/-- Give an option without a value. No flag may be given twice. -/
def giveBare (given : Arguments) (spec : OptionSpec) : Except Halt Arguments :=
  match spec.role with
  | .version => .error .version
  | .help => .error .help
  | .value => .error (.misuse (.missingValue spec.long))
  | .flag =>
    if given.hasFlag spec.long then .error (.misuse (.repeated spec.long))
    else .ok { given with flags := given.flags ++ [spec.long] }

/-- Give an option with a value. Only some options take one, and each only once. -/
def giveValue (given : Arguments) (spec : OptionSpec) (value : Text) : Except Halt Arguments :=
  if spec.role ≠ .value then .error (.misuse (.unexpectedValue spec.long))
  else if (given.value? spec.long).isSome then .error (.misuse (.repeated spec.long))
  else .ok { given with values := given.values ++ [(spec.long, value)] }

/-- Give an option with what is attached to it. One that needs more waits for the next argument. -/
def giveAttached (given : Arguments) (spec : OptionSpec) :
    Option Text → Except Halt (Arguments × Option OptionSpec)
  | some value => (given.giveValue spec value).map (·, none)
  | none =>
    if spec.role = .value then .ok (given, some spec) else (given.giveBare spec).map (·, none)

end Arguments

namespace Grammar

/-- Read the text behind two dashes: a long name, and a value behind an equals sign. -/
def readLong (grammar : Grammar) (given : Arguments) (text : Text) :
    Except Halt (Arguments × Option OptionSpec) :=
  let parts := match cut? ['='] text with
    | some (name, value) => (name, some value)
    | none => (text, none)
  match grammar.options.find? (·.long == parts.1) with
  | none => .error (.misuse (.unknownOption parts.1))
  | some spec => given.giveAttached spec parts.2

/-- Read the letters behind one dash. Those behind an option with a value are the value. -/
def readLetters (grammar : Grammar) : Arguments → Text →
    Except Halt (Arguments × Option OptionSpec)
  | given, [] => .ok (given, none)
  | given, letter :: rest =>
    match grammar.options.find? (·.short == some letter) with
    | none => .error (.misuse (.unknownOption [letter]))
    | some spec =>
      if spec.role = .value then
        given.giveAttached spec
          (if rest = [] then none else some ((['='].isPrefixOf? rest).getD rest))
      else do readLetters grammar (← given.giveBare spec) rest

def takeOperands (grammar : Grammar) (given : Arguments) : List Text → Except Halt Arguments
  | [] => .ok given
  | argument :: rest =>
    if grammar.operands then .ok { given with operands := given.operands ++ argument :: rest }
    else .error (.misuse (.unexpectedOperand argument))

/-- Whether an argument can be the value of the option before it. A dash alone can. -/
def canBeValue : Text → Bool
  | '-' :: _ :: _ => false
  | _ => true

/-- Read arguments in order, first the value that the latest option waits for. -/
def readFrom (grammar : Grammar) : Arguments → Option OptionSpec → List Text →
    Except Halt Arguments
  | given, none, [] => .ok given
  | _, some spec, [] => .error (.misuse (.missingValue spec.long))
  | given, some spec, argument :: rest =>
    if canBeValue argument then do
      readFrom grammar (← given.giveValue spec argument) none rest
    else .error (.misuse (.missingValue spec.long))
  | given, none, argument :: rest =>
    match argument with
    | ['-', '-'] => grammar.takeOperands given rest
    | '-' :: '-' :: name => do
      let (given, waiting) ← grammar.readLong given name
      readFrom grammar given waiting rest
    | '-' :: letter :: letters => do
      let (given, waiting) ← grammar.readLetters given (letter :: letters)
      readFrom grammar given waiting rest
    | operand => do readFrom grammar (← grammar.takeOperands given [operand]) none rest

/-- Read all arguments of a program, of which none that is required may be missing. -/
def read (grammar : Grammar) (arguments : List Text) : Except Halt Arguments := do
  let given ← grammar.readFrom .empty none arguments
  match grammar.required.find? fun name => (given.value? name).isNone with
  | none => .ok given
  | some name => .error (.misuse (.missingOption name))

end Grammar

end CommentSweep
