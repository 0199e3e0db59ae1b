import Bytecode.Conversion.File

/-!
# Command line

Arguments are read from left to right, and the first problem or wish decides: asking for help or for the
version ends the reading.  Options and inputs may come in any order, each option at most once; after `--` all
arguments are inputs.  The inputs are then handled in order, and a file that fails ends the run.
-/

namespace Bytecode

namespace CommandLine

/-- What the arguments ask for. -/
structure Invocation where
  /-- Directory for the converted classes; they replace the inputs otherwise. -/
  outputDir : Option String := none
  inlineAll : Bool := false
  keepGoing : Bool := false
  keepStackMaps : Bool := false
  verifyOnly : Bool := false
  inputs : List String := []
  deriving DecidableEq, Repr

/-- What is wrong with the arguments. -/
inductive UsageError where
  | unknownOption (text : String)
  | repeatedOption (text : String)
  /-- An option lacks its value. -/
  | missingValue
  /-- The value of an option or an input is empty. -/
  | emptyValue
  /-- An option has a value and takes none. -/
  | unneededValue (text : String)
  | missingInput
  deriving DecidableEq, Repr

def UsageError.message : UsageError → String
  | .unknownOption text => s!"unexpected argument '{text}'"
  | .repeatedOption text => s!"the argument '{text}' cannot be used multiple times"
  | .missingValue => "a value is required for '--output-dir <DIR>'"
  | .emptyValue => "a value is required but none was supplied"
  | .unneededValue text => s!"the argument '{text}' takes no value"
  | .missingInput => "the argument <INPUT> was not provided"

/-- What to do. -/
inductive Request where
  | help
  | version
  | run (invocation : Invocation)
  deriving DecidableEq, Repr

/-- An option without a value. -/
inductive Switch where
  | help | version | inlineAll | keepGoing | keepStackMaps | verifyOnly
  deriving DecidableEq, Repr

/-- What reading an argument comes to: an end of the reading, or all that is known so far. -/
inductive Step where
  | finished (request : Request)
  | known (invocation : Invocation)
  /-- The next argument is the directory for outputs. -/
  | awaitingDir (invocation : Invocation)
  deriving DecidableEq, Repr

/-- Switches by their short names. -/
def shortSwitch? : Char → Option Switch
  | 'h' => some .help
  | 'V' => some .version
  | 'k' => some .keepGoing
  | _ => none

/-- Switches by their long names. -/
def longSwitch? : String → Option Switch
  | "help" => some .help
  | "version" => some .version
  | "inline-all" => some .inlineAll
  | "keep-going" => some .keepGoing
  | "keep-stack-maps" => some .keepStackMaps
  | "verify-only" => some .verifyOnly
  | _ => none

namespace Invocation

/-- Turn a switch on. -/
def turnOn (i : Invocation) : Switch → Except UsageError Step
  | .help => .ok (.finished .help)
  | .version => .ok (.finished .version)
  | .inlineAll =>
    if i.inlineAll then .error (.repeatedOption "--inline-all")
    else .ok (.known { i with inlineAll := true })
  | .keepGoing =>
    if i.keepGoing then .error (.repeatedOption "--keep-going")
    else .ok (.known { i with keepGoing := true })
  | .keepStackMaps =>
    if i.keepStackMaps then .error (.repeatedOption "--keep-stack-maps")
    else .ok (.known { i with keepStackMaps := true })
  | .verifyOnly =>
    if i.verifyOnly then .error (.repeatedOption "--verify-only")
    else .ok (.known { i with verifyOnly := true })

/-- Set the directory for outputs. -/
def withDir (i : Invocation) (dir : String) : Except UsageError Invocation :=
  if dir = "" then .error .emptyValue
  else if i.outputDir.isSome then .error (.repeatedOption "--output-dir <DIR>")
  else .ok { i with outputDir := some dir }

/-- Add an input. -/
def withInput (i : Invocation) (path : String) : Except UsageError Invocation :=
  if path = "" then .error .emptyValue else .ok { i with inputs := i.inputs ++ [path] }

/-- Read short options after one dash.  What follows the option for the directory is its value. -/
def shortOptions (i : Invocation) : List Char → Except UsageError Step
  | [] => .ok (.known i)
  | 'o' :: [] => .ok (.awaitingDir i)
  | 'o' :: '=' :: value => (i.withDir (String.ofList value)).map .known
  | 'o' :: value => (i.withDir (String.ofList value)).map .known
  | c :: rest =>
    match shortSwitch? c with
    | none => .error (.unknownOption (String.ofList ['-', c]))
    | some switch =>
      match i.turnOn switch with
      | .ok (.known i) => i.shortOptions rest
      | step => step

/-- Read a long option after two dashes, with its value if there is a `=`. -/
def longOption (i : Invocation) (text : List Char) : Except UsageError Step :=
  let name := String.ofList (text.takeWhile (· != '='))
  let value? := (text.dropWhile (· != '=')).tail?
  if name = "output-dir" then
    match value? with
    | none => .ok (.awaitingDir i)
    | some value => (i.withDir (String.ofList value)).map .known
  else
    match longSwitch? name, value? with
    | none, _ => .error (.unknownOption s!"--{name}")
    | some _, some _ => .error (.unneededValue s!"--{name}")
    | some switch, none => i.turnOn switch

/-- Does an argument look like an option? -/
def isOption : List Char → Bool
  | '-' :: _ :: _ => true
  | _ => false

/-- Read one argument. -/
def argument (i : Invocation) (text : String) : Except UsageError Step :=
  match text.toList with
  | '-' :: '-' :: name => i.longOption name
  | '-' :: c :: rest => i.shortOptions (c :: rest)
  | _ => (i.withInput text).map .known

/-- Add inputs. -/
def withInputs (i : Invocation) : List String → Except UsageError Invocation
  | [] => .ok i
  | path :: rest => do (← i.withInput path).withInputs rest

/-- The end of the arguments: there must be an input. -/
def finish (i : Invocation) : Except UsageError Request :=
  if i.inputs.isEmpty then .error .missingInput else .ok (.run i)

/-- Read all arguments. -/
def arguments (i : Invocation) : List String → Except UsageError Request
  | [] => i.finish
  | "--" :: inputs => do (← i.withInputs inputs).finish
  | text :: rest =>
    match i.argument text with
    | .error e => .error e
    | .ok (.finished request) => .ok request
    | .ok (.known i) => i.arguments rest
    | .ok (.awaitingDir i) =>
      match rest with
      | [] => .error .missingValue
      | value :: rest =>
        if isOption value.toList then .error .missingValue
        else
          match i.withDir value with
          | .error e => .error e
          | .ok i => i.arguments rest

/-- The settings for conversions. -/
def settings (i : Invocation) : Settings where
  inlineAll := i.inlineAll
  keepGoing := i.keepGoing
  dropStackMaps := !i.keepStackMaps

end Invocation

/-- Read the arguments. -/
def parse (arguments : List String) : Except UsageError Request := Invocation.arguments {} arguments

/-- Name of a file in a path: the last component that is one. -/
def fileName? (path : String) : Option String :=
  match ((FileTree.components path).filter fun c => c != "" && c != ".").getLast? with
  | some ".." | none => none
  | some name => some name

/-- Where the class from a file is written to. -/
def outputPath (input : String) (outputDir : Option String) : String :=
  match outputDir, fileName? input with
  | some dir, some name => if dir.endsWith "/" then dir ++ name else s!"{dir}/{name}"
  | _, _ => input

section Run

variable {m : Type → Type} [Monad m] (files : FileAccess m) (i : Invocation)

/-- Convert one input; the number of methods that failed. -/
def convertInput (input : String) : m (Traced (Except FileFailure Nat)) := do
  let result ← files.convert i.settings false input (outputPath input i.outputDir)
  return ⟨result.value.map fun report => report.failures.length, result.events⟩

/-- The number of methods that failed, or the first failure if that ends the run. -/
def countFailures (outcomes : List MethodOutcome) : Except FileFailure Nat :=
  let failures := outcomes.filterMap fun o =>
    match o.verdict.outcome with
    | .ok _ => none
    | .error cause => some (⟨o.method, cause⟩ : MethodFailure)
  match failures with
  | failure :: _ => if i.keepGoing then .ok failures.length else .error (.method failure)
  | [] => .ok 0

/-- Verify one input; the number of methods that failed. -/
def verifyInput (input : String) : m (Traced (Except FileFailure Nat)) := do
  match ← files.readClass input with
  | .error e => return ⟨.error (.file (.format e)), []⟩
  | .ok c =>
    let outcomes := (i.settings.policy none).verifyClass false i.keepGoing c
    return ⟨countFailures i outcomes.value, outcomes.events⟩

/-- Handle inputs in order, up to the first that fails; the number of methods that failed. -/
def handleInputs (failed : Nat) : List String → m (Traced (Except FileFailure Nat))
  | [] => return ⟨.ok failed, []⟩
  | input :: rest => do
    let result ← if i.verifyOnly then verifyInput files i input else convertInput files i input
    match result.value with
    | .error e => return ⟨.error e, result.events⟩
    | .ok more =>
      let others ← handleInputs (failed + more) rest
      return ⟨others.value, result.events ++ others.events⟩

end Run

/-- How a run ended. -/
inductive Ending where
  | misused (cause : UsageError)
  | helped
  | versioned
  | failed (cause : FileFailure)
  /-- All inputs were handled, but some methods failed. -/
  | incomplete (methods : Nat)
  | done
  deriving DecidableEq, Repr

/-- The exit code that tells how a run ended. -/
def Ending.exitCode : Ending → UInt8
  | .helped | .versioned | .done => 0
  | .failed _ | .incomplete _ => 1
  | .misused _ => 2

/-- Do what the arguments say. -/
def run {m : Type → Type} [Monad m] (files : FileAccess m) (arguments : List String) :
    m (Traced Ending) := do
  match parse arguments with
  | .error e => return ⟨.misused e, []⟩
  | .ok .help => return ⟨.helped, []⟩
  | .ok .version => return ⟨.versioned, []⟩
  | .ok (.run i) =>
    let result ← handleInputs files i 0 i.inputs
    match result.value with
    | .error e => return ⟨.failed e, result.events⟩
    | .ok 0 => return ⟨.done, result.events⟩
    | .ok failed => return ⟨.incomplete failed, result.events⟩

end CommandLine

end Bytecode
