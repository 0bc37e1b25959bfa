import WireSpec.Compile
import WireSpec.Text.Blank
import WireSpec.Text.Numeral
/-!
# The command line

`check` compiles definition files and lists what is wrong with them.  `decode` compiles one file and
decodes messages that are written in hexadecimal.  The caller says how a file is read; what is
printed is the result.
-/

namespace WireSpec.CommandLine

inductive ReadFault where
  | notFound
  | isDirectory
  | notDirectory
  | notText
  | other (text : String)
  deriving DecidableEq

def ReadFault.message : ReadFault → String
  | notFound => "No such file or directory (os error 2)"
  | isDirectory => "Is a directory (os error 21)"
  | notDirectory => "Not a directory (os error 20)"
  | notText => "stream did not contain valid UTF-8"
  | other text => text

/-- The content of a file, which has to be text in UTF-8. -/
def sourceText (raw : Bytes) : Except ReadFault String :=
  match Text.utf8Text? raw with
  | some text => .ok text
  | none => .error .notText

/-- What ends a run at once. -/
inductive Failure where
  | missingMessageName
  | missingArguments
  | input (fault : ReadFault)
  | file (path : String) (fault : ReadFault)
  | definition (path : String) (diagnostics : List Diagnostic)
  | oddDigits (text : String)
  | notHexadecimal (pair text : String)
  deriving DecidableEq

namespace Failure

def message : Failure → String
  | missingMessageName => "--message requires a message name"
  | missingArguments => "usage: cpdl_decode <FILE.cpdl> [--message NAME] <HEX> [HEX ...]"
  | input fault => fault.message
  | file path _ => "reading " ++ path
  | definition path diagnostics => path ++ ": " ++ Diagnostic.report diagnostics
  | oddDigits text => "odd number of hex digits in " ++ Text.quoted text
  | notHexadecimal pair text =>
      "invalid hex byte " ++ Text.quoted pair ++ " in " ++ Text.quoted text

def cause? : Failure → Option String
  | file _ fault => some fault.message
  | notHexadecimal _ _ => some "invalid digit found in string"
  | _ => none

def lines (f : Failure) : List String :=
  ("Error: " ++ f.message) ::
    match f.cause? with
    | some cause => ["", "Caused by:", "    " ++ cause]
    | none => []

end Failure

/-- The lines that are printed, and whether all went well. -/
structure Report where
  succeeded : Bool
  out : List String := []
  err : List String := []

namespace Report

def exitStatus (r : Report) : UInt32 := if r.succeeded then 0 else 1

def text (lines : List String) : String := String.join (lines.map (· ++ "\n"))

/-- A run that a failure ended after some lines. -/
def ofFailure (out : List String) (f : Failure) : Report :=
  { succeeded := false, out, err := f.lines }

end Report

/-! ## Options -/

/-- Whether one of the words is an argument, and the arguments without the first such. -/
def takeFlag (words args : List String) : Bool × List String :=
  match args.span fun a => !words.contains a with
  | (before, _ :: after) => (true, before ++ after)
  | (_, []) => (false, args)

def messageWords : List String := ["--message", "-m"]

/-- The argument after the first message option, and the arguments without these two. -/
def takeMessageName (args : List String) : Except Failure (Option String × List String) :=
  match args.span fun a => !messageWords.contains a with
  | (before, _ :: name :: after) => .ok (some name, before ++ after)
  | (_, [_]) => .error .missingMessageName
  | (_, []) => .ok (none, args)

/-! ## Checking definitions -/

def problemLines (human : Bool) (path : String) (d : Diagnostic) : List String :=
  let line := (d.position.map (·.line)).getD 0
  let column := (d.position.map (·.column)).getD 0
  let place := toString line ++ ":" ++ toString column
  if human then
    ["  " ++ path ++ " " ++ place ++ ": " ++ d.problem.message, "    stage: " ++ d.problem.stage]
  else
    [path ++ ":" ++ place ++ ": " ++ d.problem.stage ++ " error: " ++ d.problem.message]

def successLine (path : String) (d : Decoder) : String :=
  path ++ ": ok (" ++ d.name ++ " v" ++ d.version ++ ", message " ++ d.message ++ ", " ++
    toString d.plan.fields.length ++ " field(s))"

def checkSource (human : Bool) (o : Options) (path source : String) : Report :=
  match compile source o with
  | .ok d => { succeeded := true, err := [successLine path d] }
  | .error ds => { succeeded := false, out := ds.flatMap (problemLines human path) }

/-- The reports on all inputs, with a count of the bad ones if there are any. -/
def summarize (reports : List Report) : Report :=
  let failed := reports.countP (!·.succeeded)
  let summary :=
    if failed = 0 then []
    else
      ["check: " ++ toString failed ++ " of " ++ toString reports.length ++ " input(s) failed"]
  { succeeded := failed = 0
    out := reports.flatMap (·.out)
    err := reports.flatMap (·.err) ++ summary }

section

variable {m : Type → Type} [Monad m]

def checkFile (read : String → m (Except ReadFault String)) (human : Bool) (o : Options)
    (path : String) : m Report := do
  match ← read path with
  | .ok source => return checkSource human o path source
  | .error fault => return { succeeded := false, err := [path ++ ": " ++ fault.message] }

/-- Checks the files that are named, or the standard input if there are none. -/
def check (read : String → m (Except ReadFault String)) (input : m (Except ReadFault String))
    (args : List String) : m Report := do
  let (human, args) := takeFlag ["--human", "-H"] args
  match takeMessageName args with
  | .error failure => return .ofFailure [] failure
  | .ok (message, paths) =>
      let o : Options := { message }
      if paths.isEmpty then
        match ← input with
        | .ok source => return summarize [checkSource human o "<stdin>" source]
        | .error fault => return .ofFailure [] (.input fault)
      else return summarize (← paths.mapM (checkFile read human o))

end

/-! ## Decoding messages -/

/-- Blanks, colons and hyphens may stand between the digits of a message, and a prefix before
them. -/
def hexDigits (text : List Char) : List Char :=
  match text.filter fun c => !Text.isBlank c && c != ':' && c != '-' with
  | '0' :: 'x' :: digits | '0' :: 'X' :: digits => digits
  | digits => digits

/-- The byte that a pair of digits stands for.  A plus sign may take the place of the first. -/
def pairByte? : Char → Char → Option UInt8
  | '+', d => (Text.numeral? 16 [d]).map UInt8.ofNat
  | c, d => (Text.numeral? 16 [c, d]).map UInt8.ofNat

/-- A pair is two bytes of the text in UTF-8, so a character may be a pair by itself.  A pair that ends
inside a character cannot be cut out of the text, at which the tool panics; the failure of a pair that
is no byte stands for that as well. -/
def pairBytes (text : String) : List Char → Except Failure Bytes
  | [] => .ok []
  | c :: rest =>
      if c.utf8Size = 1 then
        match rest with
        | [] => .error (.oddDigits text)
        | d :: rest =>
            match pairByte? c d with
            | some b => do return b :: (← pairBytes text rest)
            | none => .error (.notHexadecimal (String.ofList [c, d]) text)
      else .error (.notHexadecimal c.toString text)

def messageBytes (text : String) : Except Failure Bytes :=
  let digits := hexDigits text.toList
  if (String.ofList digits).utf8ByteSize % 2 = 0 then pairBytes text digits
  else .error (.oddDigits text)

/-- The messages before the first that cannot be read are decoded. -/
def decodeMessages (d : Decoder) : List String → List String × Option Failure
  | [] => ([], none)
  | text :: rest =>
      match messageBytes text with
      | .error failure => ([], some failure)
      | .ok raw =>
          let (lines, failure) := decodeMessages d rest
          (d.decodeToJson raw :: lines, failure)

/-- Decodes messages by the definition in a file. -/
def decode {m : Type → Type} [Monad m] (read : String → m (Except ReadFault String))
    (args : List String) : m Report := do
  match takeMessageName args with
  | .error failure => return .ofFailure [] failure
  | .ok (message, path :: text :: more) =>
      match ← read path with
      | .error fault => return .ofFailure [] (.file path fault)
      | .ok source =>
          match compile source { message } with
          | .error ds => return .ofFailure [] (.definition path ds)
          | .ok d =>
              match decodeMessages d (text :: more) with
              | (out, none) => return { succeeded := true, out }
              | (out, some failure) => return .ofFailure out failure
  | .ok _ => return .ofFailure [] .missingArguments

end WireSpec.CommandLine
