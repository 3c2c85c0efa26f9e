import Propeller.Compile
import Propeller.Demo

/-!
# The command line

The command compiles the demonstration object and writes its image.  Everything that is decided is
decided here, without touching a file: `CommandLine.respond` says what is to be written, and
`Response.perform` writes it with any means that can write files, such as a `FileTree` in memory.
-/

namespace Propeller

/-! ### Integers in arguments -/

/-- Why a text is no integer of 64 bits. -/
inductive IntegerError
  | empty | invalidDigit | tooLarge | tooSmall
deriving DecidableEq, Inhabited

namespace IntegerError

/-- The text of the failure. -/
def message : IntegerError → String
  | empty        => "cannot parse integer from empty string"
  | invalidDigit => "invalid digit found in string"
  | tooLarge     => "number too large to fit in target type"
  | tooSmall     => "number too small to fit in target type"

end IntegerError

namespace CommandLine

/-- A character that may stand around a number. -/
def isBlank (c : Char) : Bool :=
  let n := c.toNat
  (9 ≤ n && n ≤ 13) || n == 0x20 || n == 0x85 || n == 0xA0 || n == 0x1680 ||
    (0x2000 ≤ n && n ≤ 0x200A) || n == 0x2028 || n == 0x2029 || n == 0x202F || n == 0x205F ||
    n == 0x3000

/-- A text without the blanks around it. -/
def trim (cs : List Char) : List Char :=
  ((cs.dropWhile isBlank).reverse.dropWhile isBlank).reverse

/-- Read digits on from a magnitude, up to the first that is none or that makes it too large. -/
def readDigits (most : Nat) (overflow : IntegerError) : Nat → List Char → Except IntegerError Nat
  | n, []      => .ok n
  | n, c :: cs =>
    match Numeral.digitValue? 10 c with
    | none   => .error .invalidDigit
    | some d =>
      let next := 10 * n + d
      if most < next then .error overflow else readDigits most overflow next cs

/-- Read an integer with a sign of its own. -/
def readInteger (cs : List Char) : Except IntegerError Int64 :=
  let positive (ds : List Char) := do
    if ds.isEmpty then .error .invalidDigit
    else return Int64.ofNat (← readDigits (2 ^ 63 - 1) .tooLarge 0 ds)
  match cs with
  | []        => .error .empty
  | '+' :: ds => positive ds
  | '-' :: ds => do
    if ds.isEmpty then .error .invalidDigit
    else return Int64.ofInt (-(← readDigits (2 ^ 63) .tooSmall 0 ds))
  | ds        => positive ds

/-- Read the frequencies of the crystal and of the clock. -/
def readClock (text : String) : Except String (Int64 × Int64) :=
  let cs := text.toList
  let input := cs.takeWhile (· != ':')
  match cs.dropWhile (· != ':') with
  | []             => .error "expected XIN:CLK"
  | _ :: frequency => do
    let read (ds : List Char) := (readInteger (trim ds)).mapError IntegerError.message
    let input ← read input
    let frequency ← read frequency
    return (input, frequency)

/-! ### Arguments -/

/-- What an argument says. -/
inductive Argument
  /-- A flag of one letter. -/
  | flag (letter : Char)
  /-- Where to write the image, if that is given. -/
  | output (path : Option String)
  /-- The frequencies, if they are given. -/
  | clock (text : Option String)
deriving DecidableEq, Inhabited

/-- Why there is nothing to run. -/
inductive Stop
  /-- The arguments are wrong. -/
  | refused
  /-- Help or the version is asked for. -/
  | information
deriving DecidableEq, Inhabited

/-- What follows an option can be its value: it does not look like an option itself. -/
def isValue (text : String) : Bool := text = "-" || !text.startsWith "-"

/-- Read letters behind a single dash.  The output takes the letters that follow it as its value. -/
def readLetters : List Char → Except Stop (List Argument)
  | []        => .ok []
  | 'o' :: cs =>
    match cs with
    | []         => .ok [.output none]
    | '=' :: ds  => .ok [.output (some (String.ofList ds))]
    | ds         => .ok [.output (some (String.ofList ds))]
  | c :: cs   =>
    if c = 'h' ∨ c = 'V' then .error .information
    else if c ∈ ['g', 'u', 'W', 'v'] then do return .flag c :: (← readLetters cs)
    else .error .refused

/-- Read one argument that begins with a dash. -/
def readOption (text : String) : Except Stop (List Argument) :=
  let cs := text.toList
  if text.startsWith "--" then
    let name := String.ofList ((cs.drop 2).takeWhile (· != '='))
    let value := match cs.dropWhile (· != '=') with
      | []      => none
      | _ :: ds => some (String.ofList ds)
    if name = "clock" then .ok [.clock value]
    else if (name = "help" ∨ name = "version") ∧ value.isNone then .error .information
    else .error .refused
  else readLetters (cs.drop 1)

/-- Give the last argument its value, if it lacks one. -/
def Argument.complete (value : String) : List Argument → Option (List Argument)
  | []               => none
  | [.output none]   => some [.output (some value)]
  | [.clock none]    => some [.clock (some value)]
  | a :: as          => (complete value as).map (a :: ·)

/-- Read arguments.  After two dashes nothing more may come. -/
def readArguments : List String → Except Stop (List Argument)
  | [] => .ok []
  | text :: rest =>
    if text = "--" then if rest.isEmpty then .ok [] else .error .refused
    else if isValue text then .error .refused
    else do
      let arguments ← readOption text
      match rest with
      | [] => return arguments
      | next :: later =>
        match if isValue next then Argument.complete next arguments else none with
        | some arguments => return arguments ++ (← readArguments later)
        | none           => return arguments ++ (← readArguments (next :: later))

/-- What the command is asked to do. -/
structure Invocation where
  output : String
  clock : String := "20000000:200000000"
  /-- Compile debug statements. -/
  debug : Bool := false
  /-- Remove what is never used. -/
  unused : Bool := false
  /-- Warn of what is never used. -/
  warn : Bool := false
deriving Inhabited

/-- Put arguments together: each may be given once, with its value, and the output has to be. -/
def invocation? (arguments : List Argument) : Option Invocation := do
  let letters := arguments.filterMap fun
    | .flag c => some c
    | _       => none
  let outputs := arguments.filterMap fun
    | .output path => some path
    | _            => none
  let clocks := arguments.filterMap fun
    | .clock text => some text
    | _           => none
  guard (decide letters.Nodup)
  let output ← match outputs with
    | [path] => path
    | _      => none
  let run : Invocation :=
    { output, debug := letters.contains 'g', unused := letters.contains 'u',
      warn := letters.contains 'W' }
  match clocks with
  | []     => return run
  | [text] => do return { run with clock := ← text }
  | _      => none

/-- Read a command line. -/
def read (arguments : List String) : Except Stop Invocation := do
  match invocation? (← readArguments arguments) with
  | some run => return run
  | none     => .error .refused

/-! ### Running -/

/-- The text of a failure with its cause. -/
def errorText (message : String) (cause : Option String) : String :=
  match cause with
  | none   => s!"Error: {message}\n"
  | some c => s!"Error: {message}\n\nCaused by:\n    {c}\n"

/-- A file to be written, and how it is called when that fails. -/
structure OutputFile where
  path : String
  contents : Bytes
  called : String
deriving Inhabited

/-- What the command is going to do: what it says, and then the files that it writes or the failure
that it ends with. -/
structure Response where
  text : String := ""
  result : Except String (List OutputFile)

/-- The response to an invocation. -/
def respond (run : Invocation) : Response :=
  if run.output = "-" then
    { result := .error (errorText "Refusing to write an object image to stdout" none) }
  else match readClock run.clock with
  | .error cause => { result := .error (errorText s!"Bad clock: {run.clock}" (some cause)) }
  | .ok (input, frequency) =>
    let config : Config :=
      { debug := run.debug, removeUnusedMethods := run.unused,
        removeUnusedVariables := run.unused, warnUnused := run.warn }
    let tree := Demo.object input frequency
    let c := compile config {} tree
    let text := if c.report.entries.isEmpty then "" else c.report.text
    match c.image with
    | none => { text, result := .error (errorText s!"Compilation of `{tree.name}` failed" none) }
    | some image =>
      let debug := c.debug.toList.map fun bytes =>
        { path := run.output ++ ".debug", contents := bytes, called := "debug data" }
      let file := { path := run.output, contents := image.bytes, called := "image" }
      { text, result := .ok (file :: debug) }

/-- Write files in order until one cannot be written; the result is the text of that failure. -/
def writeFiles {m : Type → Type} [Monad m] (write : String → Bytes → m (Except String Unit)) :
    List OutputFile → m (Option String)
  | []      => return none
  | f :: fs => do
    match ← write f.path f.contents with
    | .ok ()       => writeFiles write fs
    | .error cause =>
      return some (errorText s!"Failed to write {f.called}: {f.path}" (some cause))

/-- Write what a response asks for: the text for the user, and whether all went well. -/
def Response.perform {m : Type → Type} [Monad m]
    (write : String → Bytes → m (Except String Unit)) (r : Response) : m (String × Bool) := do
  match r.result with
  | .error e  => return (r.text ++ e, false)
  | .ok files =>
    match ← writeFiles write files with
    | none   => return (r.text, true)
    | some e => return (r.text ++ e, false)

end CommandLine

end Propeller
