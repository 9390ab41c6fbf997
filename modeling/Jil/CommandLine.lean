/-
Jil.CommandLine — the command line of the compiler.

`Request.parse` reads the words of a command line, and `Options.run` says what
a run prints and with which status it ends. Words are read from the left, and
the first that is wrong, or that asks for help or the version, decides.

`respond` leaves open how a source is got at. `respondIn` is what it comes to in
a directory, for every way of reading that finds the files of the directory
(`respond_of_finds`).
-/
import Jil.Compilation
import Jil.SourceTree

namespace Jil.CommandLine

/-! ## Options -/

/-- The conventions that can be asked for. -/
inductive AbiChoice where
  | systemV
  | microsoft
  | host
  deriving DecidableEq, Repr

namespace AbiChoice

def all : List AbiChoice := [.systemV, .microsoft, .host]

def name : AbiChoice → String
  | .systemV => "system-v"
  | .microsoft => "microsoft"
  | .host => "host"

def ofName? (s : String) : Option AbiChoice := all.find? (·.name = s)

def abi : AbiChoice → Machine.Abi
  | .systemV => .systemV
  | .microsoft => .microsoft
  | .host => .host

end AbiChoice

/-- What a command line asks for; a flag that is not given is absent. -/
structure Options where
  file : Option String := none
  abi : Option AbiChoice := none
  printIr : Bool := false
  typecheckOnly : Bool := false
  stats : Bool := false
  deriving DecidableEq, Repr

/-- What is wrong with a command line. -/
inductive UsageError where
  | unexpected (word : String)
  | missingValue
  | invalidValue (value : String)
  | repeated (option : String)
  | unneededValue (option : String)
  deriving DecidableEq, Repr

def UsageError.message : UsageError → String
  | .unexpected word => "unexpected argument '" ++ word ++ "' found"
  | .missingValue => "a value is required for '--abi <ABI>' but none was supplied"
  | .invalidValue value => "invalid value '" ++ value ++ "' for '--abi <ABI>'"
  | .repeated option => "the argument '" ++ option ++ "' cannot be used multiple times"
  | .unneededValue option =>
    "unexpected value for '" ++ option ++ "' found; no more were expected"

/-- What a command line asks the program to do. -/
inductive Request where
  | run (o : Options)
  | help
  | version
  deriving DecidableEq, Repr

/-! ## Reading -/

/-- A word of a command line. -/
inductive Word where
  /-- An option, possibly with a value attached. -/
  | long (name : String) (value : Option String)
  /-- Letters behind a single dash. -/
  | short (letters : List Char)
  | separator
  | plain (text : String)
  deriving DecidableEq, Repr

/-- Splits an option from a value that an equals sign attaches. -/
def longWord (cs : List Char) : Word :=
  match cs.dropWhile (· ≠ '=') with
  | [] => .long (String.ofList cs) none
  | _ :: value => .long (String.ofList (cs.takeWhile (· ≠ '='))) (some (String.ofList value))

/-- What kind of word a text is. A single dash is a plain word. -/
def Word.ofText (s : String) : Word :=
  match s.toList with
  | ['-', '-'] => .separator
  | '-' :: '-' :: cs => longWord cs
  | '-' :: c :: cs => .short (c :: cs)
  | _ => .plain s

/-- Takes a plain word as the file. -/
def addFile (o : Options) (s : String) : Except UsageError Options :=
  match o.file with
  | none => .ok { o with file := some s }
  | some _ => .error (.unexpected s)

/-- Takes a value for the convention. -/
def addAbi (o : Options) (s : String) : Except UsageError Options :=
  match AbiChoice.ofName? s, o.abi with
  | none, _ => .error (.invalidValue s)
  | some _, some _ => .error (.repeated "--abi <ABI>")
  | some a, none => .ok { o with abi := some a }

/-- Takes a flag. -/
def addFlag (o : Options) (name : String) : Except UsageError Options :=
  match name with
  | "print-ir" =>
    if o.printIr then .error (.repeated "--print-ir") else .ok { o with printIr := true }
  | "typecheck-only" =>
    if o.typecheckOnly then .error (.repeated "--typecheck-only")
    else .ok { o with typecheckOnly := true }
  | "stats" => if o.stats then .error (.repeated "--stats") else .ok { o with stats := true }
  | _ => .error (.unexpected ("--" ++ name))

/-- Whether an option takes no value. -/
def isFlag (name : String) : Bool :=
  name ∈ ["print-ir", "typecheck-only", "stats", "help", "version"]

/-- Reads the words behind a separator, which are all plain. -/
def parsePlain (o : Options) : List String → Except UsageError Options
  | [] => .ok o
  | s :: rest => do parsePlain (← addFile o s) rest

/-- Reads words behind those that gave the options `o`. -/
def parseFrom (o : Options) : List String → Except UsageError Request
  | [] => .ok (.run o)
  | s :: rest =>
    match Word.ofText s with
    | .separator => do
      let o ← parsePlain o rest
      pure (.run o)
    | .plain text => do
      let o ← addFile o text
      parseFrom o rest
    | .short ('h' :: _) => .ok .help
    | .short ('V' :: _) => .ok .version
    | .short _ => .error (.unexpected s)
    | .long "abi" (some value) => do
      let o ← addAbi o value
      parseFrom o rest
    | .long "abi" none =>
      match rest with
      | [] => .error .missingValue
      | value :: after =>
        match Word.ofText value with
        | .plain text => do
          let o ← addAbi o text
          parseFrom o after
        | _ => .error .missingValue
    | .long name (some _) =>
      .error (if isFlag name then .unneededValue ("--" ++ name)
        else .unexpected ("--" ++ name))
    | .long "help" none => .ok .help
    | .long "version" none => .ok .version
    | .long name none => do
      let o ← addFlag o name
      parseFrom o rest

/-- Reads a command line. -/
def Request.parse (words : List String) : Except UsageError Request := parseFrom {} words

/-! ## Running -/

/-- What the program prints, and the status that it ends with. -/
structure Output where
  status : Nat := 0
  stdout : String := ""
  stderr : String := ""
  deriving DecidableEq, Repr

/-- The name that messages give to a source from standard input. -/
def standardInput : String := "<stdin>"

def Options.source (o : Options) : String := o.file.getD standardInput

/-- Tells of a failure. -/
def failed (e : Failure) : Output := { status := 1, stderr := "error: " ++ e.message ++ "\n" }

/-- Tells of a source that cannot be read. -/
def unreadable (reason : String) : Output :=
  { status := 1, stderr := "Error: " ++ reason ++ "\n" }

/-- Tells of a command line that cannot be read. -/
def misused (e : UsageError) : Output :=
  { status := 2, stderr := "error: " ++ e.message ++ "\n" }

/-- A run over the text of a source. -/
def Options.run (o : Options) (text : String) : Output :=
  if o.typecheckOnly then
    match checkText text o.source with
    | .ok u => { stdout := if o.printIr then u.text else "" }
    | .error e => failed e
  else
    match compileText (o.abi.getD .host).abi text o.source with
    | .ok c =>
      { stdout := (if o.printIr then c.unit.text ++ "\n" else "") ++ c.listing.text
        stderr := if o.stats then c.statistics.text else "" }
    | .error e => failed e

/-- A run over a source, or what is told of one that cannot be had. -/
def Options.runSource (o : Options) : Except String String → Output
  | .ok text => o.run text
  | .error reason => unreadable reason

/-- The version. -/
def versionText : String := "jilc 0.1.0\n"

/-- The help. -/
def helpText : String :=
  String.intercalate "\n"
    ["JIL to x86-64 compiler",
      "",
      "Usage: jilc [OPTIONS] [FILE]",
      "",
      "Arguments:",
      "  [FILE]  IR file to compile; reads stdin when omitted",
      "",
      "Options:",
      "      --abi <ABI>       Calling convention of the generated code [default: host] "
        ++ "[possible values: system-v, microsoft, host]",
      "      --print-ir        Print the type-checked IR before the assembly",
      "      --typecheck-only  Stop after type checking",
      "      --stats           Print session statistics to stderr",
      "  -h, --help            Print help",
      "  -V, --version         Print version",
      ""]

/-! ## Responding -/

/-- What a command line gives, when `source` gets at the text that the options name or tells
why it cannot be had. -/
def respond {m : Type → Type} [Monad m] (source : Option String → m (Except String String))
    (words : List String) : m Output :=
  match Request.parse words with
  | .error e => pure (misused e)
  | .ok .help => pure { stdout := helpText }
  | .ok .version => pure { stdout := versionText }
  | .ok (.run o) => do pure (o.runSource (← source o.file))

/-- Getting at a source in a directory, with a text on standard input. -/
def sourceIn (t : SourceTree) (stdin : String) : Option String → Except String String
  | none => .ok stdin
  | some path => (t.readIn? stdin path).elim (.error path) .ok

/-- What a command line gives in a directory, with a text on standard input. -/
def respondIn (t : SourceTree) (stdin : String) (words : List String) : Output :=
  respond (m := Id) (sourceIn t stdin) words

/-- A way of getting at sources finds the files of a directory, whatever it says about
others. -/
structure Finds {m : Type → Type} [Monad m] (source : Option String → m (Except String String))
    (t : SourceTree) (stdin : String) : Prop where
  found : ∀ file text, sourceIn t stdin file = .ok text → source file = pure (.ok text)
  missing : ∀ file path, sourceIn t stdin file = .error path →
    ∃ reason, source file = pure (.error reason)

/-- A run over the source that was got at. -/
theorem respond_run {m : Type → Type} [Monad m] [LawfulMonad m]
    {source : Option String → m (Except String String)} {words : List String} {o : Options}
    {answer : Except String String} (hparse : Request.parse words = .ok (.run o))
    (h : source o.file = pure answer) : respond source words = pure (o.runSource answer) := by
  unfold respond
  rw [hparse]
  simp only [h, pure_bind]

/-- However the files of a directory are read, the answer to a command line is the same, but
for the words in which a file is missed. -/
theorem respond_of_finds {m : Type → Type} [Monad m] [LawfulMonad m]
    {source : Option String → m (Except String String)} {t : SourceTree} {stdin : String}
    (h : Finds source t stdin) (words : List String) :
    respond source words = pure (respondIn t stdin words)
    ∨ ∃ path reason, respond source words = pure (unreadable reason)
      ∧ respondIn t stdin words = unreadable path := by
  cases hparse : Request.parse words with
  | error e =>
    unfold respondIn respond
    rw [hparse]
    exact .inl rfl
  | ok request =>
    cases request with
    | help | version =>
      unfold respondIn respond
      rw [hparse]
      exact .inl rfl
    | run o =>
      have hin : respondIn t stdin words = o.runSource (sourceIn t stdin o.file) :=
        respond_run (m := Id) hparse rfl
      cases hanswer : sourceIn t stdin o.file with
      | ok text =>
        rw [hin, hanswer]
        exact .inl (respond_run hparse (h.found o.file text hanswer))
      | error path =>
        rw [hin, hanswer]
        obtain ⟨reason, hreason⟩ := h.missing o.file path hanswer
        exact .inr ⟨path, reason, respond_run hparse hreason, rfl⟩

end Jil.CommandLine
