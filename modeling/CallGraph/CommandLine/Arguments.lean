import CallGraph.Path

/-!
# Arguments

An `Invocation` is what the words of a command line ask for: options, then a command with its own words.  A
long option is `--name`, with its value in the next word or after `=`; the letters of short options may
share one word, the rest of which is the value of the first that takes one.  Words that ask for nothing
that can be done are refused with the first `Refusal` met from left to right.
-/

namespace CallGraph

/-- What the program is to do. -/
inductive Command where
  /-- Print the roots. -/
  | roots
  /-- Select rows by name, one a column, and print all columns. -/
  | explore (names : List String)
  /-- Print the bookmarks. -/
  | bookmarks
  | version

/-- The options in front of the command. -/
structure Options where
  verbose : Bool := false
  /-- The directory of the project. -/
  directory : Option Path := none
  modules : List String := []
  files : List Path := []
  searchPath : List Path := []
  /-- Whether the search path of the environment is left aside. -/
  ignoreRuntime : Bool := false

/-- A command and its options. -/
structure Invocation where
  options : Options
  command : Command

/-- Why words are no invocation. -/
inductive Refusal where
  /-- The words ask how the program is used. -/
  | helpWanted
  | unknownWord (word : String)
  | missingValue (option : String)
  | emptyPath (option : String)
  | repeated (option : String)
  | needlessValue (option : String)
  | noCommand
  | noNames

namespace Refusal

/-- The code with which the program ends: asking for help is no mistake. -/
def exitCode : Refusal → Nat
  | helpWanted => 0
  | _ => 2

/-- How the program is used. -/
def usage : String :=
  "usage: callmap [-v] [-d DIRECTORY] [-m MODULE] [-f FILE] [-p PATH] [--no-interpreter-sys-path] " ++
    "roots | explore NAME... | bookmarks | version"

/-- A refusal in words. -/
def message : Refusal → String
  | helpWanted => usage
  | unknownWord word => s!"unexpected argument {word}"
  | missingValue option => s!"--{option} needs a value"
  | emptyPath option => s!"the value of --{option} is empty"
  | repeated option => s!"--{option} is given more than once"
  | needlessValue option => s!"--{option} takes no value"
  | noCommand => usage
  | noNames => "explore needs a name"

end Refusal

/-- An option. -/
inductive Switch where
  | help
  | verbose
  | directory
  | module
  | file
  | path
  | ignoreRuntime
  deriving DecidableEq

namespace Switch

/-- All options. -/
def all : List Switch := [help, verbose, directory, module, file, path, ignoreRuntime]

/-- The option's long name. -/
def name : Switch → String
  | help => "help"
  | verbose => "verbose"
  | directory => "project-directory"
  | module => "module"
  | file => "file"
  | path => "path"
  | ignoreRuntime => "no-interpreter-sys-path"

/-- The option's letter. -/
def letter? : Switch → Option Char
  | help => some 'h'
  | verbose => some 'v'
  | directory => some 'd'
  | module => some 'm'
  | file => some 'f'
  | path => some 'p'
  | ignoreRuntime => none

/-- Whether the option has a value. -/
def takesValue : Switch → Bool
  | directory | module | file | path => true
  | help | verbose | ignoreRuntime => false

/-- The option of a long name. -/
def ofName? (name : String) : Option Switch :=
  all.find? (·.name == name)

/-- The option of a letter. -/
def ofLetter? (letter : Char) : Option Switch :=
  all.find? (·.letter? == some letter)

/-- A value as a path. -/
def readPath (s : Switch) (value : String) : Except Refusal Path :=
  if value.isEmpty then .error (.emptyPath s.name) else .ok ⟨value⟩

end Switch

namespace Options

/-- Turns an option without a value on. -/
def turnOn (o : Options) : Switch → Except Refusal Options
  | .help => .error .helpWanted
  | .verbose => if o.verbose then .error (.repeated Switch.verbose.name) else .ok { o with verbose := true }
  | .ignoreRuntime =>
    if o.ignoreRuntime then .error (.repeated Switch.ignoreRuntime.name)
    else .ok { o with ignoreRuntime := true }
  | s => .error (.missingValue s.name)

/-- Gives an option a value. -/
def give (o : Options) (s : Switch) (value : String) : Except Refusal Options := do
  match s with
  | .directory =>
    if o.directory.isSome then .error (.repeated s.name)
    else .ok { o with directory := some (← s.readPath value) }
  | .module => .ok { o with modules := o.modules ++ [value] }
  | .file => .ok { o with files := o.files ++ [← s.readPath value] }
  | .path => .ok { o with searchPath := o.searchPath ++ [← s.readPath value] }
  | .help | .verbose | .ignoreRuntime => .error (.needlessValue s.name)

/-- Reads the letters of a word; gives the option whose value is to come, if it is not in the word. -/
def readLetters (o : Options) : List Char → Except Refusal (Options × Option Switch)
  | [] => .ok (o, none)
  | c :: rest =>
    match Switch.ofLetter? c with
    | none => .error (.unknownWord (String.ofList ['-', c]))
    | some s =>
      if s.takesValue then
        match rest with
        | [] => .ok (o, some s)
        | '=' :: value => (o.give s (String.ofList value)).map (·, none)
        | value => (o.give s (String.ofList value)).map (·, none)
      else do readLetters (← o.turnOn s) rest

/-- Reads a long option, the dashes left out; gives the option whose value is to come, if it is not in the
word. -/
def readLong (o : Options) (word : List Char) : Except Refusal (Options × Option Switch) :=
  let name := String.ofList (word.takeWhile (· != '='))
  match Switch.ofName? name, word.dropWhile (· != '=') with
  | none, _ => .error (.unknownWord s!"--{name}")
  | some s, [] => if s.takesValue then .ok (o, some s) else (o.turnOn s).map (·, none)
  | some s, _ :: value => (o.give s (String.ofList value)).map (·, none)

/-- Whether a word stands for options: it starts with a dash and has more. -/
def isOption (word : String) : Bool :=
  match word.toList with
  | '-' :: _ :: _ => true
  | _ => false

/-- Reads a word that stands for options. -/
def readWord (o : Options) (word : String) : Except Refusal (Options × Option Switch) :=
  match word.toList with
  | ['-', '-'] => .error (.unknownWord word)
  | '-' :: '-' :: long => o.readLong long
  | letters => o.readLetters (letters.drop 1)

/-- Reads the options in front of the command; `awaited` is the option whose value is the next word. -/
def readAll (o : Options) (awaited : Option Switch) :
    List String → Except Refusal (Options × List String)
  | [] =>
    match awaited with
    | some s => .error (.missingValue s.name)
    | none => .error .noCommand
  | word :: rest =>
    match awaited with
    | some s =>
      if isOption word then .error (.missingValue s.name)
      else do readAll (← o.give s word) none rest
    | none =>
      if isOption word then do
        let (o, awaited) ← o.readWord word
        readAll o awaited rest
      else .ok (o, word :: rest)

end Options

namespace Command

/-- The refusal of a word that stands for options but follows the command. -/
def refuseOption (word : String) : Refusal :=
  match Options.readWord {} word with
  | .error .helpWanted => .helpWanted
  | _ => .unknownWord word

/-- Makes sure that no words follow a command. -/
def readEnd (c : Command) : List String → Except Refusal Command
  | [] => .ok c
  | ["--"] => .ok c
  | word :: _ => if Options.isOption word then .error (refuseOption word) else .error (.unknownWord word)

/-- Reads names.  After `--` every word is one. -/
def readNames : List String → Except Refusal (List String)
  | [] => .ok []
  | word :: rest =>
    if word == "--" then .ok rest
    else if Options.isOption word then .error (refuseOption word)
    else (readNames rest).map (word :: ·)

/-- Reads the command and its words. -/
def read : List String → Except Refusal Command
  | [] => .error .noCommand
  | word :: rest =>
    match word with
    | "roots" => readEnd .roots rest
    | "bookmarks" => readEnd .bookmarks rest
    | "version" => readEnd .version rest
    | "explore" => do
      let names ← readNames rest
      if names.isEmpty then .error .noNames else .ok (.explore names)
    | "help" =>
      match rest with
      | [] => .error .helpWanted
      | topic :: _ =>
        if ["roots", "explore", "bookmarks", "version", "help"].contains topic then .error .helpWanted
        else .error (.unknownWord topic)
    | word => .error (.unknownWord word)

end Command

/-- Reads the words of a command line. -/
def Invocation.read (words : List String) : Except Refusal Invocation := do
  let (options, rest) ← Options.readAll {} none words
  .ok { options, command := ← Command.read rest }

end CallGraph
