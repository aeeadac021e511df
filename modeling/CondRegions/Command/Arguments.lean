import CondRegions.Config

/-!
# Arguments

A command line names an action, with operands and options. Options that every action shares may
stand before or behind the name of the action, and those behind it replace those before it. An
argument that begins with a dash is an option, unless it follows `--` or is a dash alone.

Arguments are read from left to right in one pass; the first thing that cannot be read ends the
reading, as do the options that ask for help and for the version.

* `Argument.ofText` — the shape of an argument;
* `Reading.read` — the options and operands of a command line;
* `Command.ofArguments` — the command that it gives.
-/

namespace CondRegions

/-! ### Options and actions -/

/-- What an option or an operand takes. -/
inductive Takes where
  | nothing
  | text
  /-- A path, which is not empty. -/
  | path
deriving DecidableEq, Repr

/-- The options. -/
inductive Opt where
  | define
  | mode
  | envDir
  | config
  | included
  | excluded
  | noProcessEnv
  | strict
  | inPlace
  | json
  | ifndef
  | help
  | version
deriving DecidableEq, Repr

namespace Opt

/-- The name of an option behind two dashes. -/
def long : Opt → String
  | .define => "define"
  | .mode => "mode"
  | .envDir => "env-dir"
  | .config => "config"
  | .included => "include"
  | .excluded => "exclude"
  | .noProcessEnv => "no-process-env"
  | .strict => "strict"
  | .inPlace => "in-place"
  | .json => "json"
  | .ifndef => "ifndef"
  | .help => "help"
  | .version => "version"

/-- The letter of an option behind one dash. -/
def short? : Opt → Option Char
  | .define => some 'D'
  | .help => some 'h'
  | .version => some 'V'
  | _ => none

/-- What an option takes. -/
def takes : Opt → Takes
  | .define | .mode | .included | .excluded => .text
  | .envDir | .config => .path
  | _ => .nothing

/-- Whether an option may be given several times. -/
def repeats : Opt → Bool
  | .define | .included | .excluded => true
  | _ => false

/-- The options that every action has. -/
def shared : List Opt :=
  [.define, .mode, .envDir, .config, .included, .excluded, .noProcessEnv, .strict, .help]

end Opt

/-- The names of the actions. -/
inductive Verb where
  | transform
  | process
  | regions
  | eval
  | diff
deriving DecidableEq, Repr

namespace Verb

/-- The actions. -/
def all : List Verb := [.transform, .process, .regions, .eval, .diff]

/-- The name of an action. -/
def name : Verb → String
  | .transform => "transform"
  | .process => "process"
  | .regions => "regions"
  | .eval => "eval"
  | .diff => "diff"

/-- The action with a name. -/
def ofName? (text : String) : Option Verb :=
  all.find? (·.name == text)

/-- What the operands of an action are. -/
def operands : Verb → List Takes
  | .transform | .regions | .diff => [.path]
  | .process => [.path, .path]
  | .eval => [.text]

/-- The options that only this action has. -/
def ownOptions : Verb → List Opt
  | .transform => [.inPlace]
  | .regions => [.json]
  | .eval => [.ifndef]
  | .process | .diff => []

end Verb

/-- The options that can be given before the name of the action, or behind that of the given one. -/
def optionsOf : Option Verb → List Opt
  | none => .version :: Opt.shared
  | some verb => verb.ownOptions ++ Opt.shared

/-! ### One argument -/

/-- How an option is named. -/
inductive OptName where
  | long (name : String)
  | short (letter : Char)
deriving DecidableEq, Repr

/-- Whether an option is named in full. -/
def OptName.isLong : OptName → Bool
  | .long _ => true
  | .short _ => false

/-- The shape of an argument. -/
inductive Argument where
  | operand (text : String)
  /-- Two dashes: only operands follow. -/
  | escape
  /-- An option, perhaps with a value in the same argument. -/
  | option (name : OptName) (value : Option String)
deriving DecidableEq, Repr

/-- The text behind an equals sign. -/
def afterEquals? : List Char → Option String
  | '=' :: cs => some (String.ofList cs)
  | _ => none

/-- The value that stands directly behind a letter; an equals sign may stand between. -/
def attached? (cs : List Char) : Option String :=
  if cs.isEmpty then none else some ((afterEquals? cs).getD (String.ofList cs))

/-- **Shape.** -/
def Argument.ofText (text : String) : Argument :=
  match text.toList with
  | ['-', '-'] => .escape
  | '-' :: '-' :: cs =>
    .option (.long (String.ofList (cs.takeWhile (· != '='))))
      (afterEquals? (cs.dropWhile (· != '=')))
  | '-' :: c :: cs => .option (.short c) (attached? cs)
  | _ => .operand text

/-- Whether an argument can be the value of the option before it. -/
def Argument.isValue (text : String) : Bool :=
  match Argument.ofText text with
  | .operand _ => true
  | _ => false

/-! ### All arguments -/

/-- Why a reading ends early. -/
inductive Stop where
  /-- The arguments are not those of any command. -/
  | usage
  | help
  | version
deriving DecidableEq, Repr

/-- What has been read of a command line. -/
structure Reading where
  verb : Option Verb := none
  /-- The options before the name of the action. -/
  outer : List (Opt × String) := []
  /-- The options behind it. -/
  inner : List (Opt × String) := []
  operands : List String := []
deriving DecidableEq, Repr

/-- Whether a text is fit for its place. -/
def Takes.accepts : Takes → String → Bool
  | .path, given => given != ""
  | _, _ => true

namespace Reading

/-- The options given so far on this side of the name of the action. -/
def given (r : Reading) : List (Opt × String) :=
  if r.verb.isSome then r.inner else r.outer

/-- Adds an option. -/
def addOption (r : Reading) (opt : Opt) (value : String) : Except Stop Reading :=
  if !opt.takes.accepts value || (!opt.repeats && r.given.any (·.1 == opt)) then .error .usage
  else if r.verb.isSome then .ok { r with inner := r.inner ++ [(opt, value)] }
  else .ok { r with outer := r.outer ++ [(opt, value)] }

/-- Adds an option that takes nothing; two of them end the reading. -/
def addFlag (r : Reading) (opt : Opt) : Except Stop Reading :=
  match opt with
  | .help => .error .help
  | .version => .error .version
  | opt => r.addOption opt ""

/-- Adds an operand; the first one is the name of the action. -/
def addOperand (r : Reading) (text : String) : Except Stop Reading :=
  match r.verb with
  | none =>
    match Verb.ofName? text with
    | some verb => .ok { r with verb := some verb }
    | none => .error .usage
  | some verb =>
    match verb.operands[r.operands.length]? with
    | some kind =>
      if kind.accepts text then .ok { r with operands := r.operands ++ [text] } else .error .usage
    | none => .error .usage

/-- Adds what follows two dashes, where no action can be named. -/
def addTrailing (r : Reading) (texts : List String) : Except Stop Reading :=
  if r.verb.isNone then .error .usage else texts.foldlM addOperand r

/-- The option with a name, among those that can be given here. -/
def option? (r : Reading) : OptName → Option Opt
  | .long name => (optionsOf r.verb).find? (·.long == name)
  | .short letter => (optionsOf r.verb).find? (·.short? == some letter)

/-- The end of a request for help, which may name an action. -/
def helpOn : List String → Stop
  | [] => .help
  | [name] => if name = "help" || (Verb.ofName? name).isSome then .help else .usage
  | _ => .usage

/-- **Reading.** The options and operands of the arguments, from left to right. -/
def read (r : Reading) : List String → Except Stop Reading
  | [] => .ok r
  | arg :: args =>
    match Argument.ofText arg with
    | .escape => r.addTrailing args
    | .operand text =>
      if r.verb.isNone && text = "help" then .error (helpOn args)
      else do (← r.addOperand text).read args
    | .option name value =>
      match r.option? name with
      | none => .error .usage
      | some opt =>
        if opt.takes = .nothing then
          if value.isSome && name.isLong then .error .usage
          else do (← r.addFlag opt).read args
        else match value with
          | some value => do (← r.addOption opt value).read args
          | none =>
            match args with
            | [] => .error .usage
            | next :: rest =>
              if Argument.isValue next then do (← r.addOption opt next).read rest
              else .error .usage

/-- The values of an option: those behind the name of the action, else those before it. -/
def values (r : Reading) (opt : Opt) : List String :=
  let of (given : List (Opt × String)) := (given.filter (·.1 == opt)).map Prod.snd
  if (of r.inner).isEmpty then of r.outer else of r.inner

/-- Whether an option is given. -/
def has (r : Reading) (opt : Opt) : Bool :=
  !(r.values opt).isEmpty

end Reading

/-! ### Commands -/

/-- What is to be done. -/
inductive Action where
  /-- Transform a file and print the result, or write it back. -/
  | transform (file : String) (inPlace : Bool)
  /-- Emit a directory. -/
  | process (source target : String)
  /-- List the regions of a file. -/
  | regions (file : String) (asJson : Bool)
  /-- Evaluate a condition. -/
  | eval (condition : String) (kind : Kind)
  /-- Show what transforming would change. -/
  | diff (file : String)
deriving DecidableEq, Repr

/-- An action with the options that every action has. -/
structure Command where
  settings : Settings
  /-- Whether diagnostics make the command fail. -/
  strict : Bool
  action : Action

namespace Command

/-- The action of a reading, if its operands are complete. -/
def actionOf? (r : Reading) : Option Action :=
  match r.verb, r.operands with
  | some .transform, [file] => some (.transform file (r.has .inPlace))
  | some .process, [source, target] => some (.process source target)
  | some .regions, [file] => some (.regions file (r.has .json))
  | some .eval, [condition] => some (.eval condition (if r.has .ifndef then .ifndef else .ifdef))
  | some .diff, [file] => some (.diff file)
  | _, _ => none

/-- The settings of a reading. Env files are those of the working directory if no directory is
given. -/
def settingsOf (r : Reading) : Settings where
  envDir := some ((r.values .envDir).head?.getD ".")
  mode := (r.values .mode).head?
  optionsFile := (r.values .config).head?
  usesProcessEnv := !r.has .noProcessEnv
  included := r.values .included
  excluded := r.values .excluded
  defines := r.values .define

/-- **Commands.** The command that the arguments give. -/
def ofArguments (args : List String) : Except Stop Command := do
  let r ← Reading.read {} args
  match actionOf? r with
  | some action => return { settings := settingsOf r, strict := r.has .strict, action }
  | none => .error .usage

end Command

end CondRegions
