import CommandGrammar.Config.Basic
import CommandGrammar.Notation.Reader
import CommandGrammar.Segment.Printer
import CommandGrammar.Template
import CommandGrammar.Value.Typing

/-!
# `CommandGrammar.Config.Validation` — what is wrong with a configuration

## Contents
- `Config.Defect`, `Config.Problem`: causes, and the entries they are found in.
- `Variable.acceptsDefault`: whether a configured default fits its variable.
- `Config.Entry.defects`, `Config.problems`: everything that is wrong.
- `Config.Error`, `Config.validate`.
-/

namespace CommandGrammar

/-- Whether a text can be the default of a variable: one of its choices, or of its type. -/
def Variable.acceptsDefault {ι : Type} (v : Variable ι) (value : String) : Bool :=
  if v.choices.isEmpty then v.accepts value else v.choices.contains value

namespace Config

/-- What can be wrong with an entry. -/
inductive Defect where
  | emptyName
  /-- The name has blanks. -/
  | severalWords
  | badGrammar (cause : Scheme.Error)
  | undeclaredDefault (name : String)
  | unfitDefault (value : String) (declared : String)
  | badTemplate (field : String) (cause : Template.Error)
  | undeclaredPlaceholder (field : String) (name : String)
  deriving Repr, DecidableEq

/-- A defect with the entry it is found in. -/
structure Problem where
  index : Nat
  name : String
  defect : Defect
  deriving Repr, DecidableEq

/-- The text shown for a defect. -/
def Defect.message : Defect → String
  | .emptyName => "name must not be empty"
  | .severalWords => "name must be a single word"
  | .badGrammar cause => "invalid grammar: " ++ cause.message
  | .undeclaredDefault name => "default for unknown variable '" ++ name ++ "'"
  | .unfitDefault value declared =>
    "default '" ++ value ++ "' does not fit variable " ++ declared
  | .badTemplate field cause => field ++ ": " ++ cause.message
  | .undeclaredPlaceholder field name =>
    field ++ " references unknown variable '" ++ name ++ "'"

/-- The text shown for a problem: the entry by its place and, if it has one, its name. -/
def Problem.message (p : Problem) : String :=
  let place := "commands[" ++ toString p.index ++ "]"
  match p.defect with
  | .emptyName => place ++ ": " ++ p.defect.message
  | _ => place ++ " (" ++ p.name ++ "): " ++ p.defect.message

/-- What is wrong with a default, given the declared variables. -/
def defaultDefects (declared : List (Variable Unit)) (name value : String) : List Defect :=
  match declared.find? fun v => v.name == name with
  | none => [.undeclaredDefault name]
  | some v => if v.acceptsDefault value then [] else [.unfitDefault value v.render]

/-- What is wrong with a template, given the declared variables. -/
def templateDefects (declared : List (Variable Unit)) (field : String) :
    Option String → List Defect
  | none => []
  | some source =>
    match Template.parse source with
    | .error e => [.badTemplate field e]
    | .ok t =>
      (t.placeholders.filter fun name => !declared.any fun v => v.name == name).map
        (.undeclaredPlaceholder field)

/-- What is wrong with an entry. Nothing is looked at after an empty name, and neither defaults nor
templates after a grammar that cannot be read. -/
def Entry.defects (e : Entry) : List Defect :=
  if e.name.isEmpty then [.emptyName]
  else
    (if e.name.toList.any Text.isBlank then [.severalWords] else []) ++
    match Notation.parse (e.grammar.getD "") with
    | .error cause => [.badGrammar cause]
    | .ok scheme =>
      let declared := Scheme.variables scheme
      ((e.defaults.map NameMap.toList).getD []).flatMap
          (fun (name, value) => defaultDefects declared name value) ++
        templateDefects declared "reply" e.reply ++ templateDefects declared "preview" e.preview

/-- Everything that is wrong with entries, the first of them standing at `index`. -/
def problemsFrom : Nat → List Entry → List Problem
  | _, [] => []
  | index, e :: rest => e.defects.map (⟨index, e.name, ·⟩) ++ problemsFrom (index + 1) rest

/-- Everything that is wrong with a configuration, entry by entry. -/
def problems (c : Config) : List Problem := problemsFrom 0 c.entries

/-- Why there is no configured shell. -/
inductive Error where
  /-- A file cannot be read. -/
  | unreadableFile (path : String)
  /-- A file's text is no configuration. -/
  | malformedDocument (detail : String)
  | scheme (cause : Scheme.Error)
  | template (cause : Template.Error)
  | invalid (problems : List Problem)
  deriving Repr, DecidableEq

/-- The text shown for a shell that cannot be configured. -/
def Error.message : Error → String
  | .unreadableFile path => "io error: cannot read " ++ path
  | .malformedDocument detail => "yaml parse error: " ++ detail
  | .scheme cause => "scheme error: " ++ cause.message
  | .template cause => "template error: " ++ cause.message
  | .invalid problems =>
    "validation errors:\n" ++ "\n".intercalate (problems.map fun p => "  - " ++ p.message)

/-- Accept a configuration only if nothing is wrong with it. -/
def validate (c : Config) : Except Error Unit :=
  if c.problems.isEmpty then .ok () else .error (.invalid c.problems)

end Config
end CommandGrammar
