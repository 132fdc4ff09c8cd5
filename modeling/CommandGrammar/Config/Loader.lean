import CommandGrammar.Config.Document

/-!
# `CommandGrammar.Config.Loader` — configurations from files

A configuration is merged from two files: one for all working directories, and on top of it one in
the working directory, or in its place one that is named.

## Contents
- `Config.Files`: files by their paths.
- `Config.Sources`, `Config.Sources.ofPlaces`, `Config.Sources.paths`: where to look.
- `Config.load`: the merged and validated configuration.
-/

namespace CommandGrammar
namespace Config

/-- What stands at a path. -/
inductive FileEntry where
  | file (content : String)
  /-- Something that cannot be read, such as a directory. -/
  | unreadable

/-- What stands at each path. -/
abbrev Files := String → Option FileEntry

/-- Where to look for configurations. -/
structure Sources where
  /-- For all working directories; it may be absent. -/
  shared : Option String
  /-- The one that is named; it must be there. -/
  named : Option String
  /-- In the working directory; the first that is there counts. -/
  nearby : List String

/-- The places to look in, given the home directory and the working directory. -/
def Sources.ofPlaces (home : Option String) (directory : String) (named : Option String) :
    Sources where
  shared :=
    match home with
    | some h => if h.isEmpty then none else some (h ++ "/.config/cmdgraph/cmdgraph.yml")
    | none => none
  named := named
  nearby := [directory ++ "/cmdgraph.yml", directory ++ "/cmdgraph.yaml"]

/-- All paths that may be read. -/
def Sources.paths (s : Sources) : List String :=
  s.shared.toList ++ s.named.toList ++ s.nearby

/-- Read the configuration in a file. -/
def read (files : Files) (path : String) : Except Error Config :=
  match files path with
  | some (.file content) => parse content
  | some .unreadable | none => .error (.unreadableFile path)

/-- Read the configuration in a file that may be absent. -/
def readIfPresent (files : Files) (path : Option String) : Except Error Config :=
  match path.filter fun p => (files p).isSome with
  | some p => read files p
  | none => .ok empty

/-- The configuration of the working directory, or the one that is named in its place. -/
def readOwn (files : Files) (s : Sources) : Except Error Config :=
  match s.named with
  | some p => read files p
  | none => readIfPresent files (s.nearby.find? fun p => (files p).isSome)

/-- The merged configuration, if nothing is wrong with it. -/
def load (files : Files) (s : Sources) : Except Error Config := do
  let shared ← readIfPresent files s.shared
  let own ← readOwn files s
  let c := merge shared own
  c.validate
  return c

end Config
end CommandGrammar
