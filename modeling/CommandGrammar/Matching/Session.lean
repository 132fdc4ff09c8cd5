import CommandGrammar.Segment.Basic

/-!
# `CommandGrammar.Matching.Session` — candidates asked for once

A provider may answer differently each time it is asked. Within a session it is asked at most once,
when the candidates are first needed, and its answer is kept.

## Contents
- `CallLog`: which providers were asked so far, over all sessions.
- `Session`, `Session.fresh`, `Session.candidates`.
-/

namespace CommandGrammar

/-- The variables whose providers were asked, newest first. -/
abbrev CallLog := List SegmentId

/-- The answers kept in this session, and all questions so far. -/
structure Session where
  provided : List (SegmentId × List String)
  calls : CallLog

namespace Session

/-- A session that keeps no answers yet. -/
def fresh (calls : CallLog) : Session := ⟨[], calls⟩

/-- Ask the provider of a variable, drop repetitions, and keep the answer. -/
def ask (s : Session) (id : SegmentId) (provider : Provider) : List String × Session :=
  let answer := (provider (s.calls.count id)).eraseDups
  (answer, ⟨(id, answer) :: s.provided, id :: s.calls⟩)

/-- The candidates of a variable: its choices, else its provider's answer, else none. -/
def candidates (s : Session) (v : Variable SegmentId) : List String × Session :=
  if !v.choices.isEmpty then (v.choices, s)
  else
    match v.provider with
    | none => ([], s)
    | some provider =>
      match s.provided.lookup v.id with
      | some answer => (answer, s)
      | none => s.ask v.id provider

end Session
end CommandGrammar
