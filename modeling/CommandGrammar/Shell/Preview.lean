/-!
# `CommandGrammar.Shell.Preview` — previews that arrive later

A preview is computed beside the line that is being edited, and the line may have changed when it
arrives. Each request therefore has a number, and only the preview of the latest request is shown; a
cancelled request leaves no latest one.

## Contents
- `Preview`, `Previews`: a computed preview; requests, running previews and the inbox.
- `request`, `cancel`, `deliver`: asking, giving up, arriving.
- `poll`, `wait`: taking the latest preview out of the inbox.
-/

namespace CommandGrammar

/-- A computed preview: the number of its request, and its text unless it was declined. -/
structure Preview where
  generation : Nat
  text : Option String
  deriving Repr, DecidableEq

/-- The previews of a shell. -/
structure Previews where
  /-- The number of requests and cancellations so far. -/
  generation : Nat
  /-- Requested and not arrived yet. -/
  running : List Preview
  /-- Arrived and not looked at yet, the oldest first. -/
  inbox : List Preview
  deriving Repr, DecidableEq

namespace Previews

/-- Nothing was requested. -/
def none : Previews := ⟨0, [], []⟩

/-- Request a preview whose computation yields `text`. Earlier requests become stale. -/
def request (p : Previews) (text : Option String) : Previews :=
  { p with
    generation := p.generation + 1
    running := p.running ++ [⟨p.generation + 1, text⟩] }

/-- Make every request so far stale. -/
def cancel (p : Previews) : Previews := { p with generation := p.generation + 1 }

/-- Let the running previews that are ready arrive. -/
def deliver (p : Previews) (ready : Preview → Bool) : Previews :=
  { p with
    running := p.running.filter fun m => !ready m
    inbox := p.inbox ++ p.running.filter ready }

/-- Let all running previews arrive. -/
def deliverAll (p : Previews) : Previews := p.deliver fun _ => true

/-- Look through the inbox for the first preview of the given request that was not declined: its
text, and what was not looked at. -/
def firstText (generation : Nat) : List Preview → Option String × List Preview
  | [] => (.none, [])
  | m :: rest =>
    if m.generation = generation then
      match m.text with
      | some text => (some text, rest)
      | .none => firstText generation rest
    else firstText generation rest

/-- Take the latest preview out of the inbox, if it has arrived; stale ones are dropped. -/
def poll (p : Previews) : Option String × Previews :=
  let (text, inbox) := firstText p.generation p.inbox
  (text, { p with inbox })

/-- Drop stale previews from the inbox up to the latest one, which ends the waiting even if it was
declined: its text, and what was not looked at. -/
def firstCurrent (generation : Nat) : List Preview → Option String × List Preview
  | [] => (.none, [])
  | m :: rest =>
    if m.generation = generation then (m.text, rest) else firstCurrent generation rest

/-- Wait for the latest preview; what has not arrived now arrives too late. -/
def wait (p : Previews) : Option String × Previews :=
  let (text, inbox) := firstCurrent p.generation p.inbox
  (text, { p with inbox })

end Previews
end CommandGrammar
