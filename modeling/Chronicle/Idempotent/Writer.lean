import Chronicle.Idempotent.Compatibility
import Chronicle.Access.Reader
import Chronicle.Access.Writer

/-!
# Idempotent writing

An idempotent write can be repeated. It reads the stream after the expected version, pairs the events
it finds there with the batch, and counts every pair that its compatibility accepts as written; the
rest is written at the version that the pairs lead to. If the stream has moved on meanwhile, all of
this starts again from there. A conflict with a stream that is behind the expectation is no race and
is passed on.

A write is a sequence of steps, each one operation on the reader or the writer below it, so other
writers can act between any two of them. `Progress` is what it keeps between steps.
-/

namespace Chronicle

/-- What an idempotent writer is made of. -/
structure Idempotent (W P : Type) where
  /-- Where it looks for events that are already written. -/
  reader : StreamReader W P
  /-- Where it writes the others. -/
  writer : EventWriter W
  /-- When a stored event counts as one of the batch. -/
  compatible : Compatibility := .basic
  /-- How many conflicting attempts it makes at most, if that is limited. -/
  maxAttempts : Option Nat := none
  /-- The steps allowed to one write when it runs alone. -/
  allowance : Nat

namespace Idempotent

/-- What a write does next. -/
inductive Phase (Cursor : Type) where
  /-- Open the read of what is already written. -/
  | opening
  /-- Pair what the read yields with the batch. -/
  | pairing (cursor : Cursor)
  /-- Write what is not paired. -/
  | writing

/-- What a write keeps between steps. -/
structure Progress (Cursor : Type) where
  /-- The part of the batch that is not paired. -/
  remaining : List NewEvent
  /-- The version that the pairs lead to. -/
  expected : Int
  /-- Writes attempted so far. -/
  attempts : Nat
  /-- What comes next. -/
  phase : Phase Cursor

/-- A step leads on or ends the write. -/
inductive Next (Cursor : Type) where
  /-- The write goes on. -/
  | going (progress : Progress Cursor)
  /-- The write is over. -/
  | ended (outcome : WriteOutcome)

variable {W P : Type} (config : Idempotent W P)

/-- The start of a write. -/
def Progress.start {Cursor : Type} (events : List NewEvent) (expected : Int) : Progress Cursor :=
  ⟨events, expected, 0, .opening⟩

/-- What follows once the pairing is over: nothing is left to write, or the rest is. -/
def Progress.paired {Cursor : Type} (p : Progress Cursor) : Next Cursor :=
  if p.remaining.isEmpty then .ended .accepted else .going { p with phase := .writing }

/-- Opens the read of what is already written. A stream that was never written holds nothing. -/
def openRead (w : W) (stream : StreamId) (p : Progress config.reader.Cursor) :
    W × Next config.reader.Cursor :=
  match config.reader.forwardsFrom w stream p.expected with
  | .ok cursor => (w, .going { p with phase := .pairing cursor })
  | .error (.noSuchStream _) => (w, p.paired)
  | .error e => (w, .ended (.refused e))

/-- Pairs the next stored event with the first unpaired event of the batch. When the batch is
exhausted the read is given up without another pull. -/
def pair (w : W) (p : Progress config.reader.Cursor) (cursor : config.reader.Cursor) :
    W × Next config.reader.Cursor :=
  match p.remaining with
  | [] => (config.reader.close w cursor, p.paired)
  | new :: rest =>
    match config.reader.pull w cursor with
    | (w, cursor, .finished) => (config.reader.close w cursor, p.paired)
    | (w, cursor, .skipped) => (w, .going { p with phase := .pairing cursor })
    | (w, cursor, .failure e) => (config.reader.close w cursor, .ended (.refused e))
    | (w, cursor, .event current) =>
      match config.compatible.reason? current.record new with
      | some reason =>
        (config.reader.close w cursor, .ended (.refused (.incompatibleWrite
          (config.reader.codec.serialize current.position) reason current.record new)))
      | none =>
        (w, .going
          { p with remaining := rest, expected := p.expected + 1, phase := .pairing cursor })

/-- Whether the attempts made are all that are allowed. -/
def exhausted (attempts : Nat) : Bool := config.maxAttempts.any (· ≤ attempts)

/-- Writes what is not paired. A conflict with a stream that is ahead starts the pairing again. -/
def attempt (w : W) (stream : StreamId) (p : Progress config.reader.Cursor) :
    W × Next config.reader.Cursor :=
  match config.writer.write w stream p.remaining p.expected with
  | (w, .refused (.wrongExpectedVersion current tried)) =>
    if tried < current then
      if config.exhausted (p.attempts + 1) then
        (w, .ended (.refused (.retriesExhausted stream (p.attempts + 1))))
      else (w, .going { p with attempts := p.attempts + 1, phase := .opening })
    else (w, .ended (.refused (.wrongExpectedVersion current tried)))
  | (w, outcome) => (w, .ended outcome)

/-- Takes one step of a write. -/
def step (w : W) (stream : StreamId) (p : Progress config.reader.Cursor) :
    W × Next config.reader.Cursor :=
  match p.phase with
  | .opening => config.openRead w stream p
  | .pairing cursor => config.pair w p cursor
  | .writing => config.attempt w stream p

/-- Runs a write alone for at most a number of steps. -/
def run (stream : StreamId) : Nat → W → Progress config.reader.Cursor → W × WriteOutcome
  | 0, w, _ => (w, .unfinished)
  | steps + 1, w, p =>
    match config.step w stream p with
    | (w, .ended outcome) => (w, outcome)
    | (w, .going p) => run stream steps w p

/-- Writes a batch after the expected version, unless it is already there. -/
def write (w : W) (stream : StreamId) (events : List NewEvent) (expected : Int) :
    W × WriteOutcome :=
  config.run stream config.allowance w (.start events expected)

/-- The idempotent writer. Appending means writing after the empty stream. -/
def eventWriter : EventWriter W where
  write := config.write
  append w stream events := config.write w stream events noVersion

end Idempotent

end Chronicle
