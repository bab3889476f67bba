import Chronicle.Failure

/-!
# Writers

A writer appends a batch to a stream, either at whatever version the stream has or only at an
expected one. Several requests can be executed together: each stream may appear once, a conflict of
versions is noted and does not stop the others, and any other refusal stops the rest.
-/

namespace Chronicle

/-- What came of a write. -/
inductive WriteOutcome where
  /-- The batch is in the stream. -/
  | accepted
  /-- The writer refused. -/
  | refused (error : StoreError)
  /-- The writer was still retrying when the steps allowed to it ran out. -/
  | unfinished
  deriving DecidableEq, Repr

/-- One stream's part of a batch. -/
structure StreamRequest where
  /-- The stream to write to. -/
  stream : StreamId
  /-- What to append. -/
  events : List NewEvent
  /-- The version the stream must have, if it matters. -/
  expected : Option Int := none
  deriving DecidableEq, Repr

/-- The first stream that occurs a second time, given those seen before. -/
def repeatedStream? (seen : List StreamId) : List StreamRequest → Option StreamId
  | [] => none
  | request :: rest =>
    if request.stream ∈ seen then some request.stream
    else repeatedStream? (request.stream :: seen) rest

/-- The outcome of a batch whose other requests were accepted. -/
def WriteOutcome.ofConflicts : List StreamConflict → WriteOutcome
  | [] => .accepted
  | conflicts => .refused (.batchWriteConflict conflicts)

/-- The two ways of writing to one stream. -/
structure StreamWrites (W : Type) where
  /-- Appends a batch if the stream is at the expected version. -/
  write : W → StreamId → List NewEvent → Int → W × WriteOutcome
  /-- Appends a batch at whatever version the stream has. -/
  append : W → StreamId → List NewEvent → W × WriteOutcome

namespace StreamWrites

variable {W : Type} (writes : StreamWrites W)

/-- Writes one request of a batch. -/
def apply (w : W) (request : StreamRequest) : W × WriteOutcome :=
  match request.expected with
  | some expected => writes.write w request.stream request.events expected
  | none => writes.append w request.stream request.events

/-- Writes requests in order, after some that met the given conflicts. -/
def applyAll (w : W) (conflicts : List StreamConflict) : List StreamRequest → W × WriteOutcome
  | [] => (w, .ofConflicts conflicts)
  | request :: rest =>
    match writes.apply w request with
    | (w, .accepted) => applyAll w conflicts rest
    | (w, .refused (.wrongExpectedVersion current expected)) =>
      applyAll w (conflicts ++ [⟨request.stream, current, expected⟩]) rest
    | (w, outcome) => (w, outcome)

/-- Executes a batch: nothing is written if a stream occurs twice. -/
def executeInOrder (w : W) (requests : List StreamRequest) : W × WriteOutcome :=
  match repeatedStream? [] requests with
  | some stream => (w, .refused (.illegalState
      ("duplicate stream id in write request: " ++ stream.text)))
  | none => writes.applyAll w [] requests

end StreamWrites

/-- Appends events to streams. -/
structure EventWriter (W : Type) extends StreamWrites W where
  /-- Writes several requests in order. -/
  execute : W → List StreamRequest → W × WriteOutcome :=
    toStreamWrites.executeInOrder

end Chronicle
