import Chronicle.Proofs.Cache.Behind

/-!
# What a read adds to its cache

A read through a cache that is used alone changes nothing that is there. It may leave one more segment, and
then it has written all that its source yielded. Many things must come together for that, and each of them is
met or missed at another point of the read: when the directory is scanned, while segments are replayed, when
the source is opened, at each of its results, and at its end. So a read is followed from stage to stage, with
all that it was answered, and what was missed at one stage is not found again at a later one.
-/

namespace Chronicle

variable {W P : Type}

namespace Cache

open FileSystem

section Passing

variable (files : Place W FileSystem) (options : Options) (source : EventReader W P) (start : W)

/-- Whether a read may write what its source yields, as far as the cache goes: it is not only to be read,
nothing is stranded, and nothing is damaged. -/
def mayWrite : Bool :=
  (startRead files options source start).writing &&
    intact files source start (startRead files options source start)

/-- What a read answers before the source takes over. -/
def replayedItems : List (Item P) :=
  (leftToReplay files source start (startRead files options source start)).map .ok

/-- How far a read through the cache has come that was opened in a world, with its answers. -/
inductive Passage : W → Cursor source.Cursor P → List (Option (Item P)) → Prop where
  /-- It replays segments. -/
  | replaying {read : CachedRead source.Cursor P} {noted : List (Option (Item P))}
    (hphase : read.phase = .replaying) (hsink : read.sink = none)
    (hindex : read.nextIndex = (startRead files options source start).nextIndex)
    (hmay : (read.writing && intact files source start read) = mayWrite files options source start)
    (hnoted : noted ++ ((leftToReplay files source start read).map .ok : List (Item P)).map some =
      (replayedItems files options source start).map some)
    (hover : handover files source start read =
      handover files source start (startRead files options source start)) :
    Passage start (.cached read) noted
  /-- It passes the source. -/
  | tail {w : W} {read : CachedRead source.Cursor P} {c : source.Cursor} {items : List (Item P)}
    (hphase : read.phase = .tail c)
    (hopened : ∃ c, source.forwardsFrom start
      (handover files source start (startRead files options source start)) = .ok c)
    (hbehind : Behind source.codec (mayWrite files options source start) (files.get start) options.directory
      options.stem (startRead files options source start).nextIndex items (files.get w) read) :
    Passage w (.cached read) ((replayedItems files options source start ++ items).map some)
  /-- The source could not be opened. -/
  | refused {read : CachedRead source.Cursor P} {noted : List (Option (Item P))} {e : StoreError}
    (hphase : read.phase = .done) (hsink : read.sink = none)
    (hrefused : source.forwardsFrom start
      (handover files source start (startRead files options source start)) = .error e) :
    Passage start (.cached read) noted
  /-- It has ended. -/
  | ended {w : W} {read : CachedRead source.Cursor P} {items : List (Item P)} {rest : List (Option (Item P))}
    (hphase : read.phase = .done) (hsink : read.sink = none)
    (hopened : ∃ c, source.forwardsFrom start
      (handover files source start (startRead files options source start)) = .ok c)
    (hsettled : Settled source.codec (mayWrite files options source start) (files.get start) options.directory
      options.stem (startRead files options source start).nextIndex items (files.get w)) :
    Passage w (.cached read) ((replayedItems files options source start ++ items).map some ++ none :: rest)

variable {files options source start} {w later : W} {c next : Cursor source.Cursor P} {found : Found P}
  {noted : List (Option (Item P))}

/-- A read that is opened has not come far. -/
theorem passage_startRead :
    Passage files options source start start (.cached (startRead files options source start)) [] :=
  .replaying rfl rfl rfl rfl rfl rfl

/-- A read that turns to the source has nothing behind it yet. -/
theorem behind_of_turn {read : CachedRead source.Cursor P} (hsink : read.sink = none)
    (hindex : read.nextIndex = (startRead files options source start).nextIndex)
    (hmay : read.writing = mayWrite files options source start) :
    Behind source.codec (mayWrite files options source start) (files.get start) options.directory options.stem
      (startRead files options source start).nextIndex [] (files.get start) read := by
  cases hwriting : read.writing with
  | true => exact .ready (hmay.symm.trans hwriting) hwriting hsink hindex
  | false => exact .stopped hwriting hsink (.refl _) (.inl (hmay.symm.trans hwriting))

/-- What a read is answered while it passes the source is noted behind the rest. -/
theorem answers_item (items : List (Item P)) (item : Item P) :
    (replayedItems files options source start ++ items).map some ++ [some item] =
      (replayedItems files options source start ++ (items ++ [item])).map some := by
  simp only [List.map_append, List.map_singleton, List.append_assoc]

/-- A pull of a read that passes the source writes an event, ends the writing, or settles what was written. -/
theorem passage_tail (hplace : files.Lawful) (hleaves : source.Leaves files) (hfresh : (files.get start).Fresh)
    {below : source.Cursor} (hheld : source.Held below) {read : CachedRead source.Cursor P}
    {items : List (Item P)} (hphase : read.phase = .tail below)
    (hopened : ∃ c, source.forwardsFrom start
      (handover files source start (startRead files options source start)) = .ok c)
    (hbehind : Behind source.codec (mayWrite files options source start) (files.get start) options.directory
      options.stem (startRead files options source start).nextIndex items (files.get w) read)
    (hpull : (reads files options source).pull w (.cached read) = (later, next, found)) :
    Passage files options source start later next
      ((replayedItems files options source start ++ items).map some ++ found.answers) := by
  have hfiles := hleaves.pull w below hheld
  have hnext : source.Held (source.pull w below).2.1 := hheld.pulled
  have hmine : pullCached files options source w read = pullTail files options source w read below :=
    pullCached_tail hphase
  rw [pullTail_eq] at hmine
  rcases hbelow : source.pull w below with ⟨world, cursor, what⟩
  rw [hbelow] at hfiles hnext hmine
  rw [← show files.get world = files.get w from hfiles] at hbehind
  have hstill := hbehind.phase (.tail cursor)
  cases what with
  | event e =>
    rw [pull_cached hmine] at hpull
    cases hpull
    have hstays := (writeThrough_world files options source hplace world
      { read with phase := .tail cursor } e).2
    change Passage files options source start _ _ (_ ++ [some (.ok e)])
    rw [answers_item]
    exact .tail hstays hopened (behind_writeThrough hplace hfresh hstill e)
  | failure e =>
    rw [pull_cached hmine] at hpull
    cases hpull
    have hstays := stopWriting_phase files source world { read with phase := .tail cursor }
    change Passage files options source start _ _ (_ ++ [some (.error e)])
    rw [answers_item]
    exact .tail hstays hopened (behind_stopWriting hplace hfresh hstill e)
  | skipped =>
    rw [pull_cached hmine] at hpull
    cases hpull
    rw [Found.answers, List.append_nil]
    exact .tail rfl hopened hstill
  | finished =>
    rw [pull_cached hmine] at hpull
    cases hpull
    -- the source is closed before the file is finished, so the file must still be there as it was
    have hclosed : files.get (source.close world cursor) = files.get world := hleaves.close world cursor hnext
    have hended := finishSegment_phase files source (source.close world cursor) { read with phase := .done }
    rw [← hclosed] at hbehind
    obtain ⟨hsettled, hsink⟩ := settled_finishSegment hplace hfresh (hbehind.phase .done)
    exact .ended hended hsink hopened hsettled

section Replaying

variable {read : CachedRead source.Cursor P} (hphase : read.phase = .replaying) (hsink : read.sink = none)
  (hindex : read.nextIndex = (startRead files options source start).nextIndex)
  (hmay : (read.writing && intact files source start read) = mayWrite files options source start)
  (hnoted : noted ++ ((leftToReplay files source start read).map .ok : List (Item P)).map some =
    (replayedItems files options source start).map some)
  (hover : handover files source start read =
    handover files source start (startRead files options source start))

include hphase hsink hindex hmay hnoted hover in
/-- A read that has replayed some more still replays segments. -/
theorem passage_steps {read' : CachedRead source.Cursor P} (hsteps : Steps files source start read read' found) :
    Passage files options source start start (.cached read') (noted ++ found.answers) := by
  refine .replaying (hsteps.phase_eq.trans hphase) (hsteps.sink_eq.trans hsink)
    (hsteps.nextIndex_eq.trans hindex) ?_ ?_ (hsteps.handover_eq.trans hover)
  · rcases hsteps.damage with ⟨hintact, hwriting⟩ | ⟨hintact, hwriting⟩
    · rw [hintact, hwriting]
      exact hmay
    · rw [hwriting, ← hmay, hintact, Bool.and_false, Bool.false_and]
  · rcases hsteps.found with ⟨rfl, hsame, -⟩ | ⟨e, rfl, hfirst⟩
    · rw [hsame, Found.answers, List.append_nil]
      exact hnoted
    · rw [hfirst] at hnoted
      rw [← hnoted, List.append_assoc]
      rfl

include hsink hindex hmay hnoted hover in
/-- A read that has nothing left to replay passes the source, or is refused. -/
theorem passage_turn (hfile : read.current = none) (hsegments : read.segments = [])
    (hmine : pullCached files options source start read =
      match source.forwardsFrom start read.lastPosition with
      | .ok c => (start, { read with phase := .tail c }, .skipped)
      | .error e => (start, { read with phase := .done }, .failure e))
    (hpull : (reads files options source).pull start (.cached read) = (later, next, found)) :
    Passage files options source start later next (noted ++ found.answers) := by
  obtain ⟨hleft, hlast, hintact⟩ := handover_of_nil files source start hfile hsegments
  rw [hlast] at hover
  rw [hintact, Bool.and_true] at hmay
  rw [hleft, List.map_nil, List.map_nil, List.append_nil] at hnoted
  cases hopened : source.forwardsFrom start read.lastPosition with
  | ok c =>
    rw [hopened] at hmine
    rw [pull_cached hmine] at hpull
    cases hpull
    rw [hover] at hopened
    rw [Found.answers, List.append_nil, hnoted, ← List.append_nil (replayedItems files options source start)]
    exact .tail rfl ⟨c, hopened⟩ ((behind_of_turn hsink hindex hmay).phase (.tail c))
  | error e =>
    rw [hopened] at hmine
    rw [pull_cached hmine] at hpull
    cases hpull
    rw [hover] at hopened
    exact .refused rfl hsink hopened

end Replaying

/-- Every pull of a read leads from one stage to the same or the next. -/
theorem passage_pull (hplace : files.Lawful) (hleaves : source.Leaves files) (hfresh : (files.get start).Fresh)
    (hc : Below source c) (h : Passage files options source start w c noted)
    (hpull : (reads files options source).pull w c = (later, next, found)) :
    Passage files options source start later next (noted ++ found.answers) := by
  cases h with
  | @replaying read _ hphase hsink hindex hmay hnoted hover =>
    rcases pullCached_replaying files source start options hphase with
      ⟨read', what, hmine, hsteps⟩ | ⟨hfile, hsegments, hmine⟩
    · rw [pull_cached hmine] at hpull
      cases hpull
      exact passage_steps hphase hsink hindex hmay hnoted hover hsteps
    · exact passage_turn hsink hindex hmay hnoted hover hfile hsegments hmine hpull
  | tail hphase hopened hbehind => exact passage_tail hplace hleaves hfresh (hc _ hphase) hphase hopened hbehind hpull
  | refused hphase hsink hrefused =>
    rw [pull_cached (pullCached_done hphase)] at hpull
    cases hpull
    exact .refused hphase hsink hrefused
  | ended hphase hsink hopened hsettled =>
    rw [pull_cached (pullCached_done hphase)] at hpull
    cases hpull
    rw [List.append_assoc]
    exact .ended hphase hsink hopened hsettled

/-- A read that neither passes the source nor writes is closed without a trace. -/
theorem close_of_idle {read : CachedRead source.Cursor P} (hphase : ∀ c, read.phase ≠ .tail c)
    (hsink : read.sink = none) : (reads files options source).close w (.cached read) = w := by
  change closeCached files source w read = w
  unfold closeCached
  split
  · rename_i c htail
    exact absurd htail (hphase c)
  · unfold stopWriting
    rw [hsink]

/-- A read that is given up before its end leaves nothing, and one that has ended leaves what was settled. -/
theorem close_of_passage (hplace : files.Lawful) (hleaves : source.Leaves files)
    (hfresh : (files.get start).Fresh) (hc : Below source c)
    (h : Passage files options source start w c noted) :
    (∃ items rest, noted = (replayedItems files options source start ++ items).map some ++ none :: rest ∧
      (∃ c, source.forwardsFrom start
        (handover files source start (startRead files options source start)) = .ok c) ∧
      Settled source.codec (mayWrite files options source start) (files.get start) options.directory
        options.stem (startRead files options source start).nextIndex items
        (files.get ((reads files options source).close w c))) ∨
    ((files.get start).Gains (files.get ((reads files options source).close w c)) none ∧
      (none ∉ noted ∨ ∃ e, source.forwardsFrom start
        (handover files source start (startRead files options source start)) = .error e)) := by
  cases h with
  | @replaying read _ hphase hsink hindex hmay hnoted hover =>
    rw [close_of_idle (by rw [hphase]; exact fun _ => nofun) hsink]
    refine .inr ⟨.refl _, .inl fun hnone => ?_⟩
    have hall : none ∈ (replayedItems files options source start).map some := by
      rw [← hnoted]
      exact List.mem_append_left _ hnone
    obtain ⟨item, -, hitem⟩ := List.mem_map.1 hall
    nomatch hitem
  | @tail _ read below items hphase hopened hbehind =>
    refine .inr ⟨?_, .inl fun hnone => ?_⟩
    · have hclosed := hleaves.close w below (hc below hphase)
      rw [← hclosed] at hbehind
      change (files.get start).Gains (files.get (closeCached files source w read)) none
      unfold closeCached
      rw [hphase]
      exact gains_stopWriting hplace hfresh hbehind
    · obtain ⟨item, -, hitem⟩ := List.mem_map.1 hnone
      nomatch hitem
  | refused hphase hsink hrefused =>
    rw [close_of_idle (by rw [hphase]; exact fun _ => nofun) hsink]
    exact .inr ⟨.refl _, .inr ⟨_, hrefused⟩⟩
  | ended hphase hsink hopened hsettled =>
    rw [close_of_idle (by rw [hphase]; exact fun _ => nofun) hsink]
    exact .inl ⟨_, _, rfl, hopened, hsettled⟩

variable (options) in
/-- However often a read is asked, it comes from its opening to one of its stages. -/
theorem passage_ask (hplace : files.Lawful) (hsource : source.Prompt) (hleaves : source.Leaves files)
    (hfresh : (files.get start).Fresh) (count : Nat) :
    let asked := (reads files options source).ask count start (.cached (startRead files options source start))
    Passage files options source start asked.1 asked.2.1 asked.2.2 ∧ Below source asked.2.1 := by
  have hprompt : (reads files options source).Prompt (Below source) := prompt_reads hplace hsource
  exact hprompt.ask_keeps (Passage files options source start)
    (fun hc h hpull => passage_pull hplace hleaves hfresh hc h hpull) [] (below_of_replaying rfl)
    passage_startRead count

end Passing

section Direct

variable {files : Place W FileSystem} {options : Options} {source : EventReader W P} {w later : W}
  {c next : source.Cursor} {found : Found P}

/-- A read of the source alone finds what the source finds. -/
theorem finds_direct (hf : source.Finds w c later next found) :
    (reads files options source).Finds w (.direct c) later (.direct next) found := by
  have hpulled : ∀ {w later : W} {c next : source.Cursor} {found : Found P},
      source.pull w c = (later, next, found) →
      (reads files options source).pull w (.direct c) = (later, .direct next, found) := by
    intro w later c next found hpull
    have hmine : (reads files options source).pull w (.direct c) =
        ((source.pull w c).1, .direct (source.pull w c).2.1, (source.pull w c).2.2) := rfl
    rw [hmine, hpull]
  induction hf with
  | here hpull hne => exact .here (hpulled hpull) hne
  | skip hpull _ ih => exact .skip (hpulled hpull) ih

/-- A read of the source alone answers as the source does, and does the same to the world. -/
theorem ask_direct (hplace : files.Lawful) (hsource : source.Prompt) (hc : source.Held c) (count : Nat) :
    (reads files options source).ask count w (.direct c) =
      ((source.ask count w c).1, .direct (source.ask count w c).2.1, (source.ask count w c).2.2) := by
  have hprompt : (reads files options source).Prompt (Below source) := prompt_reads hplace hsource
  induction count generalizing w c with
  | zero => rfl
  | succ count ih =>
    obtain ⟨later, next, found, hf⟩ := hsource.exists_finds hc w
    have hmine : Below source (.direct c) := hc
    rw [hsource.ask_succ hc hf, hprompt.ask_succ hmine (finds_direct hf), ih (hsource.kept hc hf)]

end Direct

section Completing

variable {files : Place W FileSystem} {options : Options} {source : EventReader W P} {w : W}
  {scan : SegmentScan}

/-- All that it takes for a read from the start to add a segment to its cache. The results of the source are
those that it has yielded when the read was asked some number of times. -/
structure Completes (files : Place W FileSystem) (options : Options) (source : EventReader W P) (w : W)
    (scan : SegmentScan) (items : List (Item P)) (count : Nat) : Prop where
  /-- The cache is not only to be read. -/
  readWrite : options.readOnly = false
  /-- No segments are stranded. -/
  gapless : scan.stranded = []
  /-- Every segment that can be replayed is opened, and decoded to its end, with positions of the source. -/
  undamaged : ∀ path ∈ scan.replayablePaths options.directory options.stem,
    (replayOf source.codec (readFile (files.get w) path)).2 = true
  /-- The source is opened. -/
  opened : ∃ c, source.forwardsFrom w (handover files source w (startRead files options source w)) = .ok c
  /-- The read is asked for more than there is. -/
  ended : (leftToReplay files source w (startRead files options source w)).length + items.length < count
  /-- The source yields something, and only events that can be written. -/
  kept : Keepable source.codec (files.get w)
    (segmentPath options.directory options.stem scan.replayable.length) options.stem items

/-- Whether a read may write what its source yields depends on what was scanned. -/
theorem mayWrite_iff (hscan : scanSegments (files.get w) options.directory options.stem = .ok scan) :
    mayWrite files options source w = true ↔ options.readOnly = false ∧ scan.stranded = [] ∧
      ∀ path ∈ scan.replayablePaths options.directory options.stem,
        (replayOf source.codec (readFile (files.get w) path)).2 = true := by
  unfold mayWrite intact startRead
  rw [hscan]
  simp only [Bool.true_and, Bool.and_eq_true, Bool.not_eq_true', List.isEmpty_iff, List.all_eq_true,
    and_assoc]

/-- A file is read to its end as the records of some events, and replayed as these events if their positions are
read back. -/
structure ReadsAs (codec : PositionCodec P) (fs : FileSystem) (path : String) (events : List (Placed P)) :
    Prop where
  /-- The records. -/
  records : readFile fs path = (events.map (recordFor codec), none)
  /-- The events. -/
  replayed : (∀ e ∈ events, codec.deserialize (codec.serialize e.position) = .ok e.position) →
    replayOf codec (readFile fs path) = (events, true)

/-- A tree has one segment more, which holds some events, and no file is different otherwise. -/
structure NewSegment (codec : PositionCodec P) (fs fs' : FileSystem) (directory stem : String) (index : Nat)
    (events : List (Placed P)) : Prop where
  /-- Its file is all that was added, and its path leads there. -/
  filed : Filed fs fs' (segmentPath directory stem index)
    (encodeAll (events.map (recordFor codec)))
  /-- Its name tells its number. -/
  numbered : segmentIndex? stem (segmentName stem index) = some index
  /-- If the numbers of the events have eight bytes it is decoded to these events, at whole milliseconds. -/
  decoded : (∀ e ∈ events, -(Bytes.modulus64 : Int) ≤ 2 * e.record.number ∧
      2 * e.record.number < Bytes.modulus64) →
    ReadsAs codec fs' (segmentPath directory stem index) (events.map .floored)
  /-- If the events were at whole milliseconds, as those of a store are whose clock gives no fractions, it is
  decoded to exactly these events. -/
  exact : (∀ e ∈ events, -(Bytes.modulus64 : Int) ≤ 2 * e.record.number ∧
      2 * e.record.number < Bytes.modulus64) →
    (∀ e ∈ events, e.record.timestamp.floored = e.record.timestamp) →
    ReadsAs codec fs' (segmentPath directory stem index) events

/-- A segment that is filed with events that could be written holds them. -/
theorem newSegment_of_filed {codec : PositionCodec P} {fs fs' : FileSystem} {directory stem : String}
    {index : Nat} {events : List (Placed P)} (hlimit : index < segmentLimit)
    (hwritten : ∀ e ∈ events, ((recordFor codec e).write none).failure = none)
    (h : Filed fs fs' (segmentPath directory stem index) (encodeAll (events.map (recordFor codec)))) :
    NewSegment codec fs fs' directory stem index events := by
  have hdecoded (hnumbers : ∀ e ∈ events, -(Bytes.modulus64 : Int) ≤ 2 * e.record.number ∧
      2 * e.record.number < Bytes.modulus64) :
      ReadsAs codec fs' (segmentPath directory stem index) (events.map .floored) := by
    obtain ⟨place, file, -, hfind, hunpacks⟩ := h
    have hread := (readFile_of_unpacks hfind hunpacks).trans <| readAll_encodeAll fun r hr => by
      obtain ⟨e, he, rfl⟩ := List.mem_map.1 hr
      exact ⟨(writeFields_whole (hwritten e he)).2, hnumbers e he⟩
    have hfloored : (events.map (recordFor codec)).map (·.floored) =
        (events.map Placed.floored).map (recordFor codec) := by
      rw [List.map_map, List.map_map]
      rfl
    refine ⟨by rw [hread, hfloored], fun hpositions => ?_⟩
    rw [hread]
    exact replayOf_recordFor fun e he => hpositions e.floored (List.mem_map_of_mem he)
  refine ⟨h, segmentIndex?_segmentName hlimit, hdecoded, fun hnumbers hwhole => ?_⟩
  have hexact := hdecoded hnumbers
  rwa [Placed.map_floored hwhole] at hexact

section Given

variable [DecidableEq P] (files options source w) (count : Nat)

/-- The files when a read was asked some number of times and then given up. -/
def filesAfter (c : Cursor source.Cursor P) : FileSystem :=
  let asked := (eventReader files options source).ask count w c
  files.get ((eventReader files options source).close asked.1 asked.2.1)

/-- What comes of a read from the start that is asked some number of times and then given up, if its source has
yielded some results by then. -/
structure ReadsFromStart (scan : SegmentScan) (c : Cursor source.Cursor P) (items : List (Item P)) : Prop where
  /-- It is opened. -/
  opened : (eventReader files options source).forwardsFrom w source.emptyPosition = .ok c
  /-- It answers with what is replayed and then with what the source yields. -/
  answered : ((eventReader files options source).ask count w c).2.2 =
    answersOf ((leftToReplay files source w (startRead files options source w)).map .ok ++ items) count
  /-- The source is read from where the replay ended, as often as it takes. -/
  takesOver : TakesOver files source w (handover files source w (startRead files options source w))
    (count - (leftToReplay files source w (startRead files options source w)).length) items
  /-- If everything comes together, one segment was added, with the number of segments that can be replayed for its
  own, and with all that the source has yielded. -/
  added : Completes files options source w scan items count → ∃ events : List (Placed P),
    items = events.map .ok ∧ NewSegment source.codec (files.get w) (filesAfter files options source w count c)
      options.directory options.stem scan.replayable.length events
  /-- If anything is missing, no file was added, under a name of its own or under one that was drawn. -/
  nothing : ¬ Completes files options source w scan items count →
    (files.get w).Gains (filesAfter files options source w count c) none

/-- What comes of a read from a position other than the start: the cache does not come into it. -/
structure ReadsPast (position : P) : Prop where
  /-- It is opened if the read of the source is, or fails as that does. -/
  opened : (eventReader files options source).forwardsFrom w position =
    Cursor.direct <$> source.forwardsFrom w position
  /-- It answers the same and does the same to the world. -/
  answered : ∀ c, source.forwardsFrom w position = .ok c →
    (eventReader files options source).ask count w (.direct c) =
      ((source.ask count w c).1, .direct (source.ask count w c).2.1, (source.ask count w c).2.2)
  /-- It is given up as the read of the source is. -/
  closed : ∀ c, source.forwardsFrom w position = .ok c →
    (eventReader files options source).close (source.ask count w c).1 (.direct (source.ask count w c).2.1) =
      source.close (source.ask count w c).1 (source.ask count w c).2.1
  /-- The files are as they were. -/
  untouched : ∀ c, source.forwardsFrom w position = .ok c →
    files.get (source.close (source.ask count w c).1 (source.ask count w c).2.1) = files.get w

end Given

/-- When a read is given up, a segment was added if everything has come together, and nothing if not. -/
theorem added_iff_completes [DecidableEq P] (hplace : files.Lawful) (hsource : source.Prompt)
    (hleaves : source.Leaves files) (hfresh : (files.get w).Fresh)
    (hscan : scanSegments (files.get w) options.directory options.stem = .ok scan)
    (hlimit : scan.replayable.length < segmentLimit) {count : Nat} {items : List (Item P)}
    (hanswers : ((eventReader files options source).ask count w (.cached (startRead files options source w))).2.2 =
      answersOf ((leftToReplay files source w (startRead files options source w)).map .ok ++ items) count) :
    let later := filesAfter files options source w count (.cached (startRead files options source w))
    (Completes files options source w scan items count → ∃ events : List (Placed P), items = events.map .ok ∧
      NewSegment source.codec (files.get w) later options.directory options.stem scan.replayable.length events) ∧
    (¬ Completes files options source w scan items count → (files.get w).Gains later none) := by
  intro later
  obtain ⟨hpassage, hbelow⟩ := passage_ask options hplace hsource hleaves hfresh count
  have hindex : (startRead files options source w).nextIndex = scan.replayable.length := by
    unfold startRead
    rw [hscan]
    rfl
  rw [show ((reads files options source).ask count w (.cached (startRead files options source w))).2.2 = _ from
    hanswers] at hpassage
  -- whether the read was asked for more than there is shows in its answers: nothing is among them
  rcases close_of_passage hplace hleaves hfresh hbelow hpassage with
    ⟨items', rest, hnoted, hopened, hsettled⟩ | ⟨hgains, hreason⟩
  · have hended : ((leftToReplay files source w (startRead files options source w)).map .ok ++ items :
        List (Item P)).length < count := by
      refine lt_of_none_mem_answersOf ?_
      rw [hnoted]
      exact List.mem_append_right _ List.mem_cons_self
    obtain ⟨rest', hall⟩ := answersOf_of_lt hended
    rw [hall] at hnoted
    obtain rfl : items = items' := List.append_cancel_left (eq_of_map_some_append hnoted)
    rw [List.length_append, List.length_map] at hended
    rw [hindex] at hsettled
    have hcompletes : Completes files options source w scan items count ↔
        mayWrite files options source w = true ∧ Keepable source.codec (files.get w)
          (segmentPath options.directory options.stem scan.replayable.length) options.stem items := by
      rw [mayWrite_iff hscan]
      exact ⟨fun h => ⟨⟨h.readWrite, h.gapless, h.undamaged⟩, h.kept⟩,
        fun ⟨⟨hmode, hgapless, hundamaged⟩, hkept⟩ =>
          ⟨hmode, hgapless, hundamaged, hopened, hended, hkept⟩⟩
    rw [hcompletes]
    refine ⟨fun h => ?_, hsettled.2⟩
    obtain ⟨events, rfl, hfiled⟩ := hsettled.1 h
    refine ⟨events, rfl, newSegment_of_filed hlimit (fun e he => ?_) hfiled⟩
    obtain ⟨other, hsame, hwritten⟩ := h.2.recordable (.ok e) (List.mem_map_of_mem he)
    cases hsame
    exact hwritten
  · refine ⟨fun h => ?_, fun _ => hgains⟩
    rcases hreason with hnone | ⟨e, hrefused⟩
    · have hended : ((leftToReplay files source w (startRead files options source w)).map .ok ++ items :
          List (Item P)).length < count := by
        rw [List.length_append, List.length_map]
        exact h.ended
      obtain ⟨rest, hall⟩ := answersOf_of_lt hended
      rw [hall] at hnone
      exact absurd (List.mem_append_right _ List.mem_cons_self) hnone
    · obtain ⟨c, hopened⟩ := h.opened
      rw [hrefused] at hopened
      nomatch hopened

/-- A read through a cache whose directory can be listed, or is missing, changes no file that is there. If it
was opened at the start and everything comes together, it has added one segment when it is given up, and no file
otherwise. A read from any other position is a read of the source. -/
theorem cached_read_adds_segment [DecidableEq P] (hplace : files.Lawful) (hsource : source.Prompt)
    (hleaves : source.Leaves files) (options : Options) (w : W) (hfresh : (files.get w).Fresh)
    (hscan : scanSegments (files.get w) options.directory options.stem = .ok scan)
    (hlimit : scan.replayable.length < segmentLimit) (count : Nat) :
    (∃ c items, ReadsFromStart files options source w count scan c items) ∧
      ∀ position, position ≠ source.emptyPosition → ReadsPast files options source w count position := by
  constructor
  · obtain ⟨items, htakes, hanswers⟩ := answers_of_replaying options hplace hsource
      (rfl : (startRead files options source w).phase = .replaying) count
    obtain ⟨hadded, hnothing⟩ := added_iff_completes hplace hsource hleaves hfresh hscan hlimit hanswers
    exact ⟨.cached (startRead files options source w), items, if_pos rfl, hanswers, htakes, hadded, hnothing⟩
  · intro position hposition
    exact {
      opened := if_neg hposition
      answered := fun c hopened => ask_direct hplace hsource (.opened hopened) count
      closed := fun _ _ => rfl
      untouched := fun c hopened => hleaves.ask hsource (.opened hopened) count }

/-- The directory of a cache is missing and the store has two events. A read that is asked for a third writes
both to the first segment. One that is given up before it has ended leaves nothing but the directory. -/
theorem cached_read_adds_segment_first :
    let orders : StreamId := ⟨"orders", "1", by decide⟩
    let store := (Store.withClock fun _ => .epoch).append orders
      [⟨"Placed", [1], []⟩, ⟨"Paid", [2], []⟩]
    let first : Placed Nat := ⟨1, ⟨.epoch, orders, 0, "Placed", [1], []⟩⟩
    let second : Placed Nat := ⟨2, ⟨.epoch, orders, 1, "Paid", [2], []⟩⟩
    let site : Site := ⟨store, {}⟩
    let options : Options := { directory := "d" }
    let givenUp (count : Nat) (c : (eventReader Site.filesPlace options Site.source).Cursor) : FileSystem :=
      let asked := (eventReader Site.filesPlace options Site.source).ask count site c
      ((eventReader Site.filesPlace options Site.source).close asked.1 asked.2.1).files
    Site.filesPlace.Lawful ∧ Site.source.Prompt ∧ Site.source.Leaves Site.filesPlace ∧ site.files.Fresh ∧
      scanSegments site.files "d" defaultStem = .ok {} ∧
      ∃ c, (eventReader Site.filesPlace options Site.source).forwardsFrom site 0 = .ok c ∧
        NewSegment PositionCodec.log site.files (givenUp 3 c) "d" defaultStem 0 [first, second] ∧
        site.files.Gains (givenUp 2 c) none := by
  intro orders store first second site options givenUp
  have hplace : Site.filesPlace.Lawful := ⟨fun _ _ => rfl, fun _ => rfl, fun _ _ _ => rfl⟩
  have hprompt : Site.source.Prompt := Site.source.prompt_of_pulls Site.pull_ne_skipped
  have hleaves : Site.source.Leaves Site.filesPlace := ⟨fun _ _ _ => rfl, fun _ _ _ => rfl⟩
  have hfresh : site.files.Fresh := fresh_of_given fun _ he => absurd he List.not_mem_nil
  have hscan : scanSegments site.files "d" defaultStem = .ok {} := rfl
  have hvacant : Vacant site.files (segmentPath "d" defaultStem 0) defaultStem := by
    let sink : FileWriter :=
      { destination := "d/cache-00000000.gz"
        temporary := ⟨"d/.cache-000000.tmp", .drawn ".cache-" ".tmp" 0⟩ }
    have hcreate : (FileWriter.create site.files (segmentPath "d" defaultStem 0) defaultStem).2 = .ok sink := by
      decide +kernel
    have hfinish : (sink.finish (FileWriter.create site.files (segmentPath "d" defaultStem 0)
        defaultStem).1).2 = .ok (.persisted "d/cache-00000000.gz") := by
      decide +kernel
    have hfind : (FileWriter.create site.files (segmentPath "d" defaultStem 0) defaultStem).1.find
        (segmentPath "d" defaultStem 0) = .error .notFound := by
      decide +kernel
    rcases hbegun : FileWriter.create site.files (segmentPath "d" defaultStem 0) defaultStem with ⟨begun, result⟩
    rw [hbegun] at hcreate hfinish hfind
    obtain rfl : result = .ok sink := hcreate
    refine ⟨⟨begun, sink, _, hbegun, hfinish⟩, ?_⟩
    rw [hbegun, hfind]
    exact fun _ => nofun
  have hkept : Keepable Site.source.codec site.files (segmentPath "d" defaultStem 0) defaultStem
      [.ok first, .ok second] := by
    refine ⟨List.cons_ne_nil _ _, fun item hitem => ?_, hvacant⟩
    simp only [List.mem_cons, List.not_mem_nil, or_false] at hitem
    rcases hitem with rfl | rfl
    · exact ⟨first, rfl, by decide +kernel⟩
    · exact ⟨second, rfl, by decide +kernel⟩
  have hreplayed : leftToReplay Site.filesPlace Site.source site
      (startRead Site.filesPlace options Site.source site) = [] := by
    rw [leftToReplay_startRead]
    unfold replayable
    rw [show scanSegments (Site.filesPlace.get site) options.directory options.stem = _ from hscan]
    rfl
  have hlast : handover Site.filesPlace Site.source site
      (startRead Site.filesPlace options Site.source site) = 0 := by
    unfold handover
    rw [hreplayed]
    rfl
  have hbelow : Site.source.forwardsFrom site 0 = .ok (Log.readAfter 0 .all) := rfl
  have hitems : ∀ {limit items}, TakesOver Site.filesPlace Site.source site 0 limit items →
      items = (Site.source.take limit site (Log.readAfter 0 .all)).2.2 := by
    intro limit items htakes
    unfold TakesOver at htakes
    rw [hbelow] at htakes
    exact Site.apart_source.take_eq hplace hprompt (.opened hbelow) htakes
  obtain ⟨⟨c, items, hopened, -, htakes, hadds, -⟩, -⟩ :=
    cached_read_adds_segment hplace hprompt hleaves options site hfresh hscan (by decide) 3
  obtain ⟨⟨c', items', hopened', -, htakes', -, hgains⟩, -⟩ :=
    cached_read_adds_segment hplace hprompt hleaves options site hfresh hscan (by decide) 2
  obtain rfl : c = c' := Except.ok.inj (hopened.symm.trans hopened')
  rw [hreplayed, hlast] at htakes htakes'
  have htwo : (Site.source.take 3 site (Log.readAfter 0 .all)).2.2 = [.ok first, .ok second] := by
    decide +kernel
  have hboth : (Site.source.take 2 site (Log.readAfter 0 .all)).2.2 = [.ok first, .ok second] := by
    decide +kernel
  obtain rfl : items = [.ok first, .ok second] := (hitems htakes).trans htwo
  obtain rfl : items' = [.ok first, .ok second] := (hitems htakes').trans hboth
  obtain ⟨events, hevents, hsegment⟩ := hadds
    ⟨rfl, rfl, fun _ hpath => absurd hpath List.not_mem_nil, ⟨_, hlast ▸ hbelow⟩,
      by rw [hreplayed]; decide, hkept⟩
  obtain rfl : [first, second] = events := by
    have hinjective : Function.Injective (List.map (Except.ok : Placed Nat → Item Nat)) :=
      List.map_injective_iff.2 fun _ _ h => Except.ok.inj h
    exact hinjective hevents
  refine ⟨hplace, hprompt, hleaves, hfresh, hscan, c, hopened, hsegment, hgains fun h => ?_⟩
  have hended := h.ended
  rw [hreplayed] at hended
  exact absurd hended (by decide)

end Completing

end Cache

end Chronicle
