import Chronicle.Cache.Reader
import Chronicle.Proofs.Access.Aside
import Chronicle.Proofs.Cache.Stems

/-!
# Caching readers that overlook files

A caching reader opens the segments of its own stem, starts files of its own, and moves them to names of its
own. So it stands aside of all files whose names are none of these, and of those of other stems in
particular, if the source below does. What carries this through a read is what it holds on to: paths of its
own segments, a file of its own that it is writing, and a read of the source.
-/

namespace Chronicle.Cache

/-- Owned names that a cache neither gives to its files nor takes for those of its segments. -/
structure Foreign (stem : String) (owned : String → Bool) : Prop where
  /-- No segment bears one. -/
  segment : ∀ index, owned (segmentName stem index) = false
  /-- No file that is being written bears one. -/
  temporary : ∀ serial, owned (temporaryName stem serial) = false
  /-- None is taken for that of a segment. -/
  unread : ∀ text, owned text = true → segmentIndex? stem text = none

/-- The names of another cache are foreign. -/
theorem foreign_owns {stem other : String} (hne : stem ≠ other) : Foreign stem (owns other) where
  segment index := owns_eq_false hne (owns_segmentName stem index)
  temporary serial := owns_eq_false hne (owns_temporaryName stem serial)
  unread _ h := segmentIndex?_of_owns hne h

/-- Fewer names than foreign ones are foreign. -/
theorem Foreign.mono {stem : String} {owned fewer : String → Bool} (h : Foreign stem owned)
    (hfewer : ∀ text, fewer text = true → owned text = true) : Foreign stem fewer := by
  have hnot : ∀ {text}, owned text = false → fewer text = false := by
    intro text ht
    rw [Bool.eq_false_iff]
    intro hf
    rw [hfewer text hf] at ht
    nomatch ht
  exact ⟨fun index => hnot (h.segment index), fun serial => hnot (h.temporary serial),
    fun text hf => h.unread text (hfewer text hf)⟩

section Looking

variable {directory stem : String} {place : Location} {owned : String → Bool} {fs : FileSystem}

/-- Segments are found where they are found without foreign files. -/
theorem find_segment_without (hs : Path.Slashless stem) (hf : Foreign stem owned)
    (h : fs.find directory = .ok (place, .directory)) (index : Nat) :
    (fs.without place owned).find (segmentPath directory stem index) =
      fs.find (segmentPath directory stem index) :=
  FileSystem.find_join_without h (slashless_segmentName hs index) (segmentName_ne stem index).1
    (isRelative_segmentName stem index) (hf.segment index)

/-- Segments are opened as they are without foreign files. -/
theorem open_segment_without (hs : Path.Slashless stem) (hf : Foreign stem owned)
    (h : fs.find directory = .ok (place, .directory)) (index : Nat) :
    FileReader.open (fs.without place owned) (segmentPath directory stem index) =
      FileReader.open fs (segmentPath directory stem index) := by
  unfold FileReader.open
  rw [find_segment_without hs hf h]

/-- Segments hold what they hold without foreign files. -/
theorem readFile_segment_without (hs : Path.Slashless stem) (hf : Foreign stem owned)
    (h : fs.find directory = .ok (place, .directory)) (index : Nat) :
    readFile (fs.without place owned) (segmentPath directory stem index) =
      readFile fs (segmentPath directory stem index) := by
  unfold readFile
  rw [open_segment_without hs hf h]

/-- Segments yield the events that they yield without foreign files. -/
theorem replaySegments_without {P : Type} (codec : PositionCodec P) (hs : Path.Slashless stem)
    (hf : Foreign stem owned) (h : fs.find directory = .ok (place, .directory)) {paths : List String}
    (hpaths : ∀ path ∈ paths, ∃ index, path = segmentPath directory stem index) :
    replaySegments codec (fs.without place owned) paths = replaySegments codec fs paths := by
  induction paths with
  | nil => rfl
  | cons path rest ih =>
    obtain ⟨index, rfl⟩ := hpaths path List.mem_cons_self
    unfold replaySegments
    rw [readFile_segment_without hs hf h, ih fun path hp => hpaths path (List.mem_cons_of_mem _ hp)]

/-- The segments of a cache are scanned as they are without foreign files. -/
theorem scanSegments_without (hf : Foreign stem owned) (h : fs.find directory = .ok (place, .directory)) :
    scanSegments (fs.without place owned) directory stem = scanSegments fs directory stem := by
  obtain ⟨names, hnames, hwithout⟩ := FileSystem.list_without owned h
  have hscan : (names.filter fun name => !fs.holdsOwned place owned (place ++ [name])).filterMap
      (segmentIndex? stem ·.text) = names.filterMap (segmentIndex? stem ·.text) := by
    rw [List.filterMap_filter]
    refine List.filterMap_congr fun name _ => ?_
    cases hheld : fs.holdsOwned place owned (place ++ [name]) with
    | false => rfl
    | true =>
      obtain ⟨other, -, hplace, howned, -⟩ := FileSystem.holdsOwned_iff.1 hheld
      rw [List.singleton_inj.1 (List.append_cancel_left hplace), hf.unread _ howned]
      rfl
  rw [scanSegments_of_list hnames, scanSegments_of_list hwithout]
  unfold scanNames
  rw [hscan]

/-- The paths of scanned segments are those of segments. -/
theorem exists_index_of_replayable {scan : SegmentScan} {path : String}
    (h : path ∈ scan.replayablePaths directory stem) : ∃ index, path = segmentPath directory stem index := by
  obtain ⟨index, -, hpath⟩ := List.mem_map.1 h
  exact ⟨index, hpath.symm⟩

end Looking

section Writing

variable {directory stem : String} {place : Location} {owned : String → Bool} {fs : FileSystem}

/-- A file that is being written has a name of the cache. -/
theorem unowned_sinkEntry (hs : Path.Slashless stem) (hf : Foreign stem owned) (index serial : Nat) :
    owned (sinkEntry directory stem index serial).name.text = false := by
  rw [text_sinkEntry hs]
  exact hf.temporary serial

/-- Foreign files do not matter to where a file that is being written stands. -/
theorem slot_sinkEntry_without (hs : Path.Slashless stem) (h : fs.find directory = .ok (place, .directory))
    (index serial : Nat) : (fs.without place owned).slot (sinkEntry directory stem index serial).path =
      fs.slot (sinkEntry directory stem index serial).path :=
  FileSystem.slot_without fun hcheck => ⟨_, slot_sinkEntry hs h hcheck⟩

/-- Starting a file spares foreign files. -/
theorem spared_create (hs : Path.Slashless stem) (hf : Foreign stem owned) (fs : FileSystem) (index : Nat) :
    fs.Spared owned (FileWriter.create fs (segmentPath directory stem index) stem).1 := by
  have hgrown := FileSystem.grown_createDirectories fs (Path.parent (segmentPath directory stem index))
  unfold FileWriter.create
  dsimp only
  split
  · rename_i hc
    rw [hc] at hgrown
    exact .of_grown hgrown
  · rename_i hc
    rw [hc] at hgrown
    split
    · exact .of_grown hgrown
    · rename_i ht
      exact (FileSystem.Spared.of_grown hgrown).trans (.createTemporary (unowned_sinkEntry hs hf index) ht)

/-- Starting a file does the same without foreign files. -/
theorem create_without (hs : Path.Slashless stem) (hf : Foreign stem owned)
    (h : fs.find directory = .ok (place, .directory)) (index : Nat) :
    FileWriter.create (fs.without place owned) (segmentPath directory stem index) stem =
      ((FileWriter.create fs (segmentPath directory stem index) stem).1.without place owned,
        (FileWriter.create fs (segmentPath directory stem index) stem).2) := by
  obtain ⟨hne, hdot, -⟩ := segmentName_ne stem index
  have hname := slashless_segmentName hs index
  have hdirectories : ∀ {files : FileSystem}, files.find directory = .ok (place, .directory) →
      files.createDirectories (Path.parent (segmentPath directory stem index)) =
        (files, Path.check (Path.parent (segmentPath directory stem index))) :=
    fun hfound => FileSystem.createDirectories_parent_join hfound hname hne hdot
  unfold FileWriter.create
  dsimp only
  rw [hdirectories h, hdirectories (FileSystem.find_directory_without.2 h)]
  cases Path.check (Path.parent (segmentPath directory stem index)) with
  | error e => rfl
  | ok u =>
    dsimp only
    rw [FileSystem.createTemporary_without (slot_sinkEntry_without hs h index)
      (unowned_sinkEntry hs hf index)]
    cases fs.createTemporary (Path.parent (segmentPath directory stem index)) (inProgressStart stem)
      inProgressEnding <;> rfl

/-- A file that is being written becomes a segment of the cache, and has a name of the cache until then. -/
structure OwnSink (directory stem : String) (sink : FileWriter) : Prop where
  /-- It becomes a segment. -/
  destination : ∃ index, sink.destination = segmentPath directory stem index
  /-- Its name was drawn for the cache. -/
  temporary : ∃ index serial, sink.temporary = sinkEntry directory stem index serial

/-- A file that was started is one of the cache. -/
theorem ownSink_create {index : Nat} {sink : FileWriter}
    (h : (FileWriter.create fs (segmentPath directory stem index) stem).2 = .ok sink) :
    OwnSink directory stem sink := by
  unfold FileWriter.create at h
  dsimp only at h
  split at h
  · nomatch h
  · split at h
    · nomatch h
    · rename_i ht
      obtain ⟨-, rfl, -⟩ := FileSystem.createTemporary_eq_ok ht
      obtain rfl := Except.ok.inj h
      exact ⟨⟨index, rfl⟩, index, _, rfl⟩

/-- Starting a file overlooks foreign files, and the file is one of the cache. -/
theorem overlooks_create {W : Type} {share : Share W} (hs : Path.Slashless stem)
    (hf : Foreign stem share.owned) (index : Nat) :
    share.alone.Overlooks (fun fs => FileWriter.create fs (segmentPath share.directory stem index) stem)
      fun result => ∀ sink, result = .ok sink → OwnSink share.directory stem sink :=
  .of_tree (fun fs => spared_create hs hf fs index) (fun _ h => create_without hs hf h index)
    fun _ _ h => ownSink_create h

/-- A file that is being written keeps its names when a record is appended. -/
theorem OwnSink.append {sink : FileWriter} (h : OwnSink directory stem sink) (record : CachedRecord) :
    OwnSink directory stem (sink.append record).1 := by
  unfold FileWriter.append
  dsimp only
  split
  · exact ⟨h.destination, h.temporary⟩
  · exact ⟨h.destination, h.temporary⟩

variable {W : Type} {share : Share W} {sink : FileWriter}

/-- Giving up a file of the cache does the same without foreign files. -/
theorem discard_without (hs : Path.Slashless stem) (hf : Foreign stem owned)
    (h : fs.find directory = .ok (place, .directory)) (hsink : OwnSink directory stem sink) :
    sink.discard (fs.without place owned) = (sink.discard fs).without place owned := by
  obtain ⟨index, serial, hentry⟩ := hsink.temporary
  unfold FileWriter.discard
  rw [hentry]
  exact FileSystem.discardFile_without (slot_sinkEntry_without hs h index serial)
    (unowned_sinkEntry hs hf index serial)

/-- Giving up a file of the cache spares foreign files. -/
theorem spared_discard (hs : Path.Slashless stem) (hf : Foreign stem owned)
    (hsink : OwnSink directory stem sink) (fs : FileSystem) : fs.Spared owned (sink.discard fs) := by
  obtain ⟨index, serial, hentry⟩ := hsink.temporary
  unfold FileWriter.discard
  rw [hentry]
  exact .discardFile (unowned_sinkEntry hs hf index serial)

/-- Giving up a file of the cache overlooks foreign files. -/
theorem overlooks_discard (hs : Path.Slashless stem) (hf : Foreign stem share.owned)
    (hsink : OwnSink share.directory stem sink) : share.alone.Overlooks fun fs => (sink.discard fs, ()) :=
  .of_tree (spared_discard hs hf hsink) (fun _ h => Prod.ext (discard_without hs hf h hsink) rfl)
    fun _ => trivial

/-- Finishing a file of the cache spares foreign files. -/
theorem spared_finish (hs : Path.Slashless stem) (hf : Foreign stem owned)
    (hsink : OwnSink directory stem sink) (fs : FileSystem) : fs.Spared owned (sink.finish fs).1 := by
  unfold FileWriter.finish
  split
  · rename_i hmoved
    obtain ⟨index, serial, hentry⟩ := hsink.temporary
    rw [hentry] at hmoved
    have hdrawn : ¬ (sinkEntry directory stem index serial).name.IsGiven := id
    exact .moveToFree hdrawn (unowned_sinkEntry hs hf index serial) hmoved
  · exact spared_discard hs hf hsink fs
  · exact spared_discard hs hf hsink fs

/-- Finishing a file of the cache does the same without foreign files. -/
theorem finish_without (hs : Path.Slashless stem) (hf : Foreign stem owned)
    (h : fs.find directory = .ok (place, .directory)) (hsink : OwnSink directory stem sink) :
    sink.finish (fs.without place owned) = ((sink.finish fs).1.without place owned, (sink.finish fs).2) := by
  have hdiscard := discard_without hs hf h hsink
  obtain ⟨index, serial, hentry⟩ := hsink.temporary
  obtain ⟨last, hdestination⟩ := hsink.destination
  obtain ⟨hne, -, -⟩ := segmentName_ne stem last
  have hslot : Path.check sink.destination = .ok () →
      fs.slot sink.destination = .ok (place, segmentName stem last) := by
    intro hcheck
    rw [hdestination] at hcheck ⊢
    exact FileSystem.slot_join h (slashless_segmentName hs last) hne hcheck
  have hfree : ∀ target name, fs.slot sink.destination = .ok (target, name) → owned name = false := by
    intro target name hat
    rw [hslot (FileSystem.slot_eq_ok_iff.1 hat).1] at hat
    cases hat
    exact hf.segment last
  have hmove : (fs.without place owned).moveToFree sink.temporary sink.destination
      (Gzip.pack sink.contents) =
        (fs.moveToFree sink.temporary sink.destination (Gzip.pack sink.contents)).map
          (·.without place owned) := by
    refine FileSystem.moveToFree_without ?_ ?_ ?_ hfree
    · rw [hentry]
      exact slot_sinkEntry_without hs h index serial
    · exact FileSystem.slot_without fun hcheck => ⟨_, hslot hcheck⟩
    · rw [hentry]
      exact unowned_sinkEntry hs hf index serial
  unfold FileWriter.finish
  rw [hmove]
  cases fs.moveToFree sink.temporary sink.destination (Gzip.pack sink.contents) with
  | ok fs' => rfl
  | error e =>
    cases e <;> exact Prod.ext hdiscard rfl

/-- Finishing a file of the cache overlooks foreign files. -/
theorem overlooks_finish (hs : Path.Slashless stem) (hf : Foreign stem share.owned)
    (hsink : OwnSink share.directory stem sink) : share.alone.Overlooks fun fs => sink.finish fs :=
  .of_tree (spared_finish hs hf hsink) (fun _ h => finish_without hs hf h hsink) fun _ => trivial

end Writing

section Reading

variable {W P : Type}

/-- The files with owned names beside those of a cache. -/
abbrev Options.beside (options : Options) (files : Place W FileSystem) (place : Location)
    (owned : String → Bool) : Share W := ⟨files, options.directory, place, owned⟩

/-- What a read through a cache holds on to: segments of its own, a file of its own that it is writing, and a
read of the source. -/
structure OwnRead (options : Options) (source : EventReader W P) (read : CachedRead source.Cursor P) :
    Prop where
  /-- The segments to come are those of the cache. -/
  segments : ∀ path ∈ read.segments, ∃ index, path = segmentPath options.directory options.stem index
  /-- The tail is a read of the source. -/
  tail : ∀ c, read.phase = .tail c → source.Held c
  /-- The file that is being written is one of the cache. -/
  sink : ∀ sink, read.sink = some sink → OwnSink options.directory options.stem sink

variable {files : Place W FileSystem} {options : Options} {place : Location} {owned : String → Bool}
  {source : EventReader W P} {read : CachedRead source.Cursor P}

namespace OwnRead

/-- A read that was just started. -/
theorem start (files : Place W FileSystem) (options : Options) (source : EventReader W P) (w : W) :
    OwnRead options source (startRead files options source w) where
  segments _ hpath := exists_index_of_replayable hpath
  tail _ hphase := by nomatch hphase
  sink _ hsink := by nomatch hsink

/-- A read that goes on with the same segments and the same tail, or fewer, and another file. -/
theorem change (h : OwnRead options source read) {later : CachedRead source.Cursor P}
    (hsegments : ∀ path ∈ later.segments, path ∈ read.segments)
    (htail : ∀ c, later.phase = .tail c → read.phase = .tail c)
    (hsink : ∀ sink, later.sink = some sink → OwnSink options.directory options.stem sink) :
    OwnRead options source later :=
  ⟨fun path hp => h.segments path (hsegments path hp), fun c hc => h.tail c (htail c hc), hsink⟩

/-- A read that has reached the tail. -/
theorem reach (h : OwnRead options source read) {c : source.Cursor} (hc : source.Held c) :
    OwnRead options source { read with phase := .tail c } where
  segments := h.segments
  tail other ho := by
    cases ho
    exact hc
  sink := h.sink

/-- A read that replays no more. -/
theorem abandon (h : OwnRead options source read) : OwnRead options source (abandonCache source read) :=
  h.change (fun _ hp => absurd hp List.not_mem_nil) (fun _ hc => hc) h.sink

/-- A read that replays a record of the segment that is open. -/
theorem replay (h : OwnRead options source read) (file : FileReader) :
    OwnRead options source (replayRecord source read file).1 := by
  unfold replayRecord
  split
  · exact h.abandon
  · exact h.change (fun _ hp => hp) (fun _ hc => hc) h.sink
  · split
    · exact h.abandon
    · exact h.change (fun _ hp => hp) (fun _ hc => hc) h.sink

/-- A read that opens the next segment, or the tail. -/
theorem openNext (h : OwnRead options source read) (files : Place W FileSystem) (w : W) :
    OwnRead options source (openNext files source w read).1 := by
  unfold Cache.openNext
  split
  · rename_i path rest hsegments
    split
    · refine h.change (fun other ho => ?_) (fun _ hc => hc) h.sink
      rw [hsegments]
      exact List.mem_cons_of_mem path ho
    · exact h.abandon
  · split
    · rename_i hopened
      exact h.reach (.opened hopened)
    · exact h.change (fun _ hp => hp) (fun _ hc => by nomatch hc) h.sink

end OwnRead

/-- The tree without the foreign files. -/
theorem get_hide_beside (hplace : files.Lawful) (options : Options) (w : W) :
    files.get ((options.beside files place owned).hide w) = (files.get w).without place owned :=
  hplace.get_set w _

section Steps

variable (files options source)

/-- A read without a file of its own starts one. -/
theorem sinkFor_of_none (h : read.sink = none) (w : W) : sinkFor files options source w read =
    (files.set w (FileWriter.create (files.get w)
        (segmentPath options.directory options.stem read.nextIndex) options.stem).1,
      (FileWriter.create (files.get w)
        (segmentPath options.directory options.stem read.nextIndex) options.stem).2) := by
  unfold sinkFor
  rw [h]

/-- Writes an event to the file that was had for it, or ends the writing. -/
def writeTo (read : CachedRead source.Cursor P) (event : Placed P) :
    W × Except CacheError FileWriter → W × CachedRead source.Cursor P
  | (w, .error _) => stopWriting files source w read
  | (w, .ok sink) =>
    match sink.append ⟨source.codec.serialize event.position, event.record⟩ with
    | (sink, none) => (w, { read with sink := some sink })
    | (sink, some _) => stopWriting files source w { read with sink := some sink }

/-- An event is written to the file of the read, if anything is. -/
theorem writeThrough_eq (read : CachedRead source.Cursor P) (event : Placed P) (w : W) :
    writeThrough files options source w read event =
      if read.writing then writeTo files source read event (sinkFor files options source w read)
      else (w, read) := by
  unfold writeThrough
  refine if_congr Iff.rfl ?_ rfl
  rcases sinkFor files options source w read with ⟨w, _ | sink⟩ <;> rfl

/-- Goes on with a read after a pull of its tail. -/
def followTail (read : CachedRead source.Cursor P) :
    W × source.Cursor × Found P → W × CachedRead source.Cursor P × Found P
  | (w, c, .event e) =>
    let (w, read) := writeThrough files options source w { read with phase := .tail c } e
    (w, read, .event e)
  | (w, c, .failure e) =>
    let (w, read) := stopWriting files source w { read with phase := .tail c }
    (w, read, .failure e)
  | (w, c, .skipped) => (w, { read with phase := .tail c }, .skipped)
  | (w, c, .finished) =>
    let (w, read) := finishSegment files source (source.close w c) { read with phase := .done }
    (w, read, .finished)

/-- The tail is pulled first. -/
theorem pullTail_eq (read : CachedRead source.Cursor P) (c : source.Cursor) (w : W) :
    pullTail files options source w read c = followTail files options source read (source.pull w c) := by
  unfold pullTail
  rcases source.pull w c with ⟨w, c, found⟩
  cases found <;> rfl

end Steps

variable (hplace : files.Lawful) (hs : Path.Slashless options.stem) (hf : Foreign options.stem owned)

include hplace hs hf

/-- Ending the writing overlooks foreign files. -/
theorem overlooks_stopWriting (hr : OwnRead options source read) :
    (options.beside files place owned).Overlooks (fun w => stopWriting files source w read)
      fun later => OwnRead options source later := by
  unfold stopWriting
  cases hsink : read.sink with
  | none => exact .pure (hr.change (fun _ hp => hp) (fun _ hc => hc) fun _ ho => by nomatch ho)
  | some sink =>
    have hdiscard : (options.beside files place owned).alone.Overlooks fun fs => (sink.discard fs, ()) :=
      overlooks_discard hs hf (hr.sink sink hsink)
    exact (hdiscard.map (fun _ => { read with sink := none, writing := false }) fun _ _ =>
      hr.change (fun _ hp => hp) (fun _ hc => hc) (fun _ ho => by nomatch ho)).lift hplace

/-- Finishing the new segment overlooks foreign files. -/
theorem overlooks_finishSegment (hr : OwnRead options source read) :
    (options.beside files place owned).Overlooks (fun w => finishSegment files source w read)
      fun later => OwnRead options source later := by
  unfold finishSegment
  cases hsink : read.sink with
  | none => exact .pure hr
  | some sink =>
    have hfinish : (options.beside files place owned).alone.Overlooks fun fs => sink.finish fs :=
      overlooks_finish hs hf (hr.sink sink hsink)
    exact (hfinish.map (fun _ => { read with sink := none }) fun _ _ =>
      hr.change (fun _ hp => hp) (fun _ hc => hc) (fun _ ho => by nomatch ho)).lift hplace

/-- Having a file for the new segment overlooks foreign files. -/
theorem overlooks_sinkFor (hr : OwnRead options source read) :
    (options.beside files place owned).Overlooks (fun w => sinkFor files options source w read)
      fun result => ∀ sink, result = .ok sink → OwnSink options.directory options.stem sink := by
  cases hsink : read.sink with
  | none =>
    have hcreate : (options.beside files place owned).alone.Overlooks
        (fun fs => FileWriter.create fs (segmentPath options.directory options.stem read.nextIndex)
          options.stem)
        fun result => ∀ sink, result = .ok sink → OwnSink options.directory options.stem sink :=
      overlooks_create hs hf read.nextIndex
    rw [funext (sinkFor_of_none files options source hsink)]
    exact hcreate.lift hplace
  | some sink =>
    unfold sinkFor
    rw [hsink]
    refine .pure fun other ho => ?_
    obtain rfl := Except.ok.inj ho
    exact hr.sink sink hsink

/-- Writing an event to the new segment overlooks foreign files. -/
theorem overlooks_writeThrough (hr : OwnRead options source read) (event : Placed P) :
    (options.beside files place owned).Overlooks (fun w => writeThrough files options source w read event)
      fun later => OwnRead options source later := by
  rw [funext (writeThrough_eq files options source read event)]
  cases read.writing with
  | false => exact .pure hr
  | true =>
    refine (overlooks_sinkFor hplace hs hf hr).bind
      (fun result w => writeTo files source read event (w, result)) ?_
    intro result hresult
    cases result with
    | error e => exact overlooks_stopWriting hplace hs hf hr
    | ok sink =>
      have happended := (hresult sink rfl).append ⟨source.codec.serialize event.position, event.record⟩
      unfold writeTo
      dsimp only
      rcases hwritten : sink.append ⟨source.codec.serialize event.position, event.record⟩ with ⟨sink', e⟩
      rw [hwritten] at happended
      have hown : OwnRead options source { read with sink := some sink' } := by
        refine hr.change (fun _ hp => hp) (fun _ hc => hc) fun other ho => ?_
        obtain rfl := Option.some.inj ho
        exact happended
      cases e with
      | none => exact .pure hown
      | some e => exact overlooks_stopWriting hplace hs hf hown

/-- Stepping the tail overlooks foreign files. -/
theorem overlooks_pullTail (hsource : source.Aside (options.beside files place owned))
    (hr : OwnRead options source read) {c : source.Cursor} (hc : source.Held c) :
    (options.beside files place owned).Overlooks (fun w => pullTail files options source w read c)
      fun answer => OwnRead options source answer.1 := by
  rw [funext (pullTail_eq files options source read c)]
  refine (hsource.pull_held hc).bind
    (fun answer w => followTail files options source read (w, answer)) ?_
  rintro ⟨c, found⟩ hc
  have htail : OwnRead options source { read with phase := .tail c } := hr.reach hc
  cases found with
  | event e =>
    exact (overlooks_writeThrough hplace hs hf htail e).map (fun later => (later, Found.event e)) fun _ h => h
  | failure e =>
    exact (overlooks_stopWriting hplace hs hf htail).map (fun later => (later, Found.failure e)) fun _ h => h
  | skipped => exact .pure htail
  | finished =>
    have hdone : OwnRead options source { read with phase := .done } :=
      hr.change (fun _ hp => hp) (fun _ hc => by nomatch hc) hr.sink
    have hclosed := (hsource.close c hc).bind
      (fun _ w => finishSegment files source w { read with phase := .done })
      fun _ _ => overlooks_finishSegment hplace hs hf hdone
    exact hclosed.map (fun later => (later, Found.finished)) fun _ h => h

/-- Opening the next segment, or the tail, overlooks foreign files. -/
theorem overlooks_openNext (hsource : source.Aside (options.beside files place owned))
    (hr : OwnRead options source read) :
    (options.beside files place owned).Overlooks (fun w => (w, openNext files source w read))
      fun answer => OwnRead options source answer.1 := by
  refine .look (fun w hw => ?_) fun w => hr.openNext files w
  unfold openNext
  cases hsegments : read.segments with
  | nil =>
    dsimp only
    rw [hsource.opens w read.lastPosition hw]
  | cons path rest =>
    obtain ⟨index, rfl⟩ := hr.segments path (hsegments ▸ List.mem_cons_self)
    dsimp only
    rw [get_hide_beside hplace, open_segment_without hs hf hw]

/-- Stepping a read through the cache overlooks foreign files. -/
theorem overlooks_pullCached (hsource : source.Aside (options.beside files place owned))
    (hr : OwnRead options source read) :
    (options.beside files place owned).Overlooks (fun w => pullCached files options source w read)
      fun answer => OwnRead options source answer.1 := by
  unfold pullCached
  cases hphase : read.phase with
  | done => exact .pure hr
  | tail c => exact overlooks_pullTail hplace hs hf hsource hr (hr.tail c hphase)
  | replaying =>
    cases read.current with
    | some file => exact .pure (hr.replay file)
    | none => exact overlooks_openNext hplace hs hf hsource hr

/-- Giving up a read through the cache overlooks foreign files. -/
theorem overlooks_closeCached (hsource : source.Aside (options.beside files place owned))
    (hr : OwnRead options source read) :
    (options.beside files place owned).Overlooks fun w => (closeCached files source w read, ()) := by
  have hstopped : (options.beside files place owned).Overlooks
      fun w => ((stopWriting files source w read).1, ()) :=
    (overlooks_stopWriting hplace hs hf hr).map (fun _ => ()) fun _ _ => trivial
  unfold closeCached
  cases hphase : read.phase with
  | tail c =>
    exact (hsource.close c (hr.tail c hphase)).bind
      (fun _ w => ((stopWriting files source w read).1, ())) fun _ _ => hstopped
  | replaying => exact hstopped
  | done => exact hstopped

/-- What is left of a read through the cache is measured as it is without foreign files. -/
theorem extentCached_hide (hsource : source.Aside (options.beside files place owned))
    (hr : OwnRead options source read) {w : W} (hw : (options.beside files place owned).Ready w) :
    extentCached files source ((options.beside files place owned).hide w) read =
      extentCached files source w read := by
  unfold extentCached
  cases hphase : read.phase with
  | done => rfl
  | tail c => exact hsource.extent w c (hr.tail c hphase) hw
  | replaying =>
    have hleft : leftToReplay files source ((options.beside files place owned).hide w) read =
        leftToReplay files source w read := by
      unfold leftToReplay
      rw [get_hide_beside hplace, replaySegments_without source.codec hs hf hw hr.segments]
    dsimp only
    rw [hleft, hsource.opens w _ hw]
    split
    · rename_i c hopened
      rw [hsource.extent w c (.opened hopened) hw]
    · rfl

omit hs in
/-- A read through the cache is started as it is without foreign files. -/
theorem startRead_hide {w : W} (hw : (options.beside files place owned).Ready w) :
    startRead files options source ((options.beside files place owned).hide w) =
      startRead files options source w := by
  unfold startRead
  rw [get_hide_beside hplace, scanSegments_without hf hw]

variable [DecidableEq P]

/-- What an open read of a caching reader holds on to. -/
inductive OwnCursor (options : Options) (source : EventReader W P) : Cursor source.Cursor P → Prop where
  /-- A read of the source. -/
  | direct {c : source.Cursor} (h : source.Held c) : OwnCursor options source (.direct c)
  /-- A read through the cache. -/
  | cached {read : CachedRead source.Cursor P} (h : OwnRead options source read) :
    OwnCursor options source (.cached read)

/-- Pulling a caching reader overlooks foreign files. -/
theorem overlooks_pull (hsource : source.Aside (options.beside files place owned))
    {c : Cursor source.Cursor P} (hc : OwnCursor options source c) :
    (options.beside files place owned).Overlooks (fun w => (eventReader files options source).pull w c)
      fun answer => OwnCursor options source answer.1 := by
  cases hc with
  | direct h =>
    exact (hsource.pull_held h).map (fun answer => (Cursor.direct answer.1, answer.2)) fun _ => .direct
  | cached h =>
    exact (overlooks_pullCached hplace hs hf hsource h).map
      (fun answer => (Cursor.cached answer.1, answer.2)) fun _ => .cached

/-- An open read of a caching reader holds on to nothing else. -/
theorem ownCursor_of_held (hsource : source.Aside (options.beside files place owned))
    {c : (eventReader files options source).Cursor} (hc : (eventReader files options source).Held c) :
    OwnCursor options source c := by
  induction hc with
  | @opened w position c hopened =>
    change (if position = source.emptyPosition then .ok (.cached (startRead files options source w))
      else Cursor.direct <$> source.forwardsFrom w position) = _ at hopened
    split at hopened
    · obtain rfl := Except.ok.inj hopened
      exact .cached (.start files options source w)
    · cases hbelow : source.forwardsFrom w position with
      | error e =>
        rw [hbelow] at hopened
        nomatch hopened
      | ok below =>
        rw [hbelow] at hopened
        obtain rfl := Except.ok.inj hopened
        exact .direct (.opened hbelow)
  | @pulled w c _ ih => exact (overlooks_pull hplace hs hf hsource ih).answered w

/-- A caching reader stands aside of foreign files if the source below does. -/
theorem aside_eventReader (hsource : source.Aside (options.beside files place owned)) :
    (eventReader files options source).Aside (options.beside files place owned) where
  opens w position hw := by
    change (if position = source.emptyPosition then
        .ok (.cached (startRead files options source ((options.beside files place owned).hide w)))
      else Cursor.direct <$> source.forwardsFrom ((options.beside files place owned).hide w) position) = _
    rw [startRead_hide hplace hf hw, hsource.opens w position hw]
    rfl
  extent w c hc hw := by
    cases ownCursor_of_held hplace hs hf hsource hc with
    | direct h => exact hsource.extent w _ h hw
    | cached h => exact extentCached_hide hplace hs hf hsource h hw
  pull c hc :=
    (overlooks_pull hplace hs hf hsource (ownCursor_of_held hplace hs hf hsource hc)).mono fun _ _ => trivial
  close c hc := by
    cases ownCursor_of_held hplace hs hf hsource hc with
    | direct h => exact hsource.close _ h
    | cached h => exact overlooks_closeCached hplace hs hf hsource h

end Reading

end Chronicle.Cache
