import Chronicle.Proofs.Cache.Filing
import Chronicle.Proofs.Cache.HandingOver
import Chronicle.Proofs.Cache.Overlooking

/-!
# The writing behind a read

What the source of a caching reader yields is written behind the read, as long as there is nothing against it.
Either nothing was yielded yet, or everything is in a file that stands under a drawn name, or the writing has
ended and left nothing. It ends at the first result that cannot be written, whatever comes after, and so what
was written at the end of the source is all or nothing.
-/

namespace Chronicle

variable {W P : Type}

namespace Cache

open FileSystem

section Writing

variable {codec : PositionCodec P} {fs tree : FileSystem} {path stem : String} {events : List (Placed P)}
  {sink sink' : FileWriter} {e : Placed P}

/-- A result of a source that can be written to a cache: an event with no field over its limit. -/
def Recordable (codec : PositionCodec P) (item : Item P) : Prop :=
  ∃ e, item = .ok e ∧ ((recordFor codec e).write none).failure = none

/-- Results of a source that can be kept in a new segment, where one can be filed. -/
structure Keepable (codec : PositionCodec P) (fs : FileSystem) (path stem : String) (items : List (Item P)) :
    Prop where
  /-- There are some. -/
  nonempty : items ≠ []
  /-- All of them can be written. -/
  recordable : ∀ item ∈ items, Recordable codec item
  /-- A segment can be filed under the path. -/
  vacant : Vacant fs path stem

/-- A file that was begun in a tree and holds some events, with nothing else done to the tree. -/
structure Holding (codec : PositionCodec P) (fs : FileSystem) (path stem : String) (events : List (Placed P))
    (tree : FileSystem) (sink : FileWriter) : Prop where
  /-- It was begun. -/
  create_eq : ∃ first, FileWriter.create fs path stem = (tree, .ok first) ∧ sink.temporary = first.temporary
  /-- Where it will be. -/
  destination_eq : sink.destination = path
  /-- What it holds. -/
  contents_eq : sink.contents = encodeAll (events.map (recordFor codec))
  /-- All events could be written. -/
  written : ∀ e ∈ events, ((recordFor codec e).write none).failure = none

/-- A file that was just begun holds no event. -/
theorem holding_create (hfresh : fs.Fresh) (h : FileWriter.create fs path stem = (tree, .ok sink)) :
    Holding codec fs path stem [] tree sink := by
  obtain ⟨hdestination, hcontents, -⟩ := begun_create hfresh h
  exact ⟨⟨sink, h, rfl⟩, hdestination, hcontents, fun _ he => absurd he List.not_mem_nil⟩

/-- An event that is written follows those before it. -/
theorem Holding.append (h : Holding codec fs path stem events tree sink)
    (happend : sink.append (recordFor codec e) = (sink', none)) :
    Holding codec fs path stem (events ++ [e]) tree sink' := by
  obtain ⟨hdestination, htemporary, hcontents, hwritten⟩ := FileWriter.append_eq_ok happend
  obtain ⟨first, hcreate, hsame⟩ := h.create_eq
  refine ⟨⟨first, hcreate, htemporary.trans hsame⟩, hdestination.trans h.destination_eq, ?_, ?_⟩
  · rw [hcontents, h.contents_eq, List.map_append, List.map_singleton, encodeAll_concat]
  · intro other ho
    rcases List.mem_append.1 ho with ho | ho
    · exact h.written other ho
    · rw [List.mem_singleton.1 ho]
      exact hwritten

/-- Nothing is left of a file that is given up. -/
theorem Holding.discard (hfresh : fs.Fresh) (h : Holding codec fs path stem events tree sink)
    (hsame : sink'.temporary = sink.temporary) : Gains fs (sink'.discard tree) none := by
  obtain ⟨first, hcreate, hfirst⟩ := h.create_eq
  obtain ⟨-, -, old, hbegun⟩ := begun_create hfresh hcreate
  unfold FileWriter.discard
  rw [hsame, hfirst]
  exact hbegun.discard

end Writing

section Following

variable (codec : PositionCodec P) (may : Bool) (fs : FileSystem) (directory stem : String) (index : Nat)

/-- How far the writing behind a read has come when its source has yielded some results and the files, once
`fs`, have become a tree. -/
inductive Behind {C : Type} : List (Item P) → FileSystem → CachedRead C P → Prop where
  /-- Nothing was yielded yet, and it is to be written. -/
  | ready {read : CachedRead C P} (hmay : may = true) (hwriting : read.writing = true)
    (hsink : read.sink = none) (hindex : read.nextIndex = index) : Behind [] fs read
  /-- All that was yielded is in a file. -/
  | begun {events : List (Placed P)} {tree : FileSystem} {read : CachedRead C P} {sink : FileWriter}
    (hmay : may = true) (hwriting : read.writing = true) (hsink : read.sink = some sink)
    (hholding : Holding codec fs (segmentPath directory stem index) stem events tree sink)
    (hne : events ≠ []) : Behind (events.map .ok) tree read
  /-- Nothing is written any more, and what was yielded will not be kept. -/
  | stopped {items : List (Item P)} {tree : FileSystem} {read : CachedRead C P}
    (hwriting : read.writing = false) (hsink : read.sink = none) (hgains : Gains fs tree none)
    (hreason : may = false ∨ (∃ item ∈ items, ¬ Recordable codec item) ∨
      ¬ Vacant fs (segmentPath directory stem index) stem) : Behind items tree read

/-- What has become of the results of a source when the files, once `fs`, are those of some tree: they were
filed if they were to be kept and could be, and nothing was added if not. -/
def Settled (items : List (Item P)) (tree : FileSystem) : Prop :=
  (may = true ∧ Keepable codec fs (segmentPath directory stem index) stem items →
    ∃ events : List (Placed P), items = events.map .ok ∧ Filed fs tree (segmentPath directory stem index)
      (encodeAll (events.map (recordFor codec)))) ∧
  (¬ (may = true ∧ Keepable codec fs (segmentPath directory stem index) stem items) → Gains fs tree none)

end Following

section Stopping

variable {files : Place W FileSystem} {options : Options} {source : EventReader W P} {w : W}
  {may : Bool} {fs : FileSystem} {index : Nat} {items : List (Item P)} {read : CachedRead source.Cursor P}

/-- Where a read stands makes no difference to the writing behind it. -/
theorem Behind.phase {C : Type} {codec : PositionCodec P} {directory stem : String} {tree : FileSystem}
    {read : CachedRead C P} (h : Behind codec may fs directory stem index items tree read) (phase : Phase C) :
    Behind codec may fs directory stem index items tree { read with phase := phase } := by
  cases h with
  | ready hmay hwriting hsink hindex => exact .ready hmay hwriting hsink hindex
  | begun hmay hwriting hsink hholding hne => exact .begun hmay hwriting hsink hholding hne
  | stopped hwriting hsink hgains hreason => exact .stopped hwriting hsink hgains hreason

/-- Nothing is left when the writing is ended. -/
theorem gains_stopWriting (hplace : files.Lawful) (hfresh : fs.Fresh)
    (h : Behind source.codec may fs options.directory options.stem index items (files.get w) read) :
    Gains fs (files.get (stopWriting files source w read).1) none := by
  unfold stopWriting
  generalize htree : files.get w = tree at h
  cases h with
  | ready hmay hwriting hsink hindex =>
    rw [hsink]
    dsimp only
    rw [htree]
    exact .refl fs
  | begun hmay hwriting hsink hholding hne =>
    rw [hsink]
    dsimp only
    rw [hplace.get_set]
    exact hholding.discard hfresh rfl
  | stopped hwriting hsink hgains hreason =>
    rw [hsink]
    dsimp only
    rw [htree]
    exact hgains

variable (files) in
/-- After the writing was ended nothing is being written. -/
theorem stopWriting_ends (w : W) (read : CachedRead source.Cursor P) :
    (stopWriting files source w read).2.writing = false ∧ (stopWriting files source w read).2.sink = none := by
  unfold stopWriting
  split
  · rename_i hsink
    exact ⟨rfl, hsink⟩
  · exact ⟨rfl, rfl⟩

/-- A failure of the source ends the writing. -/
theorem behind_stopWriting (hplace : files.Lawful) (hfresh : fs.Fresh)
    (h : Behind source.codec may fs options.directory options.stem index items (files.get w) read)
    (e : StoreError) : Behind source.codec may fs options.directory options.stem index (items ++ [.error e])
      (files.get (stopWriting files source w read).1) (stopWriting files source w read).2 := by
  obtain ⟨hwriting, hsink⟩ := stopWriting_ends files w read
  refine .stopped hwriting hsink (gains_stopWriting hplace hfresh h) (.inr (.inl ⟨.error e, ?_, ?_⟩))
  · exact List.mem_append_right _ List.mem_cons_self
  · rintro ⟨event, hevent, -⟩
    nomatch hevent

/-- The writing is ended at an event that cannot be kept. -/
theorem behind_stopped {e : Placed P} (hgains : Gains fs (files.get (stopWriting files source w read).1) none)
    (hreason : ¬ Recordable source.codec (.ok e) ∨
      ¬ Vacant fs (segmentPath options.directory options.stem index) options.stem) :
    Behind source.codec may fs options.directory options.stem index (items ++ [.ok e])
      (files.get (stopWriting files source w read).1) (stopWriting files source w read).2 := by
  obtain ⟨hwriting, hsink⟩ := stopWriting_ends files w read
  refine .stopped hwriting hsink hgains (.inr (hreason.imp_left fun hbad => ⟨.ok e, ?_, hbad⟩))
  exact List.mem_append_right _ List.mem_cons_self

/-- An event is written to the file that holds those before it, or the writing ends. -/
theorem behind_writeTo (hplace : files.Lawful) (hfresh : fs.Fresh) (hmay : may = true)
    (hwriting : read.writing = true) {events : List (Placed P)} {sink : FileWriter}
    (hholding : Holding source.codec fs (segmentPath options.directory options.stem index) options.stem events
      (files.get w) sink) (e : Placed P) :
    Behind source.codec may fs options.directory options.stem index (events.map .ok ++ [.ok e])
      (files.get (writeTo files source read e (w, .ok sink)).1) (writeTo files source read e (w, .ok sink)).2 := by
  unfold writeTo
  dsimp only
  rcases happend : sink.append ⟨source.codec.serialize e.position, e.record⟩ with ⟨sink', _ | e'⟩
  · have hmore := hholding.append happend
    rw [← List.map_singleton, ← List.map_append]
    exact .begun hmay hwriting rfl hmore (List.concat_ne_nil e events)
  · obtain ⟨htemporary, hfailure⟩ := FileWriter.append_eq_error happend
    refine behind_stopped ?_ (.inl ?_)
    · unfold stopWriting
      dsimp only
      rw [hplace.get_set]
      exact hholding.discard hfresh htemporary
    · rintro ⟨other, hsame, hwritten⟩
      cases hsame
      nomatch hwritten.symm.trans hfailure

/-- An event of the source is written behind the read, or the writing ends. -/
theorem behind_writeThrough (hplace : files.Lawful) (hfresh : fs.Fresh)
    (h : Behind source.codec may fs options.directory options.stem index items (files.get w) read)
    (e : Placed P) : Behind source.codec may fs options.directory options.stem index (items ++ [.ok e])
      (files.get (writeThrough files options source w read e).1)
      (writeThrough files options source w read e).2 := by
  generalize htree : files.get w = tree at h
  cases h with
  | ready hmay hwriting hsink hindex =>
    -- only the first event creates the file, and may find that it cannot be created
    rw [writeThrough_eq, if_pos hwriting, sinkFor_of_none files options source hsink, hindex, htree]
    rcases hcreate : FileWriter.create fs (segmentPath options.directory options.stem index) options.stem with
      ⟨tree, e' | sink⟩
    · have hgains := gains_create_error hcreate
      refine behind_stopped ?_ (.inr ?_)
      · unfold stopWriting
        rw [hsink]
        dsimp only
        rw [hplace.get_set]
        exact hgains
      · rintro ⟨⟨_, _, _, hcreated, -⟩, -⟩
        rw [hcreate] at hcreated
        nomatch congrArg Prod.snd hcreated
    · have hholding : Holding source.codec fs (segmentPath options.directory options.stem index)
          options.stem [] (files.get (files.set w tree)) sink := by
        rw [hplace.get_set]
        exact holding_create hfresh hcreate
      exact behind_writeTo hplace hfresh hmay hwriting hholding e
  | @begun _ _ _ sink hmay hwriting hsink hholding hne =>
    have hfile : sinkFor files options source w read = (w, .ok sink) := by
      unfold sinkFor
      rw [hsink]
    rw [writeThrough_eq, if_pos hwriting, hfile]
    refine behind_writeTo hplace hfresh hmay hwriting ?_ e
    rwa [htree]
  | stopped hwriting hsink hgains hreason =>
    rw [writeThrough_eq, hwriting, if_neg Bool.false_ne_true, htree]
    refine .stopped hwriting hsink hgains (hreason.imp_right (.imp_left ?_))
    rintro ⟨item, hitem, hbad⟩
    exact ⟨item, List.mem_append_left _ hitem, hbad⟩

/-- At the end of the source everything is settled. -/
theorem settled_finishSegment (hplace : files.Lawful) (hfresh : fs.Fresh)
    (h : Behind source.codec may fs options.directory options.stem index items (files.get w) read) :
    Settled source.codec may fs options.directory options.stem index items
        (files.get (finishSegment files source w read).1) ∧
      (finishSegment files source w read).2.sink = none := by
  unfold finishSegment
  generalize htree : files.get w = tree at h
  cases h with
  | ready hmay hwriting hsink hindex =>
    rw [hsink]
    dsimp only
    rw [htree]
    exact ⟨⟨fun hkept => absurd rfl hkept.2.nonempty, fun _ => .refl fs⟩, hsink⟩
  | @begun events _ _ sink hmay hwriting hsink hholding hne =>
    rw [hsink]
    dsimp only
    rw [hplace.get_set]
    obtain ⟨first, hcreate, htemporary⟩ := hholding.create_eq
    obtain ⟨hfiled, hnothing⟩ := filed_finish hfresh hcreate hholding.destination_eq htemporary
    rw [hholding.contents_eq] at hfiled
    refine ⟨⟨fun hkept => ⟨events, rfl, hfiled hkept.2.vacant⟩, fun hkept => hnothing fun hvacant => ?_⟩, rfl⟩
    refine hkept ⟨hmay, fun hnil => hne (List.map_eq_nil_iff.1 hnil), fun item hitem => ?_, hvacant⟩
    obtain ⟨e, he, rfl⟩ := List.mem_map.1 hitem
    exact ⟨e, rfl, hholding.written e he⟩
  | stopped hwriting hsink hgains hreason =>
    rw [hsink]
    dsimp only
    rw [htree]
    refine ⟨⟨fun ⟨hmay, hkept⟩ => ?_, fun _ => hgains⟩, hsink⟩
    rcases hreason with hnot | ⟨item, hitem, hbad⟩ | hoccupied
    · rw [hmay] at hnot
      nomatch hnot
    · exact absurd (hkept.recordable item hitem) hbad
    · exact absurd hkept.vacant hoccupied

end Stopping

end Cache

end Chronicle
