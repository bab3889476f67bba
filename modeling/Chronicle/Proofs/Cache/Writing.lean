import Chronicle.Proofs.Cache.Shelf
import Chronicle.Proofs.Cache.Transcripts

/-!
# Writing the next segment

Writing behind a cache may fail at every step, and such failures only end the writing. Here it is said
what it takes for none to occur: the names of the files can be given, and the records are within the
limits of the format. Then a file is started beside the segments, takes every record, and is moved to the
end of the row.
-/

namespace Chronicle.Cache

/-- The text of the name that a file has while it is being written. -/
def temporaryName (stem : String) (serial : Nat) : String :=
  inProgressStart stem ++ Name.tag serial ++ inProgressEnding

/-- The names that it takes to write the segments of a cache can be given: the stem has no slash, and
neither the names of the first segments, nor those of the first files that are being written, nor their
paths are too long or hold a zero. -/
structure Nameable (directory stem : String) (segments serials : Nat) : Prop where
  /-- The stem has no slash. -/
  slashless : Path.Slashless stem
  /-- The segments can be named. -/
  segment : ∀ index < segments, Path.checkName (segmentName stem index) = .ok () ∧
    Path.check (segmentPath directory stem index) = .ok ()
  /-- Files that are being written can be named. -/
  temporary : ∀ serial < serials, Path.checkName (temporaryName stem serial) = .ok () ∧
    ∀ index < segments, Path.check (Path.join (Path.parent (segmentPath directory stem index))
      (temporaryName stem serial)) = .ok ()

/-- If some names can be given, so can fewer. -/
theorem Nameable.mono {directory stem : String} {segments segments' serials serials' : Nat}
    (h : Nameable directory stem segments serials) (hs : segments' ≤ segments)
    (ht : serials' ≤ serials) : Nameable directory stem segments' serials' where
  slashless := h.slashless
  segment index hi := h.segment index (Nat.lt_of_lt_of_le hi hs)
  temporary serial hserial := by
    obtain ⟨hname, hpath⟩ := h.temporary serial (Nat.lt_of_lt_of_le hserial ht)
    exact ⟨hname, fun index hi => hpath index (Nat.lt_of_lt_of_le hi hs)⟩

section Names

variable {stem : String}

/-- The beginning of the name of a file that is being written holds no slash if the stem holds none. -/
theorem slashless_inProgressStart (h : Path.Slashless stem) : Path.Slashless (inProgressStart stem) := by
  unfold Path.Slashless inProgressStart at *
  simp only [String.toList_append, List.mem_append, not_or]
  exact ⟨⟨by decide, h⟩, by decide⟩

/-- The name of a file that is being written holds no slash if the stem holds none. -/
theorem slashless_temporaryName (h : Path.Slashless stem) (serial : Nat) :
    Path.Slashless (temporaryName stem serial) := by
  have hstart := slashless_inProgressStart h
  have hdigits := List.all_eq_true.1 (isDigit_zeroPadded Name.tagLength serial)
  unfold Path.Slashless temporaryName at *
  simp only [String.toList_append, List.mem_append, not_or]
  refine ⟨⟨hstart, ?_⟩, by decide⟩
  unfold Name.tag
  rw [String.toList_ofList]
  exact fun hm => absurd (hdigits '/' hm) (by decide)

/-- The name of a file that is being written is not empty. -/
theorem temporaryName_ne (stem : String) (serial : Nat) : temporaryName stem serial ≠ "" := by
  intro h
  have hl := congrArg String.toList h
  unfold temporaryName inProgressStart at hl
  simp only [String.toList_append] at hl
  nomatch hl

/-- The path of a file that is being written. -/
theorem path_temporaryEntry (stem directory : String) (serial : Nat) :
    (FileSystem.temporaryEntry directory (inProgressStart stem) inProgressEnding serial).path =
      Path.join directory (temporaryName stem serial) := rfl

/-- A file that is being written has the name that its path spells out, unless the stem holds a slash. -/
theorem text_temporaryEntry (h : Path.Slashless stem) (directory : String) (serial : Nat) :
    (FileSystem.temporaryEntry directory (inProgressStart stem) inProgressEnding serial).name.text =
      temporaryName stem serial := by
  unfold FileSystem.temporaryEntry Name.text temporaryName
  dsimp only
  rw [Path.parts_of_slashless (slashless_inProgressStart h)]
  rfl

/-- The entry of a file that is being written for a segment. -/
def sinkEntry (directory stem : String) (index serial : Nat) : Entry :=
  FileSystem.temporaryEntry (Path.parent (segmentPath directory stem index)) (inProgressStart stem)
    inProgressEnding serial

/-- The path of a file that is being written for a segment. -/
theorem path_sinkEntry (directory stem : String) (index serial : Nat) :
    (sinkEntry directory stem index serial).path =
      Path.join (Path.parent (segmentPath directory stem index)) (temporaryName stem serial) := by
  unfold sinkEntry
  exact path_temporaryEntry stem _ serial

/-- A file that is being written for a segment has the name that its path spells out. -/
theorem text_sinkEntry (h : Path.Slashless stem) (directory : String) (index serial : Nat) :
    (sinkEntry directory stem index serial).name.text = temporaryName stem serial :=
  text_temporaryEntry h _ serial

/-- The path of a file that is being written leads into the directory, if its text is not refused. -/
theorem slot_sinkEntry {directory : String} {place : Location} {fs : FileSystem} (hs : Path.Slashless stem)
    (h : fs.find directory = .ok (place, .directory)) {index serial : Nat}
    (hcheck : Path.check (sinkEntry directory stem index serial).path = .ok ()) :
    fs.slot (sinkEntry directory stem index serial).path = .ok (place, temporaryName stem serial) := by
  obtain ⟨hne, hdot, -⟩ := segmentName_ne stem index
  have hname := slashless_segmentName hs index
  have hdirectory := FileSystem.ne_empty_of_check (FileSystem.find_eq_ok_iff.1 h).1
  -- the path of the directory, as that of the segment spells it, leads there, too
  obtain ⟨above, hleads⟩ := FileSystem.leads_parent_join h hname hne hdot
  have hparent := Path.parent_join_ne_empty hdirectory hname hne hdot
  rw [path_sinkEntry] at hcheck ⊢
  exact FileSystem.slot_join (hleads.find (Path.check_of_join hparent hcheck))
    (slashless_temporaryName hs serial) (temporaryName_ne stem serial) hcheck

end Names

section Starting

variable {directory stem : String} {place : Location} {count index segments serials : Nat}
  {fs : FileSystem} {records : List CachedRecord} {sink : FileWriter}

/-- A file that is being written beside the segments of a cache, to become one. -/
structure Started (directory stem : String) (place : Location) (index : Nat) (records : List CachedRecord)
    (sink : FileWriter) (fs : FileSystem) : Prop extends Shelf.Pending directory stem index records sink where
  /-- It stands in the directory. -/
  placed : fs.placeOf sink.temporary = .ok (place ++ [sink.temporary.name])
  /-- It is there. -/
  present : (fs.node? (place ++ [sink.temporary.name])).isSome = true

/-- A file for a segment is started beside the others, and nothing else happens. -/
theorem Row.start (h : Row directory stem place count fs) (hn : Nameable directory stem segments serials)
    (hi : index < segments) (hs : fs.temporaries < serials) :
    ∃ fs' sink, FileWriter.create fs (segmentPath directory stem index) stem = (fs', .ok sink) ∧
      Started directory stem place index [] sink fs' ∧
        FileSystem.Undisturbed place (IsSegment stem) fs fs' ∧ fs'.temporaries = fs.temporaries + 1 := by
  obtain ⟨hne, hdot, -⟩ := segmentName_ne stem index
  have hname := slashless_segmentName hn.slashless index
  have hdirectory := FileSystem.ne_empty_of_check (FileSystem.find_eq_ok_iff.1 h.found).1
  obtain ⟨htext, hpath⟩ := hn.temporary fs.temporaries hs
  have hparent : Path.check (Path.parent (segmentPath directory stem index)) = .ok () :=
    Path.check_of_join (Path.parent_join_ne_empty hdirectory hname hne hdot) (hpath index hi)
  have hdone : fs.createDirectories (Path.parent (segmentPath directory stem index)) = (fs, .ok ()) :=
    hparent ▸ FileSystem.createDirectories_parent_join h.found hname hne hdot
  have hcheck : Path.check (sinkEntry directory stem index fs.temporaries).path = .ok () := by
    rw [path_sinkEntry]
    exact hpath index hi
  generalize hentry : sinkEntry directory stem index fs.temporaries = entry at hcheck
  have hplaceOf : ∀ {files : FileSystem}, FileSystem.Undisturbed place (IsSegment stem) fs files →
      files.placeOf entry = .ok (place ++ [entry.name]) := by
    intro files hu
    unfold FileSystem.placeOf
    rw [← hentry] at hcheck ⊢
    rw [slot_sinkEntry hn.slashless (hu.find_directory h.found) hcheck]
    rfl
  have hcreated : fs.createTemporary (Path.parent (segmentPath directory stem index))
      (inProgressStart stem) inProgressEnding =
        .ok (entry, { fs.put (place ++ [entry.name]) (.file []) with
          temporaries := fs.temporaries + 1 }) := by
    have htext' : Path.checkName entry.name.text = .ok () := by
      rw [← hentry, text_sinkEntry hn.slashless]
      exact htext
    unfold sinkEntry at hentry
    unfold FileSystem.createTemporary
    dsimp only [Bind.bind, Except.bind]
    rw [hentry, hplaceOf (.refl fs)]
    dsimp only
    rw [htext']
    rfl
  obtain ⟨hu, hdrawn⟩ := FileSystem.Undisturbed.createTemporary (not_isSegment_drawn stem) hcreated
  refine ⟨_, { destination := segmentPath directory stem index, temporary := entry }, ?_, ?_, hu, rfl⟩
  · unfold FileWriter.create
    dsimp only
    rw [hdone]
    dsimp only
    rw [hcreated]
  · refine ⟨⟨rfl, hdrawn, rfl, fun r hr => absurd hr List.not_mem_nil⟩, hplaceOf hu, ?_⟩
    have hnode : (fs.put (place ++ [entry.name]) (.file [])).node? (place ++ [entry.name]) = _ :=
      FileSystem.node?_put_self place entry.name (.file [])
    exact Option.isSome_of_mem hnode

/-- A record within the limits is written to a file. -/
theorem Started.append (h : Started directory stem place index records sink fs) {r : CachedRecord}
    (hr : r.Storable) : ∃ sink', sink.append r = (sink', none) ∧
      Started directory stem place index (records ++ [r]) sink' fs := by
  have hwritten : r.write none = ⟨r.encode, none⟩ := writeFields_of_no_excess hr.fits.no_excess
  have happend : sink.append r = ({ sink with
      pieces := r.encode :: sink.pieces
      recordsWritten := sink.recordsWritten + 1 }, none) := by
    unfold FileWriter.append
    rw [hwritten]
  exact ⟨_, happend, h.toPending.append hr.number_fits happend, h.placed, h.present⟩

/-- A file that is finished is moved to the end of the row. -/
theorem Started.finish (h : Started directory stem place count records sink fs)
    (hrow : Row directory stem place count fs) (hlimit : count < segmentLimit)
    (hn : Nameable directory stem segments serials) (hi : count < segments) :
    Row directory stem place (count + 1) (sink.finish fs).1 ∧
      (∀ index < count, (sink.finish fs).1.find (segmentPath directory stem index) =
        fs.find (segmentPath directory stem index)) ∧
      (sink.finish fs).1.find (segmentPath directory stem count) =
        .ok (place ++ [.given (segmentName stem count)], .file (Gzip.pack (encodeAll records))) ∧
      (sink.finish fs).1.temporaries = fs.temporaries := by
  obtain ⟨hne, hdot, -⟩ := segmentName_ne stem count
  obtain ⟨hname, hcheck⟩ := hn.segment count hi
  have hslashless := slashless_segmentName hn.slashless count
  have hslot := FileSystem.slot_join hrow.found hslashless hne hcheck
  have hdirectory := FileSystem.ne_empty_of_check (FileSystem.find_eq_ok_iff.1 hrow.found).1
  obtain ⟨above, hparts, -⟩ := Path.parts_join hdirectory hslashless
  have hmoved : fs.moveToFree sink.temporary sink.destination (Gzip.pack sink.contents) =
      .ok ((fs.erase (place ++ [sink.temporary.name])).put (place ++ [.given (segmentName stem count)])
        (.file (Gzip.pack sink.contents))) := by
    rw [h.destination_eq]
    exact FileSystem.moveToFree_ok hcheck h.placed h.present hslot (isRelative_segmentName stem count) hname
      (hrow.free hlimit) (Path.endsInSlash_of_parts hparts hne)
  have hfinish : (sink.finish fs).1 =
      (fs.erase (place ++ [sink.temporary.name])).put (place ++ [.given (segmentName stem count)])
        (.file (Gzip.pack (encodeAll records))) := by
    unfold FileWriter.finish
    rw [hmoved, h.contents_eq]
  have hu : FileSystem.Undisturbed place
      (fun other => IsSegment stem other ∧ other ≠ .given (segmentName stem count)) fs
      (sink.finish fs).1 := by
    rw [hfinish, ← h.contents_eq]
    refine .moveToFree h.not_given (fun hw => h.not_isSegment hw.1) ?_ hmoved
    intro target name hs _ hw
    rw [h.destination_eq, show fs.slot (segmentPath directory stem count) = _ from hslot] at hs
    cases hs
    exact hw.2 rfl
  have hnode : (sink.finish fs).1.node? (place ++ [.given (segmentName stem count)]) =
      some (.file (Gzip.pack (encodeAll records))) := by
    rw [hfinish]
    exact FileSystem.node?_put_self _ _ _
  have hfind : (sink.finish fs).1.find (segmentPath directory stem count) =
      .ok (place ++ [.given (segmentName stem count)], .file (Gzip.pack (encodeAll records))) :=
    FileSystem.find_join (hu.find_directory hrow.found) hslashless hne (isRelative_segmentName stem count)
      hcheck hname hnode
  obtain ⟨hlonger, hsame⟩ := hrow.extend hlimit hu hfind
  refine ⟨hlonger, hsame, hfind, ?_⟩
  rw [hfinish]
  rfl

end Starting

end Chronicle.Cache
