import Chronicle.Proofs.Cache.Records
import Chronicle.Proofs.Cache.Row
import Chronicle.Proofs.Gzip.Stored

/-!
# Segments on a shelf

A shelf is a directory in which segments stand that hold known records. Only a file that is finished
while its number is the next one adds a segment to it. Whatever else is done to files leaves the shelf as
it is, so its segments are scanned without a gap and read without a failure at any time.
-/

namespace Chronicle.Cache

/-- A file is read as what it unpacks to. -/
theorem readFile_of_unpacks {fs : FileSystem} {path : String} {place : Location} {file contents : List UInt8}
    (h : fs.find path = .ok (place, .file file)) (hu : Gzip.Unpacks file contents) :
    readFile fs path = readAll (.ofBytes contents) := by
  unfold readFile FileReader.open
  rw [h]
  dsimp only [sourceOf]
  rw [hu]

/-- A file to which records were written is read back without a failure. -/
theorem readFile_packed {fs : FileSystem} {path : String} {place : Location} {records : List CachedRecord}
    (h : fs.find path = .ok (place, .file (Gzip.pack (encodeAll records)))) (hf : ∀ r ∈ records, r.Fits) :
    readFile fs path = (records.map (·.floored), none) :=
  (readFile_of_unpacks h (Gzip.unpacks_pack _)).trans (readAll_encodeAll hf)

/-- A record that is written whole follows what was written before. -/
theorem FileWriter.append_eq_ok {sink sink' : FileWriter} {r : CachedRecord} (h : sink.append r = (sink', none)) :
    sink'.destination = sink.destination ∧ sink'.temporary = sink.temporary ∧
      sink'.contents = sink.contents ++ r.encode ∧ (r.write none).failure = none := by
  unfold append at h
  dsimp only at h
  cases hf : (r.write none).failure with
  | some e =>
    rw [hf] at h
    nomatch congrArg Prod.snd h
  | none =>
    have hwritten : (r.write none).bytes = r.encode := (writeFields_whole hf).1
    rw [hf] at h
    cases h
    refine ⟨rfl, rfl, ?_, rfl⟩
    unfold contents
    dsimp only
    rw [List.reverse_cons, List.flatten_append, List.flatten_singleton, hwritten]

/-- A record that is not written whole leaves the file where it was. -/
theorem FileWriter.append_eq_error {sink sink' : FileWriter} {r : CachedRecord} {e : CacheError}
    (h : sink.append r = (sink', some e)) :
    sink'.temporary = sink.temporary ∧ (r.write none).failure = some e := by
  unfold append at h
  dsimp only at h
  cases hf : (r.write none).failure with
  | some e' =>
    rw [hf] at h
    cases h
    exact ⟨rfl, rfl⟩
  | none =>
    rw [hf] at h
    nomatch congrArg Prod.snd h

/-- All of some records and another one are encoded one after the other. -/
theorem encodeAll_concat (records : List CachedRecord) (r : CachedRecord) :
    encodeAll (records ++ [r]) = encodeAll records ++ r.encode := by
  unfold encodeAll
  rw [List.flatMap_append, List.flatMap_singleton]

/-- The segments in a directory are those that hold some records, numbered from 0. -/
structure Shelf (directory stem : String) (place : Location) (segments : List (List CachedRecord))
    (fs : FileSystem) : Prop where
  /-- The directory is there. -/
  found : fs.find directory = .ok (place, .directory)
  /-- The names of all segments can be told. -/
  limited : segments.length ≤ segmentLimit
  /-- Each segment is found and holds its records. -/
  file : ∀ {index records}, segments[index]? = some records →
    fs.find (segmentPath directory stem index) =
      .ok (place ++ [.given (segmentName stem index)], .file (Gzip.pack (encodeAll records)))
  /-- There are no other segments. -/
  only : ∀ {name}, IsSegment stem name → (fs.node? (place ++ [name])).isSome = true →
    ∃ index < segments.length, name = .given (segmentName stem index)
  /-- All records can be read back. -/
  fits : ∀ records ∈ segments, ∀ r ∈ records, r.Fits

namespace Shelf

variable {directory stem : String} {place : Location} {segments : List (List CachedRecord)}
  {fs fs' : FileSystem}

/-- The segments of a shelf stand in a row. -/
theorem row (h : Shelf directory stem place segments fs) :
    Row directory stem place segments.length fs where
  found := h.found
  limited := h.limited
  segment _ hi := ⟨_, h.file (List.getElem?_eq_getElem hi)⟩
  only := h.only

/-- A directory without segments is a shelf without segments. -/
theorem of_none (hd : fs.find directory = .ok (place, .directory))
    (hnone : ∀ name, IsSegment stem name → fs.node? (place ++ [name]) = none) :
    Shelf directory stem place [] fs where
  found := hd
  limited := Nat.zero_le _
  file := by
    intro index records hr
    cases hr
  only := by
    intro name hs hn
    rw [hnone name hs] at hn
    cases hn
  fits := by
    intro records hr
    cases hr

/-- An empty directory is a shelf without segments. -/
theorem of_list_nil (h : fs.list directory = .ok []) : ∃ place, Shelf directory stem place [] fs := by
  obtain ⟨place, hf⟩ := FileSystem.find_of_list h
  obtain ⟨names, hl, -, hm⟩ := FileSystem.list_of_find hf
  rw [h] at hl
  cases hl
  refine ⟨place, .of_none hf fun name _ => ?_⟩
  rw [← Option.not_isSome_iff_eq_none, ← hm]
  exact List.not_mem_nil

/-- A shelf that is left undisturbed stays as it is. -/
theorem undisturbed (h : Shelf directory stem place segments fs)
    (hu : FileSystem.Undisturbed place (IsSegment stem) fs fs') :
    Shelf directory stem place segments fs' where
  found := (h.row.undisturbed hu).found
  limited := h.limited
  file := by
    intro index records hr
    obtain ⟨hi, -⟩ := List.getElem?_eq_some_iff.1 hr
    exact hu.find_watched (isSegment_segmentName (Nat.lt_of_lt_of_le hi h.limited)) (h.file hr)
  only := (h.row.undisturbed hu).only
  fits := h.fits

/-- The segments of a shelf are scanned without a gap. -/
theorem scan (h : Shelf directory stem place segments fs) :
    scanSegments fs directory stem = .ok ⟨List.range segments.length, []⟩ := h.row.scan

/-- A segment of a shelf is opened at its first record. -/
theorem open_segment (h : Shelf directory stem place segments fs) {index : Nat}
    {records : List CachedRecord} (hr : segments[index]? = some records) :
    FileReader.open fs (segmentPath directory stem index) =
      .ok { path := segmentPath directory stem index, source := .ofBytes (encodeAll records) none } := by
  unfold FileReader.open
  rw [h.file hr]
  dsimp only [sourceOf]
  rw [Gzip.unpack_pack]

/-- A segment of a shelf is read without a failure. -/
theorem readFile_segment (h : Shelf directory stem place segments fs) {index : Nat}
    {records : List CachedRecord} (hr : segments[index]? = some records) :
    readFile fs (segmentPath directory stem index) = (records.map (·.floored), none) :=
  readFile_packed (h.file hr) (h.fits records (List.mem_of_getElem? hr))

section Writing

/-- A file that is being written to become a segment. -/
structure Pending (directory stem : String) (index : Nat) (records : List CachedRecord)
    (sink : FileWriter) : Prop where
  /-- Where it will be. -/
  destination_eq : sink.destination = segmentPath directory stem index
  /-- Where it is. -/
  temporary_drawn : ∃ start serial, sink.temporary.name = .drawn start inProgressEnding serial
  /-- What was written. -/
  contents_eq : sink.contents = encodeAll records
  /-- All records can be read back. -/
  fits : ∀ r ∈ records, r.Fits

variable {index : Nat} {records : List CachedRecord} {sink : FileWriter}

/-- The name of a file that is being written is not that of a segment. -/
theorem Pending.not_isSegment (hp : Pending directory stem index records sink) :
    ¬ IsSegment stem sink.temporary.name := by
  obtain ⟨start, serial, ht⟩ := hp.temporary_drawn
  rw [ht]
  exact not_isSegment_drawn stem start serial

/-- No path leads to a file that is being written. -/
theorem Pending.not_given (hp : Pending directory stem index records sink) :
    ¬ sink.temporary.name.IsGiven := by
  obtain ⟨start, serial, ht⟩ := hp.temporary_drawn
  rw [ht]
  exact id

/-- Discarding a file that is being written leaves the shelf as it is. -/
theorem discard (h : Shelf directory stem place segments fs)
    (hp : Pending directory stem index records sink) :
    Shelf directory stem place segments (sink.discard fs) :=
  h.undisturbed (FileSystem.Undisturbed.discardFile hp.not_isSegment)

/-- A record that is written whole follows those before it. -/
theorem Pending.append (hp : Pending directory stem index records sink) {r : CachedRecord}
    (hn : -(Bytes.modulus64 : Int) ≤ 2 * r.record.number ∧ 2 * r.record.number < Bytes.modulus64)
    {sink' : FileWriter} (h : sink.append r = (sink', none)) :
    Pending directory stem index (records ++ [r]) sink' := by
  obtain ⟨hdestination, htemporary, hcontents, hwritten⟩ := FileWriter.append_eq_ok h
  refine ⟨hdestination.trans hp.destination_eq, ?_, ?_, ?_⟩
  · rw [htemporary]
    exact hp.temporary_drawn
  · rw [hcontents, hp.contents_eq, encodeAll_concat]
  · intro other ho
    rcases List.mem_append.1 ho with ho | ho
    · exact hp.fits other ho
    · rw [List.mem_singleton.1 ho]
      exact ⟨(writeFields_whole hwritten).2, hn⟩

/-- Creating the directories for a segment leaves the shelf undisturbed. -/
theorem createDirectories (h : Shelf directory stem place segments fs) (index : Nat) :
    FileSystem.Undisturbed place (IsSegment stem) fs
      (fs.createDirectories (Path.parent (segmentPath directory stem index))).1 := by
  by_cases hs : Path.Slashless stem
  · obtain ⟨hne, hdot, -⟩ := segmentName_ne stem index
    have hc := FileSystem.createDirectories_parent_join h.found (slashless_segmentName hs index) hne hdot
    have he : (fs.createDirectories (Path.parent (segmentPath directory stem index))).1 = fs :=
      congrArg Prod.fst hc
    rw [he]
    exact .refl fs
  · exact .createDirectories (fun name hn => not_isSegment_of_slash (Decidable.not_not.1 hs) hn) _

/-- Starting a file for a segment leaves the shelf as it is. -/
theorem create (h : Shelf directory stem place segments fs) (index : Nat) :
    Shelf directory stem place segments
        (FileWriter.create fs (segmentPath directory stem index) stem).1 ∧
      ∀ sink, (FileWriter.create fs (segmentPath directory stem index) stem).2 = .ok sink →
        Pending directory stem index [] sink := by
  have hd := h.createDirectories index
  unfold FileWriter.create
  dsimp only
  rcases hc : fs.createDirectories (Path.parent (segmentPath directory stem index)) with ⟨fs₁, e | u⟩
  · rw [hc] at hd
    refine ⟨h.undisturbed hd, ?_⟩
    intro sink hsink
    cases hsink
  · rw [hc] at hd
    dsimp only
    cases ht : fs₁.createTemporary (Path.parent (segmentPath directory stem index)) (inProgressStart stem)
        inProgressEnding with
    | error e =>
      refine ⟨h.undisturbed hd, ?_⟩
      intro sink hsink
      cases hsink
    | ok created =>
      obtain ⟨entry, fs₂⟩ := created
      have hcreated : FileSystem.Undisturbed place (IsSegment stem) fs₁ fs₂ ∧
          ∃ start serial, entry.name = .drawn start inProgressEnding serial :=
        FileSystem.Undisturbed.createTemporary (not_isSegment_drawn stem) ht
      obtain ⟨hu, hdrawn⟩ := hcreated
      refine ⟨h.undisturbed (hd.trans hu), ?_⟩
      intro sink hsink
      cases hsink
      exact ⟨rfl, hdrawn, rfl, fun r hr => absurd hr List.not_mem_nil⟩

/-- A path of a segment names a segment in the directory only under its own name, and within the limit. -/
theorem slot_segmentPath (h : Shelf directory stem place segments fs) {target : Location} {name : String}
    (hs : fs.slot (segmentPath directory stem index) = .ok (target, name))
    (hseg : IsSegment stem (.given name)) :
    Path.Slashless stem ∧ target = place ∧ name = segmentName stem index ∧ index < segmentLimit ∧
      Path.check (Path.join directory (segmentName stem index)) = .ok () := by
  obtain ⟨hcheck, -, -, hentry⟩ := FileSystem.slot_eq_ok_iff.1 hs
  have hname : Path.Slashless name := by
    rw [← hentry]
    exact Path.slashless_entry _
  have hstem : Path.Slashless stem := fun hslash => not_isSegment_of_slash hslash hname hseg
  have hslot := FileSystem.slot_join h.found (slashless_segmentName hstem index)
    (segmentName_ne stem index).1 hcheck
  have hs' : fs.slot (Path.join directory (segmentName stem index)) = .ok (target, name) := hs
  rw [hslot] at hs'
  cases hs'
  have hlimit : index < segmentLimit := by
    by_cases hge : segmentLimit ≤ index
    · have hnone : segmentIndex? stem (segmentName stem index) = none := segmentIndex?_segmentName_ge hge
      unfold IsSegment at hseg
      rw [show segmentIndex? stem (Name.given (segmentName stem index)).text = _ from hnone] at hseg
      cases hseg
    · exact Nat.lt_of_not_le hge
  exact ⟨hstem, rfl, rfl, hlimit, hcheck⟩

/-- A free name of a segment is the next one, unless it comes later. -/
theorem eq_length_of_free (h : Shelf directory stem place segments fs) (hindex : index ≤ segments.length)
    (hfree : fs.node? (place ++ [.given (segmentName stem index)]) = none) : index = segments.length := by
  by_cases hlt : index < segments.length
  · have hf := h.file (List.getElem?_eq_getElem hlt)
    rw [(FileSystem.find_eq_ok_iff.1 hf).2.2] at hfree
    cases hfree
  · omega

/-- A shelf that is left undisturbed but for a file under the next name has one more segment. -/
theorem extend (h : Shelf directory stem place segments fs) (hlimit : segments.length < segmentLimit)
    (hfits : ∀ r ∈ records, r.Fits)
    (hu : FileSystem.Undisturbed place
      (fun other => IsSegment stem other ∧ other ≠ .given (segmentName stem segments.length)) fs fs')
    (hfile : fs'.find (segmentPath directory stem segments.length) =
      .ok (place ++ [.given (segmentName stem segments.length)], .file (Gzip.pack (encodeAll records)))) :
    Shelf directory stem place (segments ++ [records]) fs' := by
  obtain ⟨hrow, hsame⟩ := h.row.extend hlimit hu hfile
  have hlength : (segments ++ [records]).length = segments.length + 1 := by
    rw [List.length_append, List.length_singleton]
  refine ⟨hrow.found, ?_, ?_, ?_, ?_⟩
  · rw [hlength]
    exact hrow.limited
  · intro index records' hr
    by_cases hi : index < segments.length
    · rw [List.getElem?_append_left hi] at hr
      rw [hsame index hi]
      exact h.file hr
    · have hlast : index = segments.length := by
        obtain ⟨hlt, -⟩ := List.getElem?_eq_some_iff.1 hr
        rw [hlength] at hlt
        omega
      subst hlast
      rw [List.getElem?_concat_length] at hr
      cases hr
      exact hfile
  · rw [hlength]
    exact hrow.only
  · intro records' hr r hrr
    rcases List.mem_append.1 hr with hr | hr
    · exact h.fits records' hr r hrr
    · rw [List.mem_singleton.1 hr] at hrr
      exact hfits r hrr

/-- A file that is moved elsewhere than to a segment leaves the shelf as it is. -/
theorem elsewhere (h : Shelf directory stem place segments fs)
    (hp : Pending directory stem index records sink)
    (hm : fs.moveToFree sink.temporary sink.destination (Gzip.pack sink.contents) = .ok fs')
    {target : Location} {name : String} (hs : fs.slot sink.destination = .ok (target, name))
    (hseg : ¬ (target = place ∧ IsSegment stem (.given name))) :
    Shelf directory stem place segments fs' := by
  refine h.undisturbed (.moveToFree hp.not_given hp.not_isSegment ?_ hm)
  intro target' name' hs' hplace hw
  rw [hs] at hs'
  cases hs'
  exact hseg ⟨hplace, hw⟩

/-- A file that is moved to the place of a segment is the next segment, if it is one. -/
theorem move (h : Shelf directory stem place segments fs)
    (hp : Pending directory stem index records sink) (hindex : index ≤ segments.length)
    (hm : fs.moveToFree sink.temporary sink.destination (Gzip.pack sink.contents) = .ok fs') :
    Shelf directory stem place segments fs' ∨
      index = segments.length ∧ Shelf directory stem place (segments ++ [records]) fs' := by
  obtain ⟨old, target, name, hs, -, hname, hfree, hfs⟩ := FileSystem.moveToFree_eq_ok hm
  by_cases hseg : target = place ∧ IsSegment stem (.given name)
  · right
    rw [hp.destination_eq] at hs
    obtain ⟨hstem, rfl, rfl, hlimit, hcheck⟩ := h.slot_segmentPath hs hseg.2
    have hlast := h.eq_length_of_free hindex hfree
    subst hlast
    -- every other segment is left undisturbed
    have hu : FileSystem.Undisturbed target
        (fun other => IsSegment stem other ∧ other ≠ .given (segmentName stem segments.length)) fs fs' := by
      refine .moveToFree hp.not_given (fun hw => hp.not_isSegment hw.1) ?_ hm
      intro other name hs' _ hw
      rw [hp.destination_eq, hs] at hs'
      cases hs'
      exact hw.2 rfl
    have hnode : fs'.node? (target ++ [.given (segmentName stem segments.length)]) =
        some (.file (Gzip.pack (encodeAll records))) := by
      rw [hfs, ← hp.contents_eq]
      exact FileSystem.node?_put_self _ _ _
    have hfile := FileSystem.find_join (hu.find_directory h.found)
      (slashless_segmentName hstem segments.length) (segmentName_ne stem segments.length).1
      (isRelative_segmentName stem segments.length) hcheck hname hnode
    exact ⟨rfl, h.extend hlimit hp.fits hu hfile⟩
  · left
    exact h.elsewhere hp hm hs hseg

/-- Finishing a file leaves the shelf as it is, or adds the next segment. -/
theorem finish (h : Shelf directory stem place segments fs)
    (hp : Pending directory stem index records sink) (hindex : index ≤ segments.length) :
    Shelf directory stem place segments (sink.finish fs).1 ∨
      index = segments.length ∧ Shelf directory stem place (segments ++ [records]) (sink.finish fs).1 := by
  unfold FileWriter.finish
  cases hm : fs.moveToFree sink.temporary sink.destination (Gzip.pack sink.contents) with
  | ok fs' => exact h.move hp hindex hm
  | error e =>
    left
    cases e with
    | alreadyExists => exact h.discard hp
    | _ => exact h.discard hp

end Writing

end Shelf

end Chronicle.Cache
