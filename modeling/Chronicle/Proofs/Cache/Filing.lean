import Chronicle.Cache.File
import Chronicle.Proofs.Cache.Segments
import Chronicle.Proofs.Files.Gaining
import Chronicle.Proofs.Gzip.Stored

/-!
# Files that are begun, and then filed or given up

A new segment is begun in whatever directories its path asks for, and filed when it is whole. What its path
leads to is settled when it is begun, so it can be told then whether it will be filed, whatever is written to
it: a file can be started there and finished, and nothing has its name. If it is not filed, nothing is left of
it but perhaps directories.
-/

namespace Chronicle.Cache

open FileSystem

variable {fs begun : FileSystem} {path stem : String} {sink : FileWriter} {old : Location}

/-- Nothing is left of a file that could not be started. -/
theorem gains_create_error {e : CacheError} (h : FileWriter.create fs path stem = (begun, .error e)) :
    Gains fs begun none := by
  have hgrown := grown_createDirectories fs (Path.parent path)
  unfold FileWriter.create at h
  dsimp only at h
  split at h
  · rename_i hdirectories
    rw [hdirectories] at hgrown
    cases h
    exact (Gains.refl fs).grown hgrown
  · rename_i hdirectories
    rw [hdirectories] at hgrown
    split at h
    · cases h
      exact (Gains.refl fs).grown hgrown
    · nomatch congrArg Prod.snd h

/-- A file that was started is empty and stands under a name that was drawn for it. -/
theorem begun_create (hfresh : fs.Fresh) (h : FileWriter.create fs path stem = (begun, .ok sink)) :
    sink.destination = path ∧ sink.contents = [] ∧ ∃ old, Begun fs begun sink.temporary old := by
  have hgrown := grown_createDirectories fs (Path.parent path)
  unfold FileWriter.create at h
  dsimp only at h
  split at h
  · nomatch congrArg Prod.snd h
  · rename_i hdirectories
    rw [hdirectories] at hgrown
    split at h
    · nomatch congrArg Prod.snd h
    · rename_i htemporary
      cases h
      exact ⟨rfl, rfl, begun_createTemporary ((Gains.refl fs).grown hgrown) (hfresh.grown hgrown) htemporary⟩

/-- A file that was begun is moved to the free place that its path names, or nothing is left of it. -/
theorem finish_eq (h : Begun fs begun sink.temporary old) : sink.finish begun =
    match begun.freePlace sink.destination with
    | .ok place => ((begun.erase old).put place (.file (Gzip.pack sink.contents)),
        .ok (.persisted sink.destination))
    | .error .alreadyExists => (sink.discard begun, .ok (.alreadyPresent sink.destination))
    | .error e => (sink.discard begun, .error (ofFileError e)) := by
  have hthere : (begun.node? old).isSome = true := by
    rw [(h.gains.has rfl).2]
    rfl
  unfold FileWriter.finish
  rw [moveToFree_eq_map h.place_eq hthere]
  cases begun.freePlace sink.destination with
  | ok place => rfl
  | error e => cases e <;> rfl

/-- A segment can be filed under a path: a file for it can be started and finished, and by then nothing has the
name that it is to get. -/
structure Vacant (fs : FileSystem) (path stem : String) : Prop where
  /-- A file can be started and finished. -/
  writable : ∃ begun sink how, FileWriter.create fs path stem = (begun, .ok sink) ∧
    (sink.finish begun).2 = .ok how
  /-- Nothing has its name. -/
  free : ∀ found, (FileWriter.create fs path stem).1.find path ≠ .ok found

variable {parts : List String} {last : String} {first : FileWriter}

/-- Where a file was begun there is a free place for it exactly if the path is vacant. -/
theorem exists_freePlace_iff (hfresh : fs.Fresh) (hparts : Path.parts path = parts ++ [last])
    (hne : last ≠ "") (hrel : Path.isRelative last = false)
    (hcreate : FileWriter.create fs path stem = (begun, .ok first)) :
    (∃ place, begun.freePlace path = .ok place) ↔ Vacant fs path stem := by
  obtain ⟨hdestination, -, old, hbegun⟩ := begun_create hfresh hcreate
  have hfinish := finish_eq hbegun
  rw [hdestination] at hfinish
  constructor
  · rintro ⟨place, hplace⟩
    rw [hplace] at hfinish
    refine ⟨⟨begun, first, _, hcreate, congrArg Prod.snd hfinish⟩, ?_⟩
    obtain ⟨above, rfl, hslot, hname, hnone⟩ := freePlace_eq_ok hparts hne hplace
    rw [hcreate, find_of_slot hparts hne hrel hslot hname, hnone]
    exact fun _ => nofun
  · rintro ⟨⟨_, _, how, hsame, hwritten⟩, hfree⟩
    rw [hcreate] at hsame hfree
    cases hsame
    rw [hfinish] at hwritten
    cases hplace : begun.freePlace path with
    | ok place => exact ⟨place, rfl⟩
    | error e =>
      rw [hplace] at hwritten
      cases e with
      | alreadyExists => exact absurd hplace (freePlace_ne_alreadyExists hparts hne hrel hfree)
      | _ => nomatch hwritten

/-- A segment is filed: a file that unpacks to its contents is all that a tree has gained, and its path leads
there. -/
def Filed (fs fs' : FileSystem) (path : String) (contents : List UInt8) : Prop :=
  ∃ place file, Gains fs fs' (some (place, file)) ∧ fs'.find path = .ok (place, .file file) ∧
    Gzip.Unpacks file contents

/-- A file that was begun for a segment and is finished is filed if its path is vacant. Otherwise nothing is
left of it. -/
theorem filed_finish {directory : String} {index : Nat} (hfresh : fs.Fresh)
    (hcreate : FileWriter.create fs (segmentPath directory stem index) stem = (begun, .ok first))
    (hdestination : sink.destination = segmentPath directory stem index)
    (htemporary : sink.temporary = first.temporary) :
    (Vacant fs (segmentPath directory stem index) stem →
      Filed fs (sink.finish begun).1 (segmentPath directory stem index) sink.contents) ∧
    (¬ Vacant fs (segmentPath directory stem index) stem → Gains fs (sink.finish begun).1 none) := by
  obtain ⟨parts, last, hparts⟩ := exists_parts_segmentPath directory stem index
  obtain ⟨hne, -, -⟩ := segmentName_ne last index
  have hrel := isRelative_segmentName last index
  obtain ⟨-, -, old, hbegun⟩ := begun_create hfresh hcreate
  rw [← htemporary] at hbegun
  have hfinish := finish_eq hbegun
  have hvacant := exists_freePlace_iff hfresh hparts hne hrel hcreate
  rw [hdestination] at hfinish
  constructor
  · intro h
    obtain ⟨place, hplace⟩ := hvacant.2 h
    rw [hplace] at hfinish
    rw [hfinish]
    obtain ⟨hgains, hfind⟩ := hbegun.move hparts hne hrel hplace (Gzip.pack sink.contents)
    exact ⟨place, _, hgains, hfind, Gzip.unpacks_pack _⟩
  · intro h
    cases hplace : begun.freePlace (segmentPath directory stem index) with
    | ok place => exact absurd (hvacant.1 ⟨place, hplace⟩) h
    | error e =>
      rw [hplace] at hfinish
      rw [hfinish]
      cases e <;> exact hbegun.discard

end Chronicle.Cache
