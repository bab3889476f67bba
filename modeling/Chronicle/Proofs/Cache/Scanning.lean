import Chronicle.Proofs.Cache.Replaying
import Chronicle.Proofs.Cache.Row

/-!
# Scanning a directory of files

Segments may be missing in a directory, and others may be damaged. A scan tells those before the first
that is missing from those after it. If files are removed from the directory, whichever they are, the
first that is missing can only come earlier. So what can be replayed then is the beginning of what could
be replayed before, and no segment that was stranded follows on from another.
-/

namespace Chronicle.Cache

/-- A directory in which only files stand. Their names hold no slash, and they are given or were drawn for
files being written. -/
structure Plain (directory : String) (place : Location) (fs : FileSystem) : Prop where
  /-- The directory is there. -/
  found : fs.find directory = .ok (place, .directory)
  /-- No directory stands in it. -/
  file : ∀ name, fs.node? (place ++ [name]) ≠ some .directory
  /-- Names are such as arise in a cache. -/
  named : ∀ name, (fs.node? (place ++ [name])).isSome = true → Path.Slashless name.text ∧
    (name = .given name.text ∨ ∃ start serial, name = .drawn start inProgressEnding serial)

/-- A segment is there, whatever it holds. -/
def Present (stem : String) (place : Location) (fs : FileSystem) (index : Nat) : Prop :=
  index < segmentLimit ∧ (fs.node? (place ++ [.given (segmentName stem index)])).isSome = true

section

variable {directory stem : String} {place : Location} {fs fs' : FileSystem}

/-- A segment that is there after files were removed was there before. -/
theorem Present.of_thinned {index : Nat} (h : Present stem place fs' index) (ht : fs.Thinned fs') :
    Present stem place fs index := by
  obtain ⟨node, hn⟩ := Option.isSome_iff_exists.1 h.2
  exact ⟨h.1, Option.isSome_iff_exists.2 ⟨node, ht.nodes hn⟩⟩

namespace Plain

/-- A directory is one of files if all entries in it are listed as such. -/
theorem of_entries (hfound : fs.find directory = .ok (place, .directory))
    (h : ∀ entry ∈ fs.nodes, ∀ name, entry.1 = place ++ [name] → entry.2 ≠ .directory ∧
      Path.Slashless name.text ∧
        (name = .given name.text ∨ ∃ start serial, name = .drawn start inProgressEnding serial)) :
    Plain directory place fs where
  found := hfound
  file name hn := by
    have hne : (place ++ [name]).isEmpty = false := by simp
    unfold FileSystem.node? at hn
    rw [hne, if_neg Bool.false_ne_true] at hn
    obtain ⟨before, after, hnodes, -⟩ := List.lookup_eq_some_iff.1 hn
    have hm : (place ++ [name], Node.directory) ∈ fs.nodes := by
      rw [hnodes]
      exact List.mem_append_right _ List.mem_cons_self
    exact (h _ hm name rfl).1 rfl
  named name hn := by
    obtain ⟨entry, he, heq⟩ := (FileSystem.exists_entry_iff place name).2 hn
    exact (h entry he name heq).2

/-- Files are left when others are removed. -/
theorem thinned (h : Plain directory place fs) (ht : fs.Thinned fs') : Plain directory place fs' where
  found := ht.find_directory h.found
  file name hd := h.file name (ht.nodes hd)
  named name hn := by
    obtain ⟨node, hn⟩ := Option.isSome_iff_exists.1 hn
    exact h.named name (Option.isSome_iff_exists.2 ⟨node, ht.nodes hn⟩)

/-- Whatever is there is a file. -/
theorem exists_file (h : Plain directory place fs) {name : Name}
    (hn : (fs.node? (place ++ [name])).isSome = true) :
    ∃ bytes, fs.node? (place ++ [name]) = some (.file bytes) := by
  obtain ⟨node, hnode⟩ := Option.isSome_iff_exists.1 hn
  cases node with
  | directory => exact absurd hnode (h.file name)
  | file bytes => exact ⟨bytes, hnode⟩

/-- What is named as a segment has a given name. -/
theorem eq_given (h : Plain directory place fs) {name : Name}
    (hn : (fs.node? (place ++ [name])).isSome = true) (hs : IsSegment stem name) :
    name = .given name.text := by
  rcases (h.named name hn).2 with hgiven | ⟨start, serial, rfl⟩
  · exact hgiven
  · exact absurd hs (not_isSegment_drawn stem start serial)

/-- The segments that are there are scanned up to the first that is missing, and the others are
stranded. -/
theorem scan (h : Plain directory place fs) (stem : String) :
    ∃ count stranded, scanSegments fs directory stem = .ok ⟨List.range count, stranded⟩ ∧
      stranded.Nodup ∧ (∀ index, Present stem place fs index ↔ index < count ∨ index ∈ stranded) ∧
      ∀ index ∈ stranded, count < index := by
  obtain ⟨names, hl, hd, hm⟩ := FileSystem.list_of_find h.found
  obtain ⟨count, stranded, hscan, hnodup, hmem, hbeyond⟩ :=
    scanNames_eq stem hd fun name hn hs => h.eq_given ((hm name).1 hn) hs
  refine ⟨count, stranded, ?_, hnodup, ?_, hbeyond⟩
  · rw [scanSegments_of_list hl, hscan]
  · intro index
    rw [← hmem index, hm]
    rfl

/-- A segment that is there is found, unless its name or its path is refused. -/
theorem find_segment_iff (h : Plain directory place fs) {index : Nat} (hp : Present stem place fs index)
    {target : Location} {node : Node} : fs.find (segmentPath directory stem index) = .ok (target, node) ↔
      Path.check (segmentPath directory stem index) = .ok () ∧
        Path.checkName (segmentName stem index) = .ok () ∧
        target = place ++ [.given (segmentName stem index)] ∧ fs.node? target = some node :=
  FileSystem.find_join_eq_ok_iff h.found (h.named _ hp.2).1 (segmentName_ne stem index).1
    (isRelative_segmentName stem index)

/-- A segment that is as it was is found as it was. -/
theorem find_segment_congr (h : Plain directory place fs) (h' : Plain directory place fs') {index : Nat}
    (hp : Present stem place fs index)
    (hsame : fs'.node? (place ++ [.given (segmentName stem index)]) =
      fs.node? (place ++ [.given (segmentName stem index)])) {target : Location} {node : Node} :
    fs'.find (segmentPath directory stem index) = .ok (target, node) ↔
      fs.find (segmentPath directory stem index) = .ok (target, node) := by
  have hp' : Present stem place fs' index := by
    unfold Present
    rw [hsame]
    exact hp
  rw [h.find_segment_iff hp, h'.find_segment_iff hp']
  refine and_congr_right fun _ => and_congr_right fun _ => and_congr_right fun ht => ?_
  rw [ht, hsame]

end Plain

/-- After files were removed, segments yield the beginning of what they and more segments yielded. -/
theorem replaySegments_prefix {P : Type} (codec : PositionCodec P) (ht : fs.Thinned fs')
    (paths more : List String) :
    replaySegments codec fs' paths <+: replaySegments codec fs (paths ++ more) := by
  induction paths with
  | nil => exact List.nil_prefix
  | cons path rest ih =>
    cases hf : fs'.find path with
    | error e =>
      -- a segment that is not found yields nothing and ends the replaying
      have hdamaged : readFile fs' path = ([], some (ofFileError e)) := by
        unfold readFile FileReader.open
        rw [hf]
      have hnil : replaySegments codec fs' (path :: rest) = [] := by
        rw [replaySegments, hdamaged]
        rfl
      rw [hnil]
      exact List.nil_prefix
    | ok found =>
      obtain ⟨place, node⟩ := found
      rw [List.cons_append, replaySegments, replaySegments, readFile_of_find (ht.find hf) hf]
      dsimp only
      split
      · exact (List.prefix_append_right_inj _).2 ih
      · exact List.prefix_rfl

/-- After files were removed, whoever reads the cache is replayed the beginning of what was replayed
before. -/
theorem Plain.replayable_prefix {P : Type} (codec : PositionCodec P) (h : Plain directory place fs)
    (ht : fs.Thinned fs') (stem : String) :
    replayable codec fs' directory stem <+: replayable codec fs directory stem := by
  obtain ⟨count, stranded, hscan, -, hpresent, hbeyond⟩ := h.scan stem
  obtain ⟨count', stranded', hscan', -, hpresent', -⟩ := (h.thinned ht).scan stem
  have hle : count' ≤ count := by
    by_contra hlt
    have hthere := ((hpresent' count).2 (.inl (Nat.lt_of_not_le hlt))).of_thinned ht
    rcases (hpresent count).1 hthere with hc | hc
    · exact Nat.lt_irrefl count hc
    · exact Nat.lt_irrefl count (hbeyond count hc)
  obtain ⟨more, rfl⟩ := Nat.exists_eq_add_of_le hle
  unfold replayable
  rw [hscan, hscan']
  dsimp only [SegmentScan.replayablePaths]
  rw [List.range_add, List.map_append]
  exact replaySegments_prefix codec ht _ _

end

end Chronicle.Cache
