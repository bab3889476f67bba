import Chronicle.Cache.File
import Chronicle.Proofs.Cache.Segments
import Chronicle.Proofs.Files.Undisturbed

/-!
# Segments in a row

The segments in a directory stand in a row if their numbers have no gap, whatever they hold. A row is
scanned as it is. Operations that leave the names of segments undisturbed leave the row and what its
segments hold, and a file that appears under the next name makes it one longer.
-/

namespace Chronicle.Cache

/-- A file that is found holds the same records wherever it is found. -/
theorem readFile_of_find {fs fs' : FileSystem} {path : String} {place place' : Location} {node : Node}
    (h : fs.find path = .ok (place, node)) (h' : fs'.find path = .ok (place', node)) :
    readFile fs' path = readFile fs path := by
  unfold readFile FileReader.open
  rw [h, h']

/-- The segments in a directory are those below some number, without a gap. -/
structure Row (directory stem : String) (place : Location) (count : Nat) (fs : FileSystem) : Prop where
  /-- The directory is there. -/
  found : fs.find directory = .ok (place, .directory)
  /-- The names of all segments can be told. -/
  limited : count ≤ segmentLimit
  /-- Each segment is found. -/
  segment : ∀ index < count, ∃ node, fs.find (segmentPath directory stem index) =
    .ok (place ++ [.given (segmentName stem index)], node)
  /-- There are no other segments. -/
  only : ∀ {name}, IsSegment stem name → (fs.node? (place ++ [name])).isSome = true →
    ∃ index < count, name = .given (segmentName stem index)

namespace Row

variable {directory stem : String} {place : Location} {count : Nat} {fs fs' : FileSystem}

/-- An empty directory has a row of no segments. -/
theorem of_list_nil (stem : String) (h : fs.list directory = .ok []) :
    ∃ place, Row directory stem place 0 fs := by
  obtain ⟨place, hf⟩ := FileSystem.find_of_list h
  obtain ⟨names, hl, -, hm⟩ := FileSystem.list_of_find hf
  rw [h] at hl
  cases hl
  refine ⟨place, hf, Nat.zero_le _, fun index hi => absurd hi (Nat.not_lt_zero index), ?_⟩
  intro name _ hn
  exact absurd ((hm name).2 hn) List.not_mem_nil

/-- A row is scanned without a gap. -/
theorem scan (h : Row directory stem place count fs) :
    scanSegments fs directory stem = .ok ⟨List.range count, []⟩ := by
  obtain ⟨names, hl, hd, hm⟩ := FileSystem.list_of_find h.found
  have hall : ∀ index < count, Name.given (segmentName stem index) ∈ names := by
    intro index hi
    obtain ⟨node, hf⟩ := h.segment index hi
    rw [hm, (FileSystem.find_eq_ok_iff.1 hf).2.2]
    rfl
  have hs := scanNames_range hd h.limited (fun name hn hseg => h.only hseg ((hm name).1 hn)) hall
  rw [scanSegments_of_list hl, hs]

/-- A row that is left undisturbed stays as it is. -/
theorem undisturbed (h : Row directory stem place count fs)
    (hu : FileSystem.Undisturbed place (IsSegment stem) fs fs') : Row directory stem place count fs' where
  found := hu.find_directory h.found
  limited := h.limited
  segment index hi := by
    obtain ⟨node, hf⟩ := h.segment index hi
    exact ⟨node, hu.find_watched (isSegment_segmentName (Nat.lt_of_lt_of_le hi h.limited)) hf⟩
  only := by
    intro name hs hn
    rw [hu.names name hs] at hn
    exact h.only hs hn

/-- Segments of a row that are left undisturbed hold what they held. -/
theorem readFile_undisturbed (h : Row directory stem place count fs) {watched : Name → Prop}
    (hu : FileSystem.Undisturbed place watched fs fs') {index : Nat} (hi : index < count)
    (hw : watched (.given (segmentName stem index))) :
    readFile fs' (segmentPath directory stem index) = readFile fs (segmentPath directory stem index) := by
  obtain ⟨node, hf⟩ := h.segment index hi
  exact readFile_of_find hf (hu.find_watched hw hf)

/-- No segment of a row stands under the next name. -/
theorem free (h : Row directory stem place count fs) (hlimit : count < segmentLimit) :
    fs.node? (place ++ [.given (segmentName stem count)]) = none := by
  rw [← Option.not_isSome_iff_eq_none]
  intro hsome
  obtain ⟨index, hi, hname⟩ := h.only (isSegment_segmentName hlimit) hsome
  have hsame := segmentName_injective hlimit (Nat.lt_trans hi hlimit) hname
  omega

/-- A row that is left undisturbed but for something under the next name is one longer. -/
theorem extend (h : Row directory stem place count fs) (hlimit : count < segmentLimit) {node : Node}
    (hu : FileSystem.Undisturbed place
      (fun other => IsSegment stem other ∧ other ≠ .given (segmentName stem count)) fs fs')
    (hnext : fs'.find (segmentPath directory stem count) =
      .ok (place ++ [.given (segmentName stem count)], node)) :
    Row directory stem place (count + 1) fs' ∧ ∀ index < count,
      fs'.find (segmentPath directory stem index) = fs.find (segmentPath directory stem index) := by
  have hkept : ∀ index < count, ∃ node,
      fs.find (segmentPath directory stem index) = .ok (place ++ [.given (segmentName stem index)], node) ∧
      fs'.find (segmentPath directory stem index) =
        .ok (place ++ [.given (segmentName stem index)], node) := by
    intro index hi
    obtain ⟨node, hf⟩ := h.segment index hi
    have hilimit : index < segmentLimit := Nat.lt_trans hi hlimit
    refine ⟨node, hf, hu.find_watched ⟨isSegment_segmentName hilimit, ?_⟩ hf⟩
    intro he
    have hsame := segmentName_injective hilimit hlimit he
    omega
  refine ⟨⟨hu.find_directory h.found, hlimit, ?_, ?_⟩, ?_⟩
  · intro index hi
    rcases Nat.lt_succ_iff_lt_or_eq.1 hi with hlt | rfl
    · obtain ⟨node, -, hf⟩ := hkept index hlt
      exact ⟨node, hf⟩
    · exact ⟨node, hnext⟩
  · intro other hother hn
    by_cases he : other = .given (segmentName stem count)
    · exact ⟨count, Nat.lt_succ_self count, he⟩
    · rw [hu.names other ⟨hother, he⟩] at hn
      obtain ⟨index, hi, hname⟩ := h.only hother hn
      exact ⟨index, Nat.lt_succ_of_lt hi, hname⟩
  · intro index hi
    obtain ⟨node, hf, hf'⟩ := hkept index hi
    rw [hf, hf']

end Row

end Chronicle.Cache
