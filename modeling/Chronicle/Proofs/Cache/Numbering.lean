import Mathlib.Order.Bounds.Defs
import Chronicle.Proofs.Cache.Stems

/-!
# Numbers of segments

Names and numbers of segments determine each other. The number is read from a name exactly when the name is
what is written for the number, so for a stem of any shape a name tells at most one number, and for names of
any shape at most one stem; a number of more digits than names have is written but never read. So what a scan
finds in a directory is told by the set of its names: the numbers below the first that is missing, those above
it that are there, and nothing twice, in whichever order the directory lists them.
-/

namespace Chronicle.Cache

section Names

variable {stem name : String}

/-- A number is read from a name exactly when the name is that of the segment with the number. -/
theorem segmentIndex?_iff_segmentName {index : Nat} : segmentIndex? stem name = some index ↔
    index < segmentLimit ∧ name = segmentName stem index := by
  constructor
  · exact eq_segmentName
  · rintro ⟨hlimit, rfl⟩
    exact segmentIndex?_segmentName hlimit

/-- A name from which a number is read belongs to the stem. -/
theorem ownsSegment_of_isSome (h : (segmentIndex? stem name).isSome = true) :
    ownsSegment stem name = true := by
  obtain ⟨index, hindex⟩ := Option.isSome_iff_exists.1 h
  rw [(eq_segmentName hindex).2]
  exact ownsSegment_segmentName stem index

/-- The name of a segment is the stem, a dash, the number in eight digits or more, and the ending. -/
theorem exists_digits_segmentName (stem : String) (index : Nat) : ∃ digits : List Char,
    segmentName stem index = stem ++ "-" ++ String.ofList digits ++ ".gz" ∧
      (∀ c ∈ digits, c.isDigit = true) ∧ Nat.ofDigitChars 10 digits 0 = index ∧
      (index < segmentLimit → digits.length = 8) ∧ (segmentLimit ≤ index → 8 < digits.length) := by
  refine ⟨Numeral.zeroPadded segmentDigits index, ?_, List.all_eq_true.1 (isDigit_zeroPadded _ _), ?_,
    length_zeroPadded, lt_length_zeroPadded⟩
  · have hending : String.ofList segmentEnding = ".gz" := by decide
    rw [segmentName, String.ofList_append, hending, String.append_assoc, String.append_assoc,
      String.append_assoc]
  · rw [← digitsValue_eq, digitsValue_zeroPadded]

/-- A number is read from a name exactly when it is below the limit and the name is what is written for it. So
the name of a segment below the limit gives its number, from the limit on it gives none, and no name is that
of a finished segment for two stems. Below the limit the number takes eight digits, from there on more. -/
theorem names_determine_segments (stem name : String) :
    (∀ index, segmentIndex? stem name = some index ↔
      index < segmentLimit ∧ name = segmentName stem index) ∧
    (∀ index, segmentIndex? stem (segmentName stem index) =
      if index < segmentLimit then some index else none) ∧
    (∀ other, (segmentIndex? stem name).isSome = true → (segmentIndex? other name).isSome = true →
      other = stem) ∧
    ∀ index, ∃ digits : List Char, segmentName stem index = stem ++ "-" ++ String.ofList digits ++ ".gz" ∧
      (∀ c ∈ digits, c.isDigit = true) ∧ Nat.ofDigitChars 10 digits 0 = index ∧
      (index < segmentLimit → digits.length = 8) ∧ (segmentLimit ≤ index → 8 < digits.length) := by
  refine ⟨fun index => segmentIndex?_iff_segmentName, fun index => ?_, fun other hstem hother => ?_,
    exists_digits_segmentName stem⟩
  · split
    · rename_i hlimit
      exact segmentIndex?_segmentName hlimit
    · rename_i hlimit
      exact segmentIndex?_segmentName_ge (Nat.le_of_not_lt hlimit)
  · exact stem_eq_of_ownsSegment (ownsSegment_of_isSome hother) (ownsSegment_of_isSome hstem)

/-- A stem that looks like the name of a segment of another stem, and a number of nine digits. -/
theorem names_determine_segments_of_nested_stem :
    let stem := "a-00000001.gz"
    let name := "a-00000001.gz-00000002.gz"
    (segmentIndex? stem name).isSome = true ∧ segmentIndex? stem name = some 2 ∧
      segmentIndex? "a" name = none ∧ segmentIndex? stem (segmentName stem 100000000) = none := by
  intro stem name
  obtain ⟨hreads, hwritten, hone, -⟩ := names_determine_segments stem name
  have htwo : segmentIndex? stem name = some 2 := (hreads 2).2 ⟨by decide, by decide +kernel⟩
  have hsome : (segmentIndex? stem name).isSome = true := by
    rw [htwo]
    rfl
  refine ⟨hsome, htwo, ?_, hwritten 100000000⟩
  rw [← Option.not_isSome_iff_eq_none]
  exact fun hother => absurd (hone "a" hsome hother) (by decide)

end Names

section Scanning

variable {stem : String} {names names' : List Name}

/-- A directory with these names holds a finished segment with a number. -/
def HoldsSegment (stem : String) (names : List Name) (index : Nat) : Prop :=
  index < segmentLimit ∧ segmentName stem index ∈ names.map Name.text

/-- The numbers that are found among names are read from their texts. -/
theorem filterMap_segmentIndex?_text (stem : String) (names : List Name) :
    names.filterMap (segmentIndex? stem ·.text) = (names.map Name.text).filterMap (segmentIndex? stem) := by
  rw [List.filterMap_map]
  rfl

/-- A number is found where the segment is held. -/
theorem mem_filterMap_segmentIndex? {index : Nat} :
    index ∈ names.filterMap (segmentIndex? stem ·.text) ↔ HoldsSegment stem names index := by
  rw [filterMap_segmentIndex?_text, List.mem_filterMap]
  constructor
  · rintro ⟨text, htext, hindex⟩
    obtain ⟨hlimit, rfl⟩ := eq_segmentName hindex
    exact ⟨hlimit, htext⟩
  · rintro ⟨hlimit, htext⟩
    exact ⟨_, htext, segmentIndex?_segmentName hlimit⟩

/-- The names of the segments that are found are those from which a number is read. -/
theorem map_segmentName_filterMap (stem : String) (texts : List String) :
    (texts.filterMap (segmentIndex? stem)).map (segmentName stem) =
      texts.filter fun text => (segmentIndex? stem text).isSome := by
  induction texts with
  | nil => rfl
  | cons text rest ih =>
    cases hindex : segmentIndex? stem text with
    | none => rw [List.filterMap_cons_none hindex, List.filter_cons_of_neg (by simp [hindex]), ih]
    | some index =>
      rw [List.filterMap_cons_some hindex, List.filter_cons_of_pos (by simp [hindex]), List.map_cons, ih,
        ← (eq_segmentName hindex).2]

/-- Different names give different numbers: each number has one name alone. -/
theorem nodup_filterMap_segmentIndex? (stem : String) (hd : (names.map Name.text).Nodup) :
    (names.filterMap (segmentIndex? stem ·.text)).Nodup := by
  refine List.Nodup.of_map (segmentName stem) ?_
  rw [filterMap_segmentIndex?_text, map_segmentName_filterMap]
  exact hd.filter _

/-- A scan does not depend on the order of the names. -/
theorem scanNames_eq_of_perm (h : (names'.map Name.text).Perm (names.map Name.text)) :
    scanNames stem names' = scanNames stem names := by
  unfold scanNames
  rw [filterMap_segmentIndex?_text, filterMap_segmentIndex?_text, mergeSort_eq_of_perm (h.filterMap _)]

/-- A scan of a directory finds the segments below the first that is missing, each in its turn, and apart from
them those above it that are there, in ascending order. Together these are the finished segments of the stem,
each once. The next segment gets the number that is missing, and unless all numbers are taken, no file bears
its name. The order in which a directory lists its names makes no difference. -/
theorem scan_splits_at_first_missing {fs : FileSystem} {directory : String} (stem : String)
    {names : List Name} (hlist : fs.list directory = .ok names) (hdistinct : (names.map Name.text).Nodup) :
    ∃ scan first, scanSegments fs directory stem = .ok scan ∧
      IsLeast {index | ¬ HoldsSegment stem names index} first ∧
      scan.replayable = List.range first ∧
      scan.replayablePaths directory stem =
        (List.range first).map (fun index => Path.join directory (segmentName stem index)) ∧
      scan.stranded.Pairwise (· < ·) ∧
      (∀ index, index ∈ scan.stranded ↔ first < index ∧ HoldsSegment stem names index) ∧
      scan.replayable.Disjoint scan.stranded ∧
      ((scan.replayable ++ scan.stranded).map (segmentName stem)).Perm
        ((names.map Name.text).filter fun text => (segmentIndex? stem text).isSome) ∧
      scan.nextIndex = first ∧
      (first < segmentLimit → segmentName stem first ∉ names.map Name.text) ∧
      ∀ fs' directory' names', fs'.list directory' = .ok names' →
        (names'.map Name.text).Perm (names.map Name.text) →
        scanSegments fs' directory' stem = .ok scan := by
  obtain ⟨first, stranded, hscan, hascending, hfound, hbeyond⟩ :=
    scanNames_of_nodup (nodup_filterMap_segmentIndex? stem hdistinct)
  have hheld : ∀ index, HoldsSegment stem names index ↔ index < first ∨ index ∈ stranded :=
    fun index => mem_filterMap_segmentIndex?.symm.trans (hfound index)
  -- the numbers found are those below `first` and stranded ones beyond it, so `first` is none of them
  have hmissing : ¬ HoldsSegment stem names first := by
    intro hfirst
    rcases (hheld first).1 hfirst with hlt | hstranded
    · exact Nat.lt_irrefl first hlt
    · exact Nat.lt_irrefl first (hbeyond first hstranded)
  refine ⟨⟨List.range first, stranded⟩, first, ?_, ⟨hmissing, ?_⟩, rfl, ?_, hascending, ?_, ?_, ?_,
    List.length_range, ?_, ?_⟩
  · rw [scanSegments_of_list hlist, hscan]
  · intro index hnone
    by_contra hlt
    exact hnone ((hheld index).2 (.inl (Nat.lt_of_not_le hlt)))
  · rfl
  · intro index
    constructor
    · exact fun hi => ⟨hbeyond index hi, (hheld index).2 (.inr hi)⟩
    · rintro ⟨hlt, hholds⟩
      exact ((hheld index).1 hholds).resolve_left (Nat.lt_asymm hlt)
  · intro index hi hstranded
    exact Nat.lt_asymm (List.mem_range.1 hi) (hbeyond index hstranded)
  · have hperm := (scanNames_perm stem names).map (segmentName stem)
    rw [hscan, filterMap_segmentIndex?_text, map_segmentName_filterMap] at hperm
    exact hperm
  · exact fun hlimit hname => hmissing ⟨hlimit, hname⟩
  · intro fs' directory' names' hlist' hperm
    rw [scanSegments_of_list hlist', scanNames_eq_of_perm hperm, hscan]

/-- Segments 0, 2 and 3 among a name of nine digits, a segment of another stem and a file being written, listed
in two orders. -/
theorem scan_splits_at_first_missing_after_gap :
    let names : List Name := [.given "cache-00000003.gz", .given "cache-100000000.gz",
      .given "cache-00000000.gz", .drawn ".cache-" ".tmp" 0, .given "cache-2-00000001.gz",
      .given "cache-00000002.gz"]
    let holding (names : List Name) : FileSystem :=
      ⟨([.given "d"], .directory) :: names.map fun name => ([.given "d", name], .file []), 1⟩
    (holding names).list "d" = .ok names ∧ (names.map Name.text).Nodup ∧
      (holding names.reverse).list "d" = .ok names.reverse ∧
      (names.reverse.map Name.text).Perm (names.map Name.text) ∧
      ∃ scan, scanSegments (holding names) "d" "cache" = .ok scan ∧
        scanSegments (holding names.reverse) "d" "cache" = .ok scan ∧
        scan.replayable = [0] ∧ scan.nextIndex = 1 ∧ 2 ∈ scan.stranded ∧ 3 ∈ scan.stranded ∧
        1 ∉ scan.stranded := by
  intro names holding
  have hlist : (holding names).list "d" = .ok names := rfl
  have hreversed : (holding names.reverse).list "d" = .ok names.reverse := rfl
  have hdistinct : (names.map Name.text).Nodup := by decide +kernel
  have hperm : (names.reverse.map Name.text).Perm (names.map Name.text) :=
    names.reverse_perm.map Name.text
  have hholds : HoldsSegment "cache" names 0 ∧ ¬ HoldsSegment "cache" names 1 ∧
      HoldsSegment "cache" names 2 ∧ HoldsSegment "cache" names 3 := by
    unfold HoldsSegment
    decide +kernel
  obtain ⟨scan, first, hscan, ⟨hmissing, hleast⟩, hreplayable, -, -, hstranded, -, -, hnext, -, hsame⟩ :=
    scan_splits_at_first_missing "cache" hlist hdistinct
  have hfirst : first = 1 := by
    have hle : first ≤ 1 := hleast hholds.2.1
    have hne : first ≠ 0 := by
      rintro rfl
      exact hmissing hholds.1
    omega
  subst hfirst
  refine ⟨hlist, hdistinct, hreversed, hperm, scan, hscan, hsame _ _ _ hreversed hperm, hreplayable, hnext,
    (hstranded 2).2 ⟨by decide, hholds.2.2.1⟩, (hstranded 3).2 ⟨by decide, hholds.2.2.2⟩, ?_⟩
  exact fun hone => Nat.lt_irrefl 1 ((hstranded 1).1 hone).1

end Scanning

end Chronicle.Cache
