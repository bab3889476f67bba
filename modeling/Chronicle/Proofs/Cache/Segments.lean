import Mathlib.Algebra.Group.Nat.Defs
import Mathlib.Data.List.Induction
import Mathlib.Data.List.Sort
import Chronicle.Cache.Segment
import Chronicle.Proofs.Files.Paths
import Chronicle.Proofs.Lists

/-!
# Names of segments

The name of a segment tells its number, as long as the number has no more digits than names have, and no
other name that arises in a cache is taken for one: neither that of a file being written nor, when the
stem holds a slash, any name at all. A directory whose segments are those from 0 up to some number,
without a gap, is scanned as just those.
-/

namespace Chronicle.Cache

/-- The number of segments whose names can be told. -/
def segmentLimit : Nat := 100000000

/-- A name that is taken for that of a segment. -/
def IsSegment (stem : String) (name : Name) : Prop := (segmentIndex? stem name.text).isSome = true

section Digits

/-- The value of digits, read from the left. -/
theorem digitsValue_eq (digits : List Char) : digitsValue digits = Nat.ofDigitChars 10 digits 0 := by
  unfold digitsValue
  rw [Nat.ofDigitChars_eq_foldl]
  congr 1
  funext n c
  rw [Nat.mul_comm]

/-- Leading zeros do not change the value. -/
theorem digitsValue_zeroPadded (width n : Nat) : digitsValue (Numeral.zeroPadded width n) = n := by
  rw [digitsValue_eq]
  unfold Numeral.zeroPadded
  dsimp only
  rw [Nat.ofDigitChars_append, Nat.ofDigitChars_replicate_zero, Nat.mul_zero]
  exact Nat.ofDigitChars_ten_toDigits

/-- A padded number consists of digits. -/
theorem isDigit_zeroPadded (width n : Nat) : (Numeral.zeroPadded width n).all Char.isDigit = true := by
  rw [List.all_eq_true]
  intro c hc
  unfold Numeral.zeroPadded at hc
  rcases List.mem_append.1 hc with hc | hc
  · rw [(List.mem_replicate.1 hc).2]
    decide
  · exact Nat.isDigit_of_mem_toDigits (by decide) (by decide) hc

/-- A number below the limit fills the digits of a name exactly. -/
theorem length_zeroPadded {index : Nat} (h : index < segmentLimit) :
    (Numeral.zeroPadded segmentDigits index).length = segmentDigits := by
  have hl : (Nat.toDigits 10 index).length ≤ 8 :=
    (Nat.length_toDigits_le_iff (by decide) (by decide)).2 (by simpa [segmentLimit] using h)
  simp only [Numeral.zeroPadded, segmentDigits, List.length_append, List.length_replicate]
  omega

/-- A number from the limit on has more digits than a name. -/
theorem lt_length_zeroPadded {index : Nat} (h : segmentLimit ≤ index) :
    segmentDigits < (Numeral.zeroPadded segmentDigits index).length := by
  have hl : ¬ (Nat.toDigits 10 index).length ≤ 8 := fun hle => by
    have hlt := (Nat.length_toDigits_le_iff (by decide) (by decide)).1 hle
    simp only [segmentLimit] at h
    omega
  simp only [Numeral.zeroPadded, segmentDigits, List.length_append, List.length_replicate]
  omega

/-- The value of digits with one more. -/
theorem digitsValue_concat (digits : List Char) (c : Char) :
    digitsValue (digits ++ [c]) = digitsValue digits * 10 + (c.toNat - '0'.toNat) := by
  unfold digitsValue
  rw [List.foldl_append]
  rfl

/-- The value of digits is below the power of ten that their number makes. -/
theorem digitsValue_lt {digits : List Char} (h : digits.all Char.isDigit = true) :
    digitsValue digits < 10 ^ digits.length := by
  induction digits using List.reverseRecOn with
  | nil => exact Nat.zero_lt_one
  | append_singleton digits c ih =>
    rw [List.all_append, Bool.and_eq_true] at h
    have hc : c.isDigit = true := by simpa using h.2
    have hle := (Char.isDigit_iff_toNat.1 hc).2
    have hlt := ih h.1
    simp only [Char.reduceToNat] at hle
    rw [digitsValue_concat, List.length_append, List.length_singleton, Nat.pow_succ]
    simp only [Char.reduceToNat]
    omega

/-- As many digits with the same value are the same. -/
theorem eq_of_digitsValue_eq {xs ys : List Char} (hx : xs.all Char.isDigit = true)
    (hy : ys.all Char.isDigit = true) (hlength : xs.length = ys.length)
    (h : digitsValue xs = digitsValue ys) : xs = ys := by
  induction xs using List.reverseRecOn generalizing ys with
  | nil => exact (List.length_eq_zero_iff.1 hlength.symm).symm
  | append_singleton xs c ih =>
    rcases List.eq_nil_or_concat ys with rfl | ⟨ys, d, rfl⟩
    · simp at hlength
    · rw [List.concat_eq_append] at hy hlength h ⊢
      rw [List.all_append, Bool.and_eq_true] at hx hy
      have hc : c.isDigit = true := by simpa using hx.2
      have hd : d.isDigit = true := by simpa using hy.2
      have hcd := Char.isDigit_iff_toNat.1 hc
      have hdd := Char.isDigit_iff_toNat.1 hd
      rw [digitsValue_concat, digitsValue_concat] at h
      rw [List.length_append, List.length_append] at hlength
      simp only [Char.reduceToNat] at h hcd hdd
      have hrest := ih hx.1 hy.1 (Nat.add_right_cancel hlength) (by omega)
      have hlast : c = d := Char.toNat_inj.1 (by omega)
      rw [hrest, hlast]

end Digits

section Names

variable {stem : String}

/-- The characters of a segment's name. -/
theorem toList_segmentName (stem : String) (index : Nat) : (segmentName stem index).toList =
    (stem.toList ++ ['-']) ++ (Numeral.zeroPadded segmentDigits index ++ segmentEnding) := by
  have hdash : "-".toList = ['-'] := by decide
  simp only [segmentName, String.toList_append, String.toList_ofList, hdash]

/-- What follows a beginning that is there. -/
theorem afterStart_append (start rest : List Char) : afterStart start (start ++ rest) = some rest := by
  unfold afterStart
  rw [if_pos (List.isPrefixOf_iff_prefix.2 (List.prefix_append start rest)), List.drop_left]

/-- A name is taken for that of a segment when digits and the ending follow the stem. -/
theorem segmentIndex?_eq_some_iff {name : String} {index : Nat} :
    segmentIndex? stem name = some index ↔ ∃ rest, afterStart (stem.toList ++ ['-']) name.toList = some rest ∧
      (rest.drop segmentDigits = segmentEnding ∧ (rest.take segmentDigits).all Char.isDigit = true) ∧
      digitsValue (rest.take segmentDigits) = index := by
  unfold segmentIndex?
  rw [Option.bind_eq_bind, Option.bind_eq_some_iff]
  constructor
  · rintro ⟨rest, hr, hi⟩
    dsimp only at hi
    split at hi
    · rename_i hc
      cases hi
      exact ⟨rest, hr, hc, rfl⟩
    · cases hi
  · rintro ⟨rest, hr, hc, rfl⟩
    exact ⟨rest, hr, if_pos hc⟩

/-- The name of a segment below the limit tells its number. -/
theorem segmentIndex?_segmentName {index : Nat} (h : index < segmentLimit) :
    segmentIndex? stem (segmentName stem index) = some index := by
  have hl := length_zeroPadded h
  refine segmentIndex?_eq_some_iff.2
    ⟨Numeral.zeroPadded segmentDigits index ++ segmentEnding, ?_, ⟨?_, ?_⟩, ?_⟩
  · rw [toList_segmentName, afterStart_append]
  · rw [List.drop_left' hl]
  · rw [List.take_left' hl]
    exact isDigit_zeroPadded _ _
  · rw [List.take_left' hl]
    exact digitsValue_zeroPadded _ _

/-- A segment below the limit is named as one. -/
theorem isSegment_segmentName {index : Nat} (h : index < segmentLimit) :
    IsSegment stem (.given (segmentName stem index)) := by
  unfold IsSegment
  rw [show segmentIndex? stem (Name.given (segmentName stem index)).text = _ from
    segmentIndex?_segmentName h]
  rfl

/-- Segments below the limit with one name are one. -/
theorem segmentName_injective {i j : Nat} (hi : i < segmentLimit) (hj : j < segmentLimit)
    (h : Name.given (segmentName stem i) = .given (segmentName stem j)) : i = j := by
  have hn := Name.given.inj h
  have hs : segmentIndex? stem (segmentName stem i) = some i := segmentIndex?_segmentName hi
  rw [hn, segmentIndex?_segmentName hj] at hs
  exact (Option.some.inj hs).symm

/-- A name that is taken for that of a segment is the name of the segment with its number. -/
theorem eq_segmentName {name : String} {index : Nat} (h : segmentIndex? stem name = some index) :
    index < segmentLimit ∧ name = segmentName stem index := by
  obtain ⟨rest, hr, ⟨hd, hall⟩, rfl⟩ := segmentIndex?_eq_some_iff.1 h
  have hsplit := List.take_append_drop segmentDigits rest
  rw [hd] at hsplit
  have hlength : (rest.take segmentDigits).length = segmentDigits := by
    have hdrop := congrArg List.length hd
    rw [List.length_drop] at hdrop
    simp only [segmentEnding, segmentDigits, List.length_cons, List.length_nil] at hdrop
    rw [List.length_take_of_le]
    simp only [segmentDigits]
    omega
  have hlt : digitsValue (rest.take segmentDigits) < segmentLimit := by
    have hpow := digitsValue_lt hall
    rw [hlength] at hpow
    exact hpow
  have hdigits : Numeral.zeroPadded segmentDigits (digitsValue (rest.take segmentDigits)) =
      rest.take segmentDigits :=
    eq_of_digitsValue_eq (isDigit_zeroPadded _ _) hall ((length_zeroPadded hlt).trans hlength.symm)
      (digitsValue_zeroPadded _ _)
  refine ⟨hlt, String.toList_injective ?_⟩
  unfold afterStart at hr
  split at hr
  · rename_i hp
    obtain ⟨more, hm⟩ := List.isPrefixOf_iff_prefix.1 hp
    cases hr
    rw [← hm, List.drop_left] at hsplit hdigits
    rw [toList_segmentName, ← hm, List.drop_left, hdigits, hsplit]
  · nomatch hr

/-- The name of a segment from the limit on is not taken for one. -/
theorem segmentIndex?_segmentName_ge {index : Nat} (h : segmentLimit ≤ index) :
    segmentIndex? stem (segmentName stem index) = none := by
  rw [Option.eq_none_iff_forall_ne_some]
  intro other ho
  obtain ⟨rest, hr, ⟨hd, -⟩, -⟩ := segmentIndex?_eq_some_iff.1 ho
  rw [toList_segmentName, afterStart_append, Option.some.injEq] at hr
  have hl := lt_length_zeroPadded h
  have hlen := congrArg List.length hd
  rw [← hr, List.length_drop, List.length_append] at hlen
  omega

/-- The last character of a segment's name. -/
theorem getLast?_segmentName (stem : String) (index : Nat) :
    (segmentName stem index).toList.getLast? = some 'z' := by
  rw [toList_segmentName, ← List.append_assoc]
  exact getLast?_append_of_some (by decide)

/-- A name that is taken for that of a segment ends as one. -/
theorem getLast?_of_isSegment {name : Name} (h : IsSegment stem name) :
    name.text.toList.getLast? = some 'z' := by
  obtain ⟨index, hi⟩ := Option.isSome_iff_exists.1 h
  rw [(eq_segmentName hi).2]
  exact getLast?_segmentName stem index

/-- A name that is taken for that of a segment begins with the stem. -/
theorem prefix_of_isSegment {name : Name} (h : IsSegment stem name) : stem.toList <+: name.text.toList := by
  obtain ⟨index, hi⟩ := Option.isSome_iff_exists.1 h
  rw [(eq_segmentName hi).2, toList_segmentName, List.append_assoc]
  exact List.prefix_append _ _

/-- The name of a file being written is not taken for that of a segment. -/
theorem not_isSegment_drawn (stem start : String) (serial : Nat) :
    ¬ IsSegment stem (.drawn start inProgressEnding serial) := by
  intro h
  have hz := getLast?_of_isSegment h
  have ht : (Name.drawn start inProgressEnding serial).text.toList =
      (start ++ Name.tag serial).toList ++ inProgressEnding.toList := by
    simp only [Name.text, String.toList_append]
  have hp : ((start ++ Name.tag serial).toList ++ inProgressEnding.toList).getLast? = some 'p' :=
    getLast?_append_of_some (by decide)
  rw [ht, hp] at hz
  exact absurd hz (by decide)

/-- A name that is taken for that of a file being written is not taken for that of a segment. -/
theorem not_isSegment_of_isInProgress {name : Name} (h : isInProgress stem name.text = true) :
    ¬ IsSegment stem name := by
  intro hs
  have hz := getLast?_of_isSegment hs
  unfold isInProgress at h
  rw [Bool.and_eq_true] at h
  obtain ⟨before, hb⟩ := List.isSuffixOf_iff_suffix.1 h.2
  have hp : (before ++ inProgressEnding.toList).getLast? = some 'p' :=
    getLast?_append_of_some (by decide)
  rw [← hb, hp] at hz
  exact absurd hz (by decide)

/-- With a slash in the stem no name in a directory is taken for that of a segment. -/
theorem not_isSegment_of_slash (hs : '/' ∈ stem.toList) {name : String} (hn : Path.Slashless name) :
    ¬ IsSegment stem (.given name) := by
  intro h
  exact hn ((prefix_of_isSegment h).subset hs)

/-- Without a slash in the stem there is none in the names of segments. -/
theorem slashless_segmentName (hs : Path.Slashless stem) (index : Nat) :
    Path.Slashless (segmentName stem index) := by
  unfold Path.Slashless at hs ⊢
  rw [toList_segmentName]
  intro hm
  have hdigits := List.all_eq_true.1 (isDigit_zeroPadded segmentDigits index)
  rcases List.mem_append.1 hm with hm | hm
  · rcases List.mem_append.1 hm with hm | hm
    · exact hs hm
    · exact absurd hm (by decide)
  · rcases List.mem_append.1 hm with hm | hm
    · exact absurd (hdigits '/' hm) (by decide)
    · exact absurd hm (by decide)

/-- The path of a segment ends in the name of one, also when the stem has slashes. -/
theorem exists_parts_segmentPath (directory stem : String) (index : Nat) :
    ∃ parts last, Path.parts (segmentPath directory stem index) = parts ++ [segmentName last index] := by
  have hname : ∀ stem, segmentName stem index = stem ++ segmentName "" index := by
    intro stem
    unfold segmentName
    rw [String.empty_append, String.append_assoc]
  obtain ⟨before, hjoin⟩ : ∃ before, segmentPath directory stem index = before ++ segmentName stem index := by
    change ∃ before, Path.join directory (segmentName stem index) = _
    unfold Path.join
    split
    · exact ⟨directory, rfl⟩
    · exact ⟨directory ++ "/", rfl⟩
  have hslashless : Path.Slashless (segmentName "" index) := slashless_segmentName (by unfold Path.Slashless; decide) index
  obtain ⟨parts, last, hparts⟩ := Path.parts_append (before ++ stem) hslashless
  refine ⟨parts, last, ?_⟩
  rw [hjoin, hname stem, ← String.append_assoc, hparts, ← hname last]

/-- The name of a segment is neither empty nor made of dots. -/
theorem segmentName_ne (stem : String) (index : Nat) : segmentName stem index ≠ "" ∧
    segmentName stem index ≠ "." ∧ segmentName stem index ≠ ".." := by
  have hl := getLast?_segmentName stem index
  refine ⟨?_, ?_, ?_⟩
  · intro h
    rw [h] at hl
    exact absurd hl (by decide)
  · intro h
    rw [h] at hl
    exact absurd hl (by decide)
  · intro h
    rw [h] at hl
    exact absurd hl (by decide)

/-- The name of a segment does not stand for a directory. -/
theorem isRelative_segmentName (stem : String) (index : Nat) :
    Path.isRelative (segmentName stem index) = false := by
  obtain ⟨-, h1, h2⟩ := segmentName_ne stem index
  simp [Path.isRelative, h1, h2]

end Names

section Scanning

/-- Splitting numbers at a gap loses none. -/
theorem splitAtGap_append (expected : Nat) (indices : List Nat) :
    (splitAtGap expected indices).replayable ++ (splitAtGap expected indices).stranded = indices := by
  induction indices generalizing expected with
  | nil => rfl
  | cons index rest ih =>
    unfold splitAtGap
    split
    · dsimp only
      rw [List.cons_append, ih]
    · rfl

/-- A scan keeps every number that is read from a name. -/
theorem scanNames_perm (stem : String) (names : List Name) :
    ((scanNames stem names).replayable ++ (scanNames stem names).stranded).Perm
      (names.filterMap (segmentIndex? stem ·.text)) := by
  unfold scanNames
  rw [splitAtGap_append]
  exact List.mergeSort_perm _ _

/-- A directory is scanned as the segments among its names. -/
theorem scanSegments_of_list {fs : FileSystem} {directory : String} {names : List Name}
    (hlist : fs.list directory = .ok names) (stem : String) :
    scanSegments fs directory stem = .ok (scanNames stem names) := by
  unfold scanSegments
  rw [hlist]

/-- Ascending numbers are split into those that follow on from the first and those after a gap. -/
theorem splitAtGap_eq {start : Nat} {indices : List Nat} (hascending : indices.Pairwise (· < ·))
    (hstart : ∀ index ∈ indices, start ≤ index) :
    ∃ count stranded, splitAtGap start indices = ⟨List.range' start count, stranded⟩ ∧
      indices = List.range' start count ++ stranded ∧ ∀ index ∈ stranded, start + count < index := by
  induction indices generalizing start with
  | nil => exact ⟨0, [], rfl, rfl, fun index hi => absurd hi List.not_mem_nil⟩
  | cons first rest ih =>
    obtain ⟨hfirst, hrest⟩ := List.pairwise_cons.1 hascending
    unfold splitAtGap
    by_cases he : first = start
    · subst he
      obtain ⟨count, stranded, hsplit, happend, hbeyond⟩ := ih hrest hfirst
      refine ⟨count + 1, stranded, ?_, ?_, ?_⟩
      · rw [if_pos rfl, hsplit, List.range'_succ]
      · rw [List.range'_succ, List.cons_append, ← happend]
      · intro index hi
        have hlt := hbeyond index hi
        omega
    · have hgap : start < first := by
        have hle := hstart first List.mem_cons_self
        omega
      refine ⟨0, first :: rest, if_neg he, rfl, ?_⟩
      intro index hi
      rcases List.mem_cons.1 hi with rfl | hi
      · exact hgap
      · exact Nat.lt_trans hgap (hfirst index hi)

/-- Different numbers that are sorted ascend. -/
theorem pairwise_lt_mergeSort {indices : List Nat} (hd : indices.Nodup) :
    (indices.mergeSort (· ≤ ·)).Pairwise (· < ·) := by
  have hle := List.pairwise_mergeSort' (· ≤ ·) indices
  have hne : (indices.mergeSort (· ≤ ·)).Nodup := (List.mergeSort_perm indices _).nodup_iff.2 hd
  exact (hle.and hne).imp fun hab => Nat.lt_of_le_of_ne hab.1 hab.2

/-- Numbers are sorted in one way, whatever order they come in. -/
theorem mergeSort_eq_of_perm {indices others : List Nat} (h : indices.Perm others) :
    indices.mergeSort (· ≤ ·) = others.mergeSort (· ≤ ·) := by
  have hperm := (List.mergeSort_perm indices (· ≤ ·)).trans (h.trans (List.mergeSort_perm others (· ≤ ·)).symm)
  exact hperm.eq_of_pairwise' (List.pairwise_mergeSort' (· ≤ ·) indices) (List.pairwise_mergeSort' (· ≤ ·) others)

/-- Different numbers that are exactly those below some number are sorted without a gap. -/
theorem mergeSort_eq_range {indices : List Nat} {count : Nat} (hd : indices.Nodup)
    (hm : ∀ index, index ∈ indices ↔ index < count) :
    indices.mergeSort (· ≤ ·) = List.range count := by
  have hperm : indices.Perm (List.range count) := by
    rw [List.perm_ext_iff_of_nodup hd List.nodup_range]
    intro index
    rw [hm, List.mem_range]
  rw [mergeSort_eq_of_perm hperm]
  exact List.mergeSort_eq_self (· ≤ ·) (List.pairwise_lt_range.imp Nat.le_of_lt)

/-- If no number is found twice, those found are scanned up to the first that is missing, and the others are
stranded in order. -/
theorem scanNames_of_nodup {stem : String} {names : List Name}
    (hd : (names.filterMap (segmentIndex? stem ·.text)).Nodup) :
    ∃ count stranded, scanNames stem names = ⟨List.range count, stranded⟩ ∧ stranded.Pairwise (· < ·) ∧
      (∀ index, index ∈ names.filterMap (segmentIndex? stem ·.text) ↔ index < count ∨ index ∈ stranded) ∧
      ∀ index ∈ stranded, count < index := by
  have hascending := pairwise_lt_mergeSort hd
  obtain ⟨count, stranded, hsplit, happend, hbeyond⟩ :=
    splitAtGap_eq hascending fun index _ => Nat.zero_le index
  refine ⟨count, stranded, ?_, ?_, ?_, ?_⟩
  · unfold scanNames
    rw [hsplit, List.range_eq_range']
  · rw [happend] at hascending
    exact hascending.sublist (List.sublist_append_right _ _)
  · intro index
    have hsorted := @List.mem_mergeSort _ (· ≤ ·) index (names.filterMap (segmentIndex? stem ·.text))
    rw [← hsorted, happend, List.mem_append, List.mem_range'_1, Nat.zero_add]
    exact or_congr_left (and_iff_right (Nat.zero_le index))
  · intro index hi
    have hlt := hbeyond index hi
    omega

/-- Among different names those of segments are scanned up to the first that is missing, and the others are
stranded. -/
theorem scanNames_eq (stem : String) {names : List Name} (hd : names.Nodup)
    (hgiven : ∀ name ∈ names, IsSegment stem name → name = .given name.text) :
    ∃ count stranded, scanNames stem names = ⟨List.range count, stranded⟩ ∧ stranded.Nodup ∧
      (∀ index, index < segmentLimit ∧ .given (segmentName stem index) ∈ names ↔
        index < count ∨ index ∈ stranded) ∧
      ∀ index ∈ stranded, count < index := by
  have hname : ∀ name ∈ names, ∀ index, segmentIndex? stem name.text = some index →
      index < segmentLimit ∧ name = .given (segmentName stem index) := by
    intro name hn index hi
    obtain ⟨hlimit, htext⟩ := eq_segmentName hi
    have hg := hgiven name hn (by unfold IsSegment; rw [hi]; rfl)
    rw [htext] at hg
    exact ⟨hlimit, hg⟩
  have hnodup : (names.filterMap (segmentIndex? stem ·.text)).Nodup := by
    unfold List.Nodup
    rw [List.pairwise_filterMap]
    refine List.Pairwise.imp_of_mem ?_ hd
    intro a b ha hb hne i hi j hj hij
    refine hne ?_
    rw [(hname a ha i hi).2, (hname b hb j hj).2, hij]
  have hmem : ∀ index, index ∈ names.filterMap (segmentIndex? stem ·.text) ↔
      index < segmentLimit ∧ .given (segmentName stem index) ∈ names := by
    intro index
    rw [List.mem_filterMap]
    constructor
    · rintro ⟨name, hn, hi⟩
      obtain ⟨hlimit, rfl⟩ := hname name hn index hi
      exact ⟨hlimit, hn⟩
    · rintro ⟨hlimit, hn⟩
      exact ⟨_, hn, segmentIndex?_segmentName hlimit⟩
  obtain ⟨count, stranded, hscan, hascending, hfound, hbeyond⟩ := scanNames_of_nodup hnodup
  exact ⟨count, stranded, hscan, hascending.imp Nat.ne_of_lt, fun index => (hmem index).symm.trans (hfound index),
    hbeyond⟩

/-- A directory that holds the segments below some number and no others is scanned as these. -/
theorem scanNames_range {stem : String} {names : List Name} {count : Nat} (hd : names.Nodup)
    (hlimit : count ≤ segmentLimit)
    (honly : ∀ name ∈ names, IsSegment stem name → ∃ index < count, name = .given (segmentName stem index))
    (hall : ∀ index < count, .given (segmentName stem index) ∈ names) :
    scanNames stem names = ⟨List.range count, []⟩ := by
  obtain ⟨found, stranded, hscan, -, hmem, hbeyond⟩ := scanNames_eq stem hd fun name hn hs => by
    obtain ⟨index, -, rfl⟩ := honly name hn hs
    rfl
  have hthere : ∀ index, index < count ↔ index < found ∨ index ∈ stranded := by
    intro index
    rw [← hmem]
    constructor
    · intro hi
      exact ⟨Nat.lt_of_lt_of_le hi hlimit, hall index hi⟩
    · rintro ⟨hi, hn⟩
      obtain ⟨other, ho, he⟩ := honly _ hn (isSegment_segmentName hi)
      rwa [segmentName_injective hi (Nat.lt_of_lt_of_le ho hlimit) he]
  have hfound : ¬ found < count := by
    intro hlt
    rcases (hthere found).1 hlt with hf | hf
    · exact Nat.lt_irrefl found hf
    · exact Nat.lt_irrefl found (hbeyond found hf)
  have hnil : stranded = [] := by
    refine List.eq_nil_iff_forall_not_mem.2 fun index hi => ?_
    have hlt := (hthere index).2 (.inr hi)
    have hgt := hbeyond index hi
    omega
  have hcount : found = count := by
    have hle : ∀ index < found, index < count := fun index hi => (hthere index).2 (.inl hi)
    by_contra hne
    have hlt := hle count (by omega)
    omega
  rw [hscan, hnil, hcount]

end Scanning

end Chronicle.Cache
