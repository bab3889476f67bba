import Chronicle.Proofs.Cache.Writing

/-!
# Stems of caches that share a directory

The files of a cache are told by their names alone. A segment bears the stem, a dash and digits; a file that
is being written bears a dot, the stem, a dash and a tag of letters and digits. In both kinds nothing behind
that dash is one, so the last dash of a name tells the stem, and no name belongs to two caches. But whether
a name is that of a file being written is decided by its beginning, and one stem with a dash may begin another.
-/

namespace Chronicle.Cache

section Frames

variable {start ending : List Char} {kind : Char → Bool} {text : List Char}

/-- Whether a text is made of a beginning, characters of a kind, and an ending. -/
def isFramed (start ending : List Char) (kind : Char → Bool) (text : List Char) : Bool :=
  match afterStart start text with
  | none => false
  | some rest => ending.isSuffixOf rest && (rest.take (rest.length - ending.length)).all kind

/-- What is between the beginning and the ending is of the kind. -/
theorem isFramed_iff : isFramed start ending kind text = true ↔
    ∃ middle, text = start ++ (middle ++ ending) ∧ middle.all kind = true := by
  constructor
  · intro h
    unfold isFramed afterStart at h
    split at h
    · nomatch h
    · rename_i rest hrest
      split at hrest
      · rename_i hstart
        cases hrest
        obtain ⟨rest, rfl⟩ := List.isPrefixOf_iff_prefix.1 hstart
        rw [List.drop_left, Bool.and_eq_true, List.isSuffixOf_iff_suffix] at h
        obtain ⟨⟨middle, rfl⟩, hall⟩ := h
        rw [List.length_append, Nat.add_sub_cancel, List.take_left] at hall
        exact ⟨middle, rfl, hall⟩
      · nomatch hrest
  · rintro ⟨middle, rfl, hall⟩
    have hsuffix : ending.isSuffixOf (middle ++ ending) = true :=
      List.isSuffixOf_iff_suffix.2 (List.suffix_append _ _)
    unfold isFramed
    rw [afterStart_append]
    dsimp only
    rw [hsuffix, List.length_append, Nat.add_sub_cancel, List.take_left, hall]
    rfl

/-- What is before the last dash of a text, and what is behind it. -/
theorem eq_of_last_dash {xs ys us vs : List Char} (hu : '-' ∉ us) (hv : '-' ∉ vs)
    (h : xs ++ '-' :: us = ys ++ '-' :: vs) : xs = ys ∧ us = vs := by
  rcases List.append_eq_append_iff.1 h with ⟨more, rfl, hmore⟩ | ⟨more, rfl, hmore⟩
  · cases more with
    | nil => exact ⟨(List.append_nil _).symm, (List.cons.inj hmore).2⟩
    | cons c more =>
      obtain ⟨-, rfl⟩ := List.cons.inj hmore
      exact absurd (List.mem_append_right _ List.mem_cons_self) hu
  · cases more with
    | nil => exact ⟨List.append_nil _, (List.cons.inj hmore).2.symm⟩
    | cons c more =>
      obtain ⟨-, rfl⟩ := List.cons.inj hmore
      exact absurd (List.mem_append_right _ List.mem_cons_self) hv

end Frames

section Owning

variable {stem other : String} {text : String}

/-- Whether a name is that of a finished segment of a cache, with however many digits. -/
def ownsSegment (stem text : String) : Bool :=
  isFramed (stem.toList ++ ['-']) segmentEnding Char.isDigit text.toList

/-- Whether a name is that of a file that is being written for a cache, with whatever tag. -/
def ownsTemporary (stem text : String) : Bool :=
  isFramed (inProgressStart stem).toList inProgressEnding.toList Char.isAlphanum text.toList

/-- Whether a name is that of a file of a cache. -/
def owns (stem text : String) : Bool := ownsSegment stem text || ownsTemporary stem text

/-- The segments of a cache are its own. -/
theorem ownsSegment_segmentName (stem : String) (index : Nat) :
    ownsSegment stem (segmentName stem index) = true := by
  unfold ownsSegment
  rw [toList_segmentName, isFramed_iff]
  exact ⟨_, rfl, isDigit_zeroPadded _ _⟩

/-- A dash is no digit, and no letter. -/
theorem dash_not_mem {kind : Char → Bool} (hkind : kind '-' = false) {middle ending : List Char}
    (hall : middle.all kind = true) (hending : '-' ∉ ending) : '-' ∉ middle ++ ending := by
  intro h
  rcases List.mem_append.1 h with h | h
  · have hdash := List.all_eq_true.1 hall '-' h
    rw [hkind] at hdash
    nomatch hdash
  · exact hending h

/-- The characters of a segment's name: the last dash is behind the stem. -/
theorem toList_of_ownsSegment (h : ownsSegment stem text = true) :
    ∃ rest, text.toList = stem.toList ++ '-' :: rest ∧ '-' ∉ rest ∧ text.toList.getLast? = some 'z' := by
  obtain ⟨middle, htext, hall⟩ := isFramed_iff.1 h
  refine ⟨middle ++ segmentEnding, ?_, dash_not_mem (by decide) hall (by decide), ?_⟩
  · rw [htext, List.append_assoc]
    rfl
  · rw [htext, ← List.append_assoc]
    exact getLast?_append_of_some (by decide)

/-- The characters of the beginning that files being written have. -/
theorem toList_inProgressStart (stem : String) :
    (inProgressStart stem).toList = '.' :: (stem.toList ++ ['-']) := by
  have hdash : "-".toList = ['-'] := by decide
  have hdot : ".".toList = ['.'] := by decide
  simp only [inProgressStart, String.toList_append, hdash, hdot]
  rfl

/-- The characters of the name of a file being written: the last dash is behind the stem. -/
theorem toList_of_ownsTemporary (h : ownsTemporary stem text = true) :
    ∃ rest, text.toList = '.' :: (stem.toList ++ '-' :: rest) ∧ '-' ∉ rest ∧
      inProgressEnding.toList <:+ rest ∧ text.toList.getLast? = some 'p' := by
  obtain ⟨middle, htext, hall⟩ := isFramed_iff.1 h
  refine ⟨middle ++ inProgressEnding.toList, ?_, dash_not_mem (by decide) hall (by decide),
    List.suffix_append _ _, ?_⟩
  · rw [htext, toList_inProgressStart, List.cons_append, List.append_assoc]
    rfl
  · rw [htext, ← List.append_assoc]
    exact getLast?_append_of_some (by decide)

/-- The files that are being written for a cache are its own. -/
theorem ownsTemporary_temporaryName (stem : String) (serial : Nat) :
    ownsTemporary stem (temporaryName stem serial) = true := by
  unfold ownsTemporary temporaryName Name.tag
  rw [String.toList_append, String.toList_append, String.toList_ofList, isFramed_iff]
  refine ⟨_, List.append_assoc _ _ _, ?_⟩
  have hdigits := List.all_eq_true.1 (isDigit_zeroPadded Name.tagLength serial)
  rw [List.all_eq_true]
  intro c hc
  unfold Char.isAlphanum
  rw [hdigits c hc, Bool.or_true]

/-- Segments of two caches have different names. -/
theorem stem_eq_of_ownsSegment (h : ownsSegment stem text = true) (ho : ownsSegment other text = true) :
    stem = other := by
  obtain ⟨rest, htext, hrest, -⟩ := toList_of_ownsSegment h
  obtain ⟨more, hother, hmore, -⟩ := toList_of_ownsSegment ho
  exact String.toList_injective (eq_of_last_dash hrest hmore (htext.symm.trans hother)).1

/-- Files that are being written for two caches have different names. -/
theorem stem_eq_of_ownsTemporary (h : ownsTemporary stem text = true)
    (ho : ownsTemporary other text = true) : stem = other := by
  obtain ⟨rest, htext, hrest, -⟩ := toList_of_ownsTemporary h
  obtain ⟨more, hother, hmore, -⟩ := toList_of_ownsTemporary ho
  have hinner := (List.cons.inj (htext.symm.trans hother)).2
  exact String.toList_injective (eq_of_last_dash hrest hmore hinner).1

/-- No segment is named like a file being written. -/
theorem ownsTemporary_of_ownsSegment (h : ownsSegment stem text = true) :
    ownsTemporary other text = false := by
  rw [Bool.eq_false_iff]
  intro ho
  obtain ⟨-, -, -, hsegment⟩ := toList_of_ownsSegment h
  obtain ⟨-, -, -, -, htemporary⟩ := toList_of_ownsTemporary ho
  rw [hsegment] at htemporary
  exact absurd htemporary (by decide)

/-- No file belongs to two caches. -/
theorem stem_eq_of_owns (h : owns stem text = true) (ho : owns other text = true) : stem = other := by
  unfold owns at h ho
  rw [Bool.or_eq_true] at h ho
  rcases h with h | h <;> rcases ho with ho | ho
  · exact stem_eq_of_ownsSegment h ho
  · rw [ownsTemporary_of_ownsSegment h] at ho
    nomatch ho
  · rw [ownsTemporary_of_ownsSegment ho] at h
    nomatch h
  · exact stem_eq_of_ownsTemporary h ho

/-- What belongs to a cache does not belong to another. -/
theorem owns_eq_false (hne : stem ≠ other) (h : owns stem text = true) : owns other text = false := by
  rw [Bool.eq_false_iff]
  exact fun ho => hne (stem_eq_of_owns h ho)

/-- A segment is a file of its cache. -/
theorem owns_segmentName (stem : String) (index : Nat) : owns stem (segmentName stem index) = true := by
  unfold owns
  rw [ownsSegment_segmentName]
  rfl

/-- A file that is being written for a cache is one of its files. -/
theorem owns_temporaryName (stem : String) (serial : Nat) :
    owns stem (temporaryName stem serial) = true := by
  unfold owns
  rw [ownsTemporary_temporaryName, Bool.or_true]

/-- A file of another cache is not taken for a segment. -/
theorem segmentIndex?_of_owns (hne : stem ≠ other) (h : owns other text = true) :
    segmentIndex? stem text = none := by
  rw [Option.eq_none_iff_forall_ne_some]
  intro index hindex
  obtain ⟨-, rfl⟩ := eq_segmentName hindex
  rw [owns_eq_false hne (owns_segmentName stem index)] at h
  nomatch h

/-- A segment is not taken for a file being written. -/
theorem isInProgress_of_ownsSegment (h : ownsSegment other text = true) :
    isInProgress stem text = false := by
  rw [Bool.eq_false_iff]
  intro hp
  unfold isInProgress at hp
  rw [Bool.and_eq_true] at hp
  obtain ⟨before, hb⟩ := List.isSuffixOf_iff_suffix.1 hp.2
  obtain ⟨-, -, -, hz⟩ := toList_of_ownsSegment h
  have hlast : (before ++ inProgressEnding.toList).getLast? = some 'p' :=
    getLast?_append_of_some (by decide)
  rw [← hb, hlast] at hz
  exact absurd hz (by decide)

/-- Whether a stem with a dash begins another stem. -/
def covers (stem other : String) : Bool := (stem.toList ++ ['-']).isPrefixOf other.toList

/-- A file that is being written for another cache is taken for one of this cache exactly when the stem with a
dash begins the other stem. -/
theorem isInProgress_eq_covers (hne : stem ≠ other) (h : ownsTemporary other text = true) :
    isInProgress stem text = covers stem other := by
  obtain ⟨rest, htext, hrest, hending, -⟩ := toList_of_ownsTemporary h
  have hsuffix : inProgressEnding.toList.isSuffixOf text.toList = true := by
    rw [List.isSuffixOf_iff_suffix, htext]
    obtain ⟨before, rfl⟩ := hending
    exact ⟨'.' :: (other.toList ++ '-' :: before), by simp⟩
  unfold isInProgress covers
  rw [hsuffix, Bool.and_true, Bool.eq_iff_iff, List.isPrefixOf_iff_prefix, List.isPrefixOf_iff_prefix,
    toList_inProgressStart, htext, List.cons_prefix_cons, and_iff_right rfl]
  constructor
  · rintro ⟨more, hmore⟩
    rw [List.append_assoc, List.append_eq_append_iff] at hmore
    rcases hmore with ⟨longer, hother, htail⟩ | ⟨longer, hstem, htail⟩
    · cases longer with
      | nil => exact absurd (String.toList_injective (hother.trans (List.append_nil _)).symm) hne
      | cons c longer =>
        obtain ⟨rfl, -⟩ := List.cons.inj htail
        exact ⟨longer, by rw [hother, List.append_assoc]; rfl⟩
    · cases longer with
      | nil => exact absurd (String.toList_injective (hstem.trans (List.append_nil _))) hne
      | cons c longer =>
        -- the dash behind the longer stem would be behind the last dash of the name
        obtain ⟨-, htail⟩ := List.cons.inj htail
        refine absurd ?_ hrest
        rw [htail]
        exact List.mem_append_right _ List.mem_cons_self
  · intro hp
    exact hp.trans (List.prefix_append _ _)

/-- Whether a name is that of a file of another cache, and not taken for that of a file being written for this
one. -/
def ownsApart (stem other text : String) : Bool :=
  ownsSegment other text || (ownsTemporary other text && !covers stem other)

/-- What is owned apart is owned. -/
theorem owns_of_ownsApart (h : ownsApart stem other text = true) : owns other text = true := by
  unfold ownsApart at h
  unfold owns
  rw [Bool.or_eq_true] at h ⊢
  exact h.imp id fun ht => (Bool.and_eq_true _ _ ▸ ht).1

/-- What is owned apart is not taken for a file being written. -/
theorem isInProgress_of_ownsApart (hne : stem ≠ other) (h : ownsApart stem other text = true) :
    isInProgress stem text = false := by
  unfold ownsApart at h
  rw [Bool.or_eq_true, Bool.and_eq_true, Bool.not_eq_true'] at h
  rcases h with hsegment | ⟨htemporary, hcovers⟩
  · exact isInProgress_of_ownsSegment hsegment
  · rw [isInProgress_eq_covers hne htemporary, hcovers]

end Owning

end Chronicle.Cache
