import Chronicle.Files.Path

/-!
# Parts of paths

A path is taken apart at its slashes, and a name without slashes that is put behind a directory is its
last part. The path of the directory that holds such a name is not the text that the name was put
behind, since superfluous slashes and dots at its end are dropped, but it leads along the same names.
-/

namespace Chronicle.Path

/-- A text without slashes, as names in a directory are. -/
def Slashless (text : String) : Prop := '/' ∉ text.toList

/-- A character other than a slash extends the first part. -/
theorem split_cons {c : Char} {rest part : List Char} {more : List (List Char)} (hc : '/' ≠ c)
    (h : split rest = part :: more) : split (c :: rest) = (c :: part) :: more := by
  unfold split
  split
  · rename_i he
    cases he
  · rename_i he
    exact absurd (List.cons.inj he).1.symm hc
  · rename_i he
    obtain ⟨rfl, rfl⟩ := List.cons.inj he
    rw [h]

/-- Every text has a first part. -/
theorem split_eq_cons (text : List Char) : ∃ part more, split text = part :: more := by
  induction text with
  | nil => exact ⟨[], [], rfl⟩
  | cons c rest ih =>
    obtain ⟨part, more, h⟩ := ih
    by_cases hc : '/' = c
    · subst hc
      exact ⟨[], split rest, rfl⟩
    · exact ⟨c :: part, more, split_cons hc h⟩

/-- A text without slashes is one part. -/
theorem split_of_not_mem {text : List Char} (h : '/' ∉ text) : split text = [text] := by
  induction text with
  | nil => rfl
  | cons c rest ih =>
    rw [List.mem_cons, not_or] at h
    exact split_cons h.1 (ih h.2)

/-- A slash separates the parts before it from those after it. -/
theorem split_append_slash (xs ys : List Char) : split (xs ++ '/' :: ys) = split xs ++ split ys := by
  induction xs with
  | nil => rfl
  | cons c xs ih =>
    obtain ⟨part, more, hx⟩ := split_eq_cons xs
    by_cases hc : '/' = c
    · subst hc
      have hl : split ('/' :: (xs ++ '/' :: ys)) = [] :: split (xs ++ '/' :: ys) := rfl
      rw [List.cons_append, hl, ih]
      rfl
    · rw [hx, List.cons_append] at ih
      rw [List.cons_append, split_cons hc ih, split_cons hc hx]
      rfl

/-- A text without slashes that is put behind another belongs to its last part. -/
theorem split_append (xs : List Char) {ys : List Char} (h : '/' ∉ ys) :
    ∃ before last, split (xs ++ ys) = before ++ [last ++ ys] := by
  induction xs with
  | nil => exact ⟨[], [], split_of_not_mem h⟩
  | cons c xs ih =>
    obtain ⟨before, last, hs⟩ := ih
    by_cases hc : '/' = c
    · subst hc
      exact ⟨[] :: before, last, congrArg ([] :: ·) hs⟩
    · cases before with
      | nil => exact ⟨[], c :: last, split_cons hc hs⟩
      | cons part more => exact ⟨(c :: part) :: more, last, split_cons hc hs⟩

/-- No part holds a slash. -/
theorem not_mem_of_mem_split {text part : List Char} (h : part ∈ split text) : '/' ∉ part := by
  induction text generalizing part with
  | nil =>
    have hp : part = [] := List.mem_singleton.1 h
    rw [hp]
    exact List.not_mem_nil
  | cons c rest ih =>
    obtain ⟨first, more, hr⟩ := split_eq_cons rest
    by_cases hc : '/' = c
    · subst hc
      have hs : split ('/' :: rest) = [] :: split rest := rfl
      rw [hs] at h
      rcases List.mem_cons.1 h with rfl | hm
      · exact List.not_mem_nil
      · exact ih hm
    · rw [split_cons hc hr] at h
      rw [hr] at ih
      rcases List.mem_cons.1 h with rfl | hm
      · rw [List.mem_cons, not_or]
        exact ⟨hc, ih List.mem_cons_self⟩
      · exact ih (List.mem_cons_of_mem first hm)

/-- A text without slashes is its only part. -/
theorem parts_of_slashless {text : String} (h : Slashless text) : parts text = [text] := by
  unfold parts
  rw [split_of_not_mem h, List.map_singleton, String.ofList_toList]

/-- A slash separates the parts of two texts. -/
theorem parts_append_slash (a b : String) : parts (a ++ "/" ++ b) = parts a ++ parts b := by
  have hs : (a ++ "/" ++ b).toList = a.toList ++ '/' :: b.toList := by
    rw [String.toList_append, String.toList_append, List.append_assoc]
    rfl
  unfold parts
  rw [hs, split_append_slash, List.map_append]

/-- A text without slashes that is put behind another belongs to its last part. -/
theorem parts_append (a : String) {b : String} (h : Slashless b) :
    ∃ before last, parts (a ++ b) = before ++ [last ++ b] := by
  obtain ⟨before, last, hs⟩ := split_append a.toList h
  refine ⟨before.map String.ofList, String.ofList last, ?_⟩
  unfold parts
  rw [String.toList_append, hs, List.map_append, List.map_singleton, String.ofList_append,
    String.ofList_toList]

/-- No part holds a slash. -/
theorem slashless_of_mem_parts {path part : String} (h : part ∈ parts path) : Slashless part := by
  obtain ⟨chars, hc, rfl⟩ := List.mem_map.1 h
  unfold Slashless
  rw [String.toList_ofList]
  exact not_mem_of_mem_split hc

/-- Parts that are put together with slashes are found again. -/
theorem parts_intercalate {texts : List String} (hne : texts ≠ []) (h : ∀ text ∈ texts, Slashless text) :
    parts ("/".intercalate texts) = texts := by
  induction texts with
  | nil => exact absurd rfl hne
  | cons first rest ih =>
    have hf : Slashless first := h first List.mem_cons_self
    cases rest with
    | nil =>
      rw [String.intercalate_singleton]
      exact parts_of_slashless hf
    | cons second rest =>
      have hr := ih (List.cons_ne_nil second rest) fun text ht => h text (List.mem_cons_of_mem first ht)
      rw [String.intercalate_cons_cons, parts_append_slash, parts_of_slashless hf, hr]
      rfl

/-- The last part of a path that ends in a slash is empty, and the others are those before the slash. -/
theorem parts_of_endsInSlash {path : String} (h : endsInSlash path = true) :
    ∃ before, path = before ++ "/" ∧ parts path = parts before ++ [""] := by
  have hl : path.toList.getLast? = some '/' := by simpa [endsInSlash] using h
  obtain ⟨xs, hx⟩ := List.getLast?_eq_some_iff.1 hl
  have hp : path = String.ofList xs ++ "/" := by
    apply String.toList_injective
    rw [hx, String.toList_append, String.toList_ofList]
    rfl
  refine ⟨String.ofList xs, hp, ?_⟩
  have ha := parts_append_slash (String.ofList xs) ""
  rw [String.append_empty, ← hp] at ha
  exact ha

/-- A path that is not empty and does not end in a slash has a last part that is not empty. -/
theorem exists_parts {path : String} (hne : path ≠ "") (hslash : endsInSlash path = false) :
    ∃ above last, parts path = above ++ [last] ∧ last ≠ "" := by
  rcases List.eq_nil_or_concat path.toList with hnil | ⟨chars, c, hchars⟩
  · exact absurd (String.toList_eq_nil_iff.1 hnil) hne
  · have hc : c ≠ '/' := by
      rintro rfl
      simp [endsInSlash, hchars] at hslash
    have hend : Slashless (String.singleton c) := by
      simpa [Slashless] using hc.symm
    have hpath : path = String.ofList chars ++ String.singleton c := by
      apply String.toList_injective
      simp [hchars]
    obtain ⟨above, last, hparts⟩ := parts_append (String.ofList chars) hend
    refine ⟨above, last ++ String.singleton c, by rw [hpath, hparts], ?_⟩
    intro hempty
    have hlist := congrArg String.toList hempty
    simp at hlist

/-- Parts that are not empty. -/
def filled (parts : List String) : List String := parts.filter (· ≠ "")

section LastPart

variable {path last : String} {above : List String}

/-- A path whose last part is not empty leads to a name in the directory of the parts before. -/
theorem entry_of_parts (h : parts path = above ++ [last]) (hl : last ≠ "") :
    entry path = (filled above, last) := by
  unfold entry filled
  rw [h, List.filter_append, List.filter_cons_of_pos (by simpa using hl), List.filter_nil,
    List.reverse_append, List.reverse_singleton, List.singleton_append]
  dsimp only
  rw [List.reverse_reverse]

/-- It does not end in a slash. -/
theorem endsInSlash_of_parts (h : parts path = above ++ [last]) (hl : last ≠ "") :
    endsInSlash path = false := by
  rw [Bool.eq_false_iff]
  intro he
  obtain ⟨before, -, hp⟩ := parts_of_endsInSlash he
  rw [h] at hp
  exact hl (List.append_inj_right' hp rfl |> List.singleton_inj.1)

/-- It leads along the names of the directory and then to the last. -/
theorem names_of_parts (h : parts path = above ++ [last]) (hl : last ≠ "") :
    names path = filled above ++ [last] := by
  unfold names filled
  rw [endsInSlash_of_parts h hl, h, List.filter_append, List.filter_cons_of_pos (by simpa using hl),
    List.filter_nil]
  exact List.append_nil _

end LastPart

/-- The name that a path leads to holds no slash. -/
theorem slashless_entry (path : String) : Slashless (entry path).2 := by
  unfold entry
  cases hr : ((parts path).filter (· ≠ "")).reverse with
  | nil =>
    change '/' ∉ ".".toList
    decide
  | cons name above =>
    have hm : name ∈ ((parts path).filter (· ≠ "")).reverse := hr ▸ List.mem_cons_self
    exact slashless_of_mem_parts (List.mem_filter.1 (List.mem_reverse.1 hm)).1

/-- The last name of a path is one that the path leads along, unless it stands for a directory. -/
theorem entry_mem_names {path : String} (hrel : isRelative (entry path).2 = false) :
    (entry path).2 ∈ names path := by
  unfold entry at hrel ⊢
  unfold names
  cases hr : ((parts path).filter (· ≠ "")).reverse with
  | nil =>
    rw [hr] at hrel
    exact absurd hrel (by decide)
  | cons name above =>
    have hm : name ∈ ((parts path).filter (· ≠ "")).reverse := hr ▸ List.mem_cons_self
    exact List.mem_append_left _ (List.mem_reverse.1 hm)

section Joined

variable {directory name : String}

/-- A name that is put behind a directory is the last part of the path, and the others are those of the
directory but for empty ones. -/
theorem parts_join (hd : directory ≠ "") (hn : Slashless name) :
    ∃ above, parts (join directory name) = above ++ [name] ∧ filled above = filled (parts directory) := by
  have he : directory.isEmpty = false := by
    rw [Bool.eq_false_iff]
    exact fun hempty => hd (String.isEmpty_iff.1 hempty)
  unfold join
  rw [he, Bool.false_or]
  cases hs : endsInSlash directory with
  | true =>
    obtain ⟨before, hb, hp⟩ := parts_of_endsInSlash hs
    refine ⟨parts before, ?_, ?_⟩
    · rw [if_pos rfl, hb, parts_append_slash, parts_of_slashless hn]
    · unfold filled
      rw [hp, List.filter_append]
      exact (List.append_nil _).symm
  | false =>
    refine ⟨parts directory, ?_, rfl⟩
    rw [if_neg Bool.false_ne_true, parts_append_slash, parts_of_slashless hn]

/-- A name behind a directory is the entry of that name. -/
theorem entry_join (hd : directory ≠ "") (hn : Slashless name) (hne : name ≠ "") :
    entry (join directory name) = (filled (parts directory), name) := by
  obtain ⟨above, hp, hf⟩ := parts_join hd hn
  rw [entry_of_parts hp hne, hf]

end Joined

/-- The first of the lists that remain as parts are taken from the front whose own first part counts.
What was taken are empty parts and dots. -/
theorem significant_tails (reversed : List String) :
    ((tails reversed).filter isSignificant = [] ∧ ∀ part ∈ reversed, part = "" ∨ part = ".") ∨
      ∃ skipped last above more, reversed = skipped ++ last :: above ∧
        (tails reversed).filter isSignificant = (last :: above) :: more ∧ last ≠ "" ∧
        ∀ part ∈ skipped, part = "" ∨ part = "." := by
  induction reversed with
  | nil => exact .inl ⟨rfl, fun part hp => absurd hp List.not_mem_nil⟩
  | cons part rest ih =>
    unfold tails
    cases hs : isSignificant (part :: rest) with
    | true =>
      rw [List.filter_cons_of_pos hs]
      have hne : part ≠ "" := by
        rintro rfl
        cases hs
      exact .inr ⟨[], part, rest, _, rfl, rfl, hne, fun part hp => absurd hp List.not_mem_nil⟩
    | false =>
      have hp : part = "" ∨ part = "." := by
        by_cases he : part = ""
        · exact .inl he
        · right
          by_cases hd : part = "."
          · exact hd
          · simp [isSignificant, he, hd] at hs
      rw [List.filter_cons_of_neg (by rw [hs]; exact Bool.false_ne_true)]
      rcases ih with ⟨hnil, hall⟩ | ⟨skipped, last, above, more, rfl, hf, hl, hall⟩
      · refine .inl ⟨hnil, ?_⟩
        intro other ho
        rcases List.mem_cons.1 ho with rfl | ho
        · exact hp
        · exact hall other ho
      · refine .inr ⟨part :: skipped, last, above, more, rfl, hf, hl, ?_⟩
        intro other ho
        rcases List.mem_cons.1 ho with rfl | ho
        · exact hp
        · exact hall other ho

/-- The parts of some list that are not empty are dots, if all of its parts are empty or dots. -/
theorem eq_dot_of_mem_filled {texts : List String} (h : ∀ part ∈ texts, part = "" ∨ part = ".")
    {part : String} (hp : part ∈ filled texts) : part = "." := by
  obtain ⟨hm, hne⟩ := List.mem_filter.1 hp
  rcases h part hm with rfl | hd
  · simp at hne
  · exact hd

/-- The directory of a name that is put behind a path leads along the names of the path, but for dots at
the end. -/
theorem parent_join {directory name : String} (hd : directory ≠ "") (hn : Slashless name)
    (hne : name ≠ "") (hdot : name ≠ ".") :
    (parent (join directory name) = "." ∧ ∀ part ∈ filled (parts directory), part = ".") ∨
      ∃ above last dots, parts (parent (join directory name)) = above ++ [last] ∧ last ≠ "" ∧
        filled (parts directory) = filled above ++ [last] ++ dots ∧ ∀ part ∈ dots, part = "." := by
  obtain ⟨before, hp, hf⟩ := parts_join hd hn
  have hsignificant : isSignificant (name :: before.reverse) = true := by
    simp [isSignificant, hne, hdot]
  have habove : above (join directory name) =
      ((tails before.reverse).filter isSignificant).map fun reversed =>
        "/".intercalate reversed.reverse := by
    unfold above
    rw [hp, List.reverse_append, List.reverse_singleton, List.singleton_append, tails,
      List.filter_cons_of_pos hsignificant, List.drop_one, List.tail_cons]
  rw [← hf]
  unfold parent
  rw [habove]
  rcases significant_tails before.reverse with ⟨hnil, hall⟩ | ⟨skipped, last, outer, more, hr, ht, hl, hall⟩
  · refine .inl ⟨?_, ?_⟩
    · rw [hnil]
      rfl
    · have hbefore : ∀ part ∈ before, part = "" ∨ part = "." := fun part hm =>
        hall part (List.mem_reverse.2 hm)
      exact fun part hm => eq_dot_of_mem_filled hbefore hm
  · have hb : before = outer.reverse ++ [last] ++ skipped.reverse := by
      have hrr := congrArg List.reverse hr
      rw [List.reverse_reverse, List.reverse_append, List.reverse_cons] at hrr
      exact hrr
    refine .inr ⟨outer.reverse, last, filled skipped.reverse, ?_, hl, ?_, ?_⟩
    · rw [ht, List.map_cons, List.headD_cons, List.reverse_cons, parts_intercalate (by simp)]
      intro text htext
      have hin : text ∈ parts (join directory name) := by
        rw [hp, hb]
        exact List.mem_append_left _ (List.mem_append_left _ htext)
      exact slashless_of_mem_parts hin
    · unfold filled
      rw [hb, List.filter_append, List.filter_append, List.filter_cons_of_pos (by simpa using hl),
        List.filter_nil]
    · have hskipped : ∀ part ∈ skipped.reverse, part = "" ∨ part = "." := fun part hm =>
        hall part (List.mem_reverse.1 hm)
      exact fun part hm => eq_dot_of_mem_filled hskipped hm

/-- The path of the directory that holds a name behind a path is not empty. -/
theorem parent_join_ne_empty {directory name : String} (hd : directory ≠ "") (hn : Slashless name)
    (hne : name ≠ "") (hdot : name ≠ ".") : parent (join directory name) ≠ "" := by
  rcases parent_join hd hn hne hdot with ⟨hp, -⟩ | ⟨above, last, dots, hp, hl, -⟩
  · rw [hp]
    decide
  · intro hempty
    rw [hempty] at hp
    have hparts : above ++ [last] = [] ++ [""] := hp.symm
    exact hl (List.singleton_inj.1 (List.append_inj_right' hparts rfl))

/-- A path is not refused if it is not refused with a name behind it. -/
theorem check_of_join {directory name : String} (hd : directory ≠ "")
    (h : check (join directory name) = .ok ()) : check directory = .ok () := by
  have he : directory.isEmpty = false := by
    rw [Bool.eq_false_iff]
    exact fun hempty => hd (String.isEmpty_iff.1 hempty)
  obtain ⟨rest, hr⟩ : ∃ rest, join directory name = directory ++ rest := by
    unfold join
    split
    · exact ⟨name, rfl⟩
    · exact ⟨"/" ++ name, String.append_assoc⟩
  rw [hr] at h
  unfold check at h ⊢
  rw [String.toList_append, String.utf8ByteSize_append] at h
  split at h
  · nomatch h
  · rename_i hzero
    have hz : ¬ (directory.toList.contains '\x00') = true := by
      intro hc
      simp only [List.contains_eq_mem, decide_eq_true_eq, List.mem_append] at hzero hc
      exact hzero (.inl hc)
    rw [if_neg hz, he, if_neg Bool.false_ne_true]
    split at h
    · nomatch h
    · split at h
      · nomatch h
      · exact if_neg (by omega)

end Chronicle.Path
