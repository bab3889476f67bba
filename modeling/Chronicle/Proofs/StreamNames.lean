import Chronicle.Failure

/-!
# Names of streams

The text of a stream is its category, a dash and its id. No category holds a dash, so the first dash of a
text ends the category, whatever dashes the id holds. A text with a dash names exactly one stream, the one
whose text it is; a text without one names none. So whatever tells streams by their texts, as messages and
conflicts do, tells them apart.
-/

namespace Chronicle.StreamId

section Halves

variable {text category id : List Char}

/-- A dash at the front ends an empty category. -/
theorem halves?_dash (rest : List Char) : halves? ('-' :: rest) = some ([], rest) := rfl

/-- Any other character at the front belongs to the category. -/
theorem halves?_cons {c : Char} (hc : c ≠ '-') (rest : List Char) :
    halves? (c :: rest) = (halves? rest).map fun halves => (c :: halves.1, halves.2) := by
  unfold halves?
  simp only [List.dropWhile_cons, List.takeWhile_cons, bne_iff_ne, ne_eq, hc, not_false_eq_true, if_true]
  cases rest.dropWhile (· != '-') with
  | nil => rfl
  | cons d id => rfl

/-- The halves of a text are what stands before its first dash and behind it. -/
theorem halves?_eq_some_iff :
    halves? text = some (category, id) ↔ text = category ++ '-' :: id ∧ '-' ∉ category := by
  induction text generalizing category id with
  | nil => simp [halves?]
  | cons c rest ih =>
    by_cases hc : c = '-'
    · subst hc
      rw [halves?_dash]
      constructor
      · intro h
        cases h
        exact ⟨rfl, List.not_mem_nil⟩
      · rintro ⟨htext, hdash⟩
        -- a category that begins with this dash is none
        cases category with
        | nil => rw [(List.cons.inj htext).2]
        | cons d category =>
          obtain ⟨rfl, -⟩ := List.cons.inj htext
          exact absurd List.mem_cons_self hdash
    · rw [halves?_cons hc, Option.map_eq_some_iff]
      constructor
      · rintro ⟨⟨before, behind⟩, hrest, heq⟩
        cases heq
        obtain ⟨rfl, hbefore⟩ := ih.1 hrest
        refine ⟨rfl, ?_⟩
        rw [List.mem_cons, not_or]
        exact ⟨Ne.symm hc, hbefore⟩
      · rintro ⟨htext, hdash⟩
        cases category with
        | nil => exact absurd (List.cons.inj htext).1 hc
        | cons d category =>
          obtain ⟨rfl, hrest⟩ := List.cons.inj htext
          rw [List.mem_cons, not_or] at hdash
          exact ⟨(category, id), ih.2 ⟨hrest, hdash.2⟩, rfl⟩

/-- A text has halves exactly when it holds a dash. -/
theorem halves?_eq_none_iff : halves? text = none ↔ '-' ∉ text := by
  rw [Option.eq_none_iff_forall_ne_some, Prod.forall]
  constructor
  · intro h hdash
    obtain ⟨category, id, htext, hcategory⟩ := List.eq_append_cons_of_mem hdash
    exact h category id (halves?_eq_some_iff.2 ⟨htext, hcategory⟩)
  · intro hdash category id h
    rw [(halves?_eq_some_iff.1 h).1] at hdash
    exact hdash (List.mem_append_right _ List.mem_cons_self)

end Halves

section Texts

variable {category id text : String} {stream : StreamId}

/-- A category with a dash is refused. -/
theorem ofParts_of_dash (hdash : '-' ∈ category.toList) (id : String) :
    ofParts category id = .error (.invalidStreamId category "event category cannot contain -") := by
  unfold ofParts ofParts?
  rw [dif_pos hdash]

/-- The characters of a stream's text: the first dash is behind the category. -/
theorem toList_text (stream : StreamId) :
    stream.text.toList = stream.category.toList ++ '-' :: stream.id.toList := by
  have hdash : "-".toList = ['-'] := by decide
  simp only [text, String.toList_append, hdash, List.append_assoc, List.cons_append, List.nil_append]

/-- A text names the stream whose text it is. -/
theorem parse_eq_ok_iff : parse text = .ok stream ↔ stream.text = text := by
  constructor
  · intro h
    unfold parse at h
    split at h
    · rename_i category id hhalves
      obtain ⟨hcategory, hid⟩ := ofParts_eq_ok_iff.1 h
      refine String.toList_injective ?_
      rw [toList_text, hcategory, hid, String.toList_ofList, String.toList_ofList]
      exact (halves?_eq_some_iff.1 hhalves).1.symm
    · nomatch h
  · rintro rfl
    have hhalves : halves? stream.text.toList = some (stream.category.toList, stream.id.toList) :=
      halves?_eq_some_iff.2 ⟨toList_text stream, stream.category_undashed⟩
    unfold parse
    rw [hhalves]
    dsimp only
    rw [String.ofList_toList, String.ofList_toList]
    exact ofParts_parts stream

/-- Streams with one text are one. -/
theorem eq_of_text_eq {other : StreamId} (h : stream.text = other.text) : stream = other := by
  have hread : parse stream.text = .ok other := parse_eq_ok_iff.2 h.symm
  rw [parse_eq_ok_iff.2 rfl] at hread
  exact Except.ok.inj hread

/-- A text without a dash names no stream. -/
theorem parse_of_undashed (hdash : '-' ∉ text.toList) :
    parse text = .error (.invalidStreamId text "missing - between category and id") := by
  unfold parse
  rw [halves?_eq_none_iff.2 hdash]

/-- A text with a dash names a stream. -/
theorem exists_parse_of_dash (hdash : '-' ∈ text.toList) : ∃ stream, parse text = .ok stream := by
  obtain ⟨category, id, htext, hcategory⟩ := List.eq_append_cons_of_mem hdash
  have hundashed : '-' ∉ (String.ofList category).toList := by rwa [String.toList_ofList]
  refine ⟨⟨String.ofList category, String.ofList id, hundashed⟩, parse_eq_ok_iff.2 ?_⟩
  refine String.toList_injective ?_
  rw [toList_text, String.toList_ofList, String.toList_ofList, htext]

end Texts

/-- Every category without a dash makes a stream with every id, and the stream is read back from its text, so
that different streams have different texts. A text is read as a stream exactly when it holds a dash; the
stream has that text again, and a text that holds none is refused as a whole. A category with a dash is always
refused. -/
theorem parse_inverts_text :
    (∀ category id : String, '-' ∉ category.toList → ∃ stream, ofParts category id = .ok stream ∧
      stream.category = category ∧ stream.id = id ∧ stream.text = category ++ "-" ++ id ∧
      parse stream.text = .ok stream) ∧
    (∀ stream other : StreamId, stream ≠ other → stream.text ≠ other.text) ∧
    (∀ text : String, ((∃ stream, parse text = .ok stream) ↔ '-' ∈ text.toList) ∧
      (∀ stream, parse text = .ok stream → stream.text = text) ∧
      ('-' ∉ text.toList →
        parse text = .error (.invalidStreamId text "missing - between category and id"))) ∧
    ∀ category id : String, '-' ∈ category.toList →
      ofParts category id = .error (.invalidStreamId category "event category cannot contain -") := by
  refine ⟨?_, ?_, fun text => ⟨⟨?_, exists_parse_of_dash⟩, ?_, parse_of_undashed⟩, ?_⟩
  · intro category id hcategory
    let stream : StreamId := ⟨category, id, hcategory⟩
    exact ⟨stream, ofParts_parts stream, rfl, rfl, rfl, parse_eq_ok_iff.2 rfl⟩
  · exact fun stream other hne htext => hne (eq_of_text_eq htext)
  · rintro ⟨stream, hread⟩
    rw [← parse_eq_ok_iff.1 hread, toList_text]
    exact List.mem_append_right _ List.mem_cons_self
  · exact fun stream hread => parse_eq_ok_iff.1 hread
  · exact fun category id hdash => ofParts_of_dash hdash id

/-- A text with dashes in the id, one that is a dash alone, one without a dash, and a category with one. -/
theorem parse_inverts_text_with_dashes :
    '-' ∉ "orders".toList ∧ '-' ∉ "".toList ∧ '-' ∈ "bad-category".toList ∧
    (∃ stream, parse "orders-2024-01-01" = .ok stream ∧ stream.category = "orders" ∧
      stream.id = "2024-01-01") ∧
    (∃ stream, parse "-" = .ok stream ∧ stream.category = "" ∧ stream.id = "") ∧
    parse "orders" = .error (.invalidStreamId "orders" "missing - between category and id") ∧
    ofParts "bad-category" "1" =
      .error (.invalidStreamId "bad-category" "event category cannot contain -") := by
  obtain ⟨hmade, -, htexts, hrefused⟩ := parse_inverts_text
  have horders : '-' ∉ "orders".toList := by decide
  have hempty : '-' ∉ "".toList := by decide
  have hbad : '-' ∈ "bad-category".toList := by decide
  refine ⟨horders, hempty, hbad, ?_, ?_, (htexts "orders").2.2 horders, hrefused "bad-category" "1" hbad⟩
  · obtain ⟨stream, -, hcategory, hid, htext, hread⟩ := hmade "orders" "2024-01-01" horders
    rw [htext] at hread
    exact ⟨stream, hread, hcategory, hid⟩
  · obtain ⟨stream, -, hcategory, hid, htext, hread⟩ := hmade "" "" hempty
    rw [htext] at hread
    exact ⟨stream, hread, hcategory, hid⟩

end Chronicle.StreamId
