import Chronicle.Position.Scheme
import Chronicle.Proofs.Lists
import Chronicle.Proofs.Position.Texts

/-!
# The grammar of position texts

The texts of a scheme are those of its leaves, joined by separators. A text is taken apart at its
separators from the left, and because no leaf's text ends like the beginning of one, the pieces found are
exactly the leaves. So a scheme with one stitch reads its own texts back, and a scheme with more refuses
all of them. Which texts a stitched log accepts at all is said by a grammar: two numerals around one
separator.
-/

namespace Chronicle

namespace Numeral

/-- A text is a numeral for a number: one or more digits with its value, perhaps after a plus sign, and the
value is below the limit. -/
def Denotes (limit : Nat) (text : List Char) (n : Nat) : Prop :=
  ∃ digits, digits ≠ [] ∧ (∀ c ∈ digits, c.isDigit = true) ∧ (text = digits ∨ text = '+' :: digits) ∧
    Nat.ofDigitChars 10 digits 0 = n ∧ n < limit

/-- What is read from a text of digits is their value, and it is below the limit. -/
theorem of_readDigits {limit value n : Nat} {text : List Char} (hv : value < limit)
    (h : readDigits limit value text = .ok n) :
    (∀ c ∈ text, c.isDigit = true) ∧ Nat.ofDigitChars 10 text value = n ∧ n < limit := by
  induction text generalizing value with
  | nil =>
    cases h
    exact ⟨fun c hc => absurd hc List.not_mem_nil, rfl, hv⟩
  | cons c rest ih =>
    unfold readDigits digit? at h
    by_cases hc : c.isDigit = true
    · rw [if_pos hc] at h
      dsimp only at h
      split at h
      · rename_i hlt
        obtain ⟨hrest, hvalue, hn⟩ := ih hlt h
        rw [Nat.mul_comm] at hvalue
        refine ⟨?_, hvalue, hn⟩
        intro d hd
        rcases List.mem_cons.1 hd with rfl | hd
        · exact hc
        · exact hrest d hd
      · cases h
    · rw [if_neg hc] at h
      cases h

/-- A text is read as a number exactly when it is a numeral for it. -/
theorem parse_eq_ok_iff {limit n : Nat} (hlimit : 0 < limit) {text : List Char} :
    parse limit text = .ok n ↔ Denotes limit text n := by
  constructor
  · intro h
    unfold parse at h
    split at h
    · nomatch h
    · nomatch h
    · rename_i digits hne
      obtain ⟨hdigits, hvalue, hn⟩ := of_readDigits hlimit h
      refine ⟨digits, ?_, hdigits, .inr rfl, hvalue, hn⟩
      rintro rfl
      exact hne rfl
    · rename_i hempty _ _
      obtain ⟨hdigits, hvalue, hn⟩ := of_readDigits hlimit h
      exact ⟨text, hempty, hdigits, .inl rfl, hvalue, hn⟩
  · rintro ⟨digits, hne, hdigits, htext, rfl, hn⟩
    have hread := readDigits_ofDigitChars hdigits hn
    obtain ⟨c, rest, rfl⟩ := List.exists_cons_of_ne_nil hne
    rcases htext with rfl | rfl
    · rw [parse_eq_readDigits (hdigits c List.mem_cons_self), hread]
    · exact hread

/-- A numeral holds no part of a separator. -/
theorem Denotes.unstitched {limit n : Nat} {text : List Char} (h : Denotes limit text n) :
    '~' ∉ text := by
  obtain ⟨digits, -, hdigits, htext, -⟩ := h
  have hnot : '~' ∉ digits := fun hm => absurd (hdigits '~' hm) (by decide)
  rcases htext with rfl | rfl
  · exact hnot
  · rw [List.mem_cons, not_or]
    exact ⟨by decide, hnot⟩

end Numeral

namespace Stitch

/-- A text that does not begin with a separator extends the first piece of what follows. -/
theorem pieces_cons_of_unseparated {c : Char} {rest piece : List Char} {more : List (List Char)}
    (hc : ¬ separator <+: c :: rest) (h : pieces rest = piece :: more) :
    pieces (c :: rest) = (c :: piece) :: more := by
  unfold pieces
  split
  · rename_i he
    nomatch he
  · rename_i later he
    rw [he] at hc
    exact absurd (List.prefix_append separator later) hc
  · rename_i he
    obtain ⟨rfl, rfl⟩ := List.cons.inj he
    rw [h]

/-- Every text has a first piece. -/
theorem pieces_eq_cons (text : List Char) : ∃ piece more, pieces text = piece :: more := by
  fun_cases pieces text with
  | case1 => exact ⟨[], [], rfl⟩
  | case2 rest => exact ⟨[], pieces rest, rfl⟩
  | case3 c rest hnot hnil => exact ⟨[c], [], rfl⟩
  | case4 c rest hnot piece more hcons => exact ⟨c :: piece, more, rfl⟩

/-- The pieces of a text, joined by separators, are the text. -/
theorem intercalate_pieces (text : List Char) : separator.intercalate (pieces text) = text := by
  fun_induction pieces text with
  | case1 => rfl
  | case2 rest ih =>
    obtain ⟨piece, more, hp⟩ := pieces_eq_cons rest
    rw [hp] at ih ⊢
    rw [List.intercalate_cons_cons, ih]
    rfl
  | case3 c rest hnot hnil =>
    obtain ⟨piece, more, hp⟩ := pieces_eq_cons rest
    rw [hnil] at hp
    nomatch hp
  | case4 c rest hnot piece more hcons ih =>
    rw [hcons] at ih
    cases more with
    | nil =>
      rw [List.intercalate_singleton] at ih ⊢
      rw [ih]
    | cons second more =>
      rw [List.intercalate_cons_cons] at ih ⊢
      rw [← ih]
      rfl

/-- No separator begins before the end of a text and ends behind it, unless the text ends like the beginning
of one. -/
theorem not_separator_ahead {c : Char} {text : List Char} (hlast : (c :: text).getLast? ≠ some '~')
    (h : ¬ separator <+: c :: text) (rest : List Char) : ¬ separator <+: c :: (text ++ rest) := by
  intro hp
  obtain ⟨rfl, hsecond⟩ := List.cons_prefix_cons.1 hp
  cases text with
  | nil => exact hlast rfl
  | cons d text =>
    obtain ⟨rfl, hthird⟩ := List.cons_prefix_cons.1 hsecond
    cases text with
    | nil => exact hlast rfl
    | cons e text =>
      obtain ⟨rfl, -⟩ := List.cons_prefix_cons.1 hthird
      exact h (List.prefix_append separator text)

/-- What a text does not end with, its end does not. -/
theorem getLast?_ne_of_cons {c last : Char} {text : List Char} (h : (c :: text).getLast? ≠ some last) :
    text.getLast? ≠ some last := by
  cases text with
  | nil => nofun
  | cons d text => exact h

/-- The pieces of a joined text are those of both texts, unless the first ends like the beginning of a
separator. -/
theorem pieces_joined {text : List Char} (hlast : text.getLast? ≠ some '~') (rest : List Char) :
    pieces (text ++ separator ++ rest) = pieces text ++ pieces rest := by
  induction text using pieces.induct with
  | case1 => rfl
  | case2 text ih =>
    have htext := getLast?_ne_of_cons (getLast?_ne_of_cons (getLast?_ne_of_cons hlast))
    change [] :: pieces (text ++ separator ++ rest) = [] :: (pieces text ++ pieces rest)
    rw [ih htext]
  | case3 c text hnot hnil =>
    obtain ⟨piece, more, hp⟩ := pieces_eq_cons text
    rw [hnil] at hp
    nomatch hp
  | case4 c text hnot piece more hcons ih =>
    have hseparated : ¬ separator <+: c :: text := by
      rintro ⟨later, hl⟩
      obtain ⟨rfl, htext⟩ := List.cons.inj hl
      exact hnot later rfl htext.symm
    have hjoined := ih (getLast?_ne_of_cons hlast)
    rw [hcons] at hjoined
    have hfurther := not_separator_ahead hlast hseparated (separator ++ rest)
    rw [← List.append_assoc] at hfurther
    rw [pieces_cons_of_unseparated hseparated hcons]
    exact pieces_cons_of_unseparated hfurther hjoined

/-- A text is split when it has two pieces. -/
theorem split_eq_ok_some_iff {text b l : String} :
    split text = .ok (some (b, l)) ↔ pieces text.toList = [b.toList, l.toList] := by
  have hinj {cs : List Char} {t : String} : String.ofList cs = t ↔ cs = t.toList := by
    rw [← String.toList_inj, String.toList_ofList]
  unfold split
  split
  · rename_i hp
    simp only [hp, Except.ok.injEq, Option.some.injEq, Prod.mk.injEq, List.cons.injEq, and_true, hinj]
  · rename_i hne hp
    rw [hp]
    refine ⟨nofun, fun h => ?_⟩
    cases h
    exact (hne rfl).elim
  · rename_i htwo _
    exact ⟨nofun, fun h => (htwo _ _ h).elim⟩

/-- A text with more than two pieces is refused. -/
theorem split_of_lt_length {text : String} (h : 2 < (pieces text.toList).length) :
    split text = .error (.invalidPosition
      ("Cannot handle nested stitch separators for position " ++ text)) := by
  unfold split
  split
  · rename_i hp
    rw [hp] at h
    exact absurd h (Nat.lt_irrefl 2)
  · rfl
  · rename_i hmany
    obtain ⟨first, more, hp⟩ := pieces_eq_cons text.toList
    cases more with
    | nil =>
      rw [hp] at h
      exact absurd h (Nat.not_lt_of_le (Nat.le_succ 1))
    | cons second more => exact absurd hp (hmany _ _ _)

/-- A text is split, is left whole, or is refused. -/
theorem split_cases (text : String) : (∃ halves, split text = .ok halves) ∨
    ∃ reason, split text = .error (.invalidPosition reason) := by
  unfold split
  split
  · exact .inl ⟨_, rfl⟩
  · exact .inr ⟨_, rfl⟩
  · exact .inl ⟨_, rfl⟩

end Stitch

namespace PositionCodec

/-- A codec that reads a text or refuses it as none of a position. -/
def Decides {P : Type} (codec : PositionCodec P) : Prop :=
  ∀ text, (∃ p, codec.deserialize text = .ok p) ∨
    ∃ reason, codec.deserialize text = .error (.invalidPosition reason)

/-- A log reads numerals. -/
theorem log_deserialize_eq_ok_iff {text : String} {n : Nat} :
    log.deserialize text = .ok n ↔ Numeral.Denotes Numeral.wordLimit text.toList n := by
  rw [← Numeral.parse_eq_ok_iff (by decide)]
  unfold log
  dsimp only
  cases Numeral.parse Numeral.wordLimit text.toList with
  | ok m => exact ⟨congrArg _ ∘ Except.ok.inj, congrArg _ ∘ Except.ok.inj⟩
  | error fault => exact ⟨nofun, nofun⟩

/-- A log refuses all other texts. -/
theorem decides_log : log.Decides := by
  intro text
  unfold log
  dsimp only
  cases Numeral.parse Numeral.wordLimit text.toList with
  | ok m => exact .inl ⟨m, rfl⟩
  | error fault => exact .inr ⟨_, rfl⟩

/-- A source without events reads every text. -/
theorem decides_empty : empty.Decides := fun _ => .inl ⟨(), rfl⟩

section Stitched

variable {B L : Type} {backfill : PositionCodec B} {live : PositionCodec L}

/-- Both halves of a text are read, or the first that is not read is refused. -/
theorem stitchedOfHalves_eq_ok_iff {b l : String} {p : StitchedPosition B L} :
    stitchedOfHalves backfill live b l = .ok p ↔
      backfill.deserialize b = .ok p.backfill ∧ live.deserialize l = .ok p.live := by
  unfold stitchedOfHalves
  cases backfill.deserialize b with
  | error e => exact ⟨nofun, nofun⟩
  | ok x =>
    cases live.deserialize l with
    | error e => exact ⟨nofun, nofun⟩
    | ok y =>
      cases p
      simp only [bind, Except.bind, pure, Except.pure, Except.ok.injEq, StitchedPosition.mk.injEq]

/-- A stitched codec reads the texts whose halves its sides read. -/
theorem stitched_deserialize_eq_ok_iff {text : String} {p : StitchedPosition B L} :
    (stitched backfill live).deserialize text = .ok p ↔
      ∃ b l, Stitch.split text = .ok (some (b, l)) ∧
        backfill.deserialize b = .ok p.backfill ∧ live.deserialize l = .ok p.live := by
  unfold stitched
  dsimp only
  cases Stitch.split text with
  | error e => exact ⟨nofun, nofun⟩
  | ok halves =>
    cases halves with
    | none => exact ⟨nofun, nofun⟩
    | some halves =>
      obtain ⟨b, l⟩ := halves
      change stitchedOfHalves backfill live b l = .ok p ↔ _
      rw [stitchedOfHalves_eq_ok_iff]
      constructor
      · exact fun h => ⟨b, l, rfl, h⟩
      · rintro ⟨_, _, hsame, h⟩
        cases hsame
        exact h

/-- A stitched codec refuses all other texts if its sides do. -/
theorem Decides.stitched (hb : backfill.Decides) (hl : live.Decides) :
    (PositionCodec.stitched backfill live).Decides := by
  intro text
  unfold PositionCodec.stitched
  dsimp only
  rcases Stitch.split_cases text with ⟨halves, h⟩ | ⟨reason, h⟩
  · rw [h]
    cases halves with
    | none => exact .inr ⟨_, rfl⟩
    | some halves =>
      obtain ⟨b, l⟩ := halves
      rcases hb b with ⟨x, hx⟩ | ⟨reason, hx⟩
      · rcases hl l with ⟨y, hy⟩ | ⟨reason, hy⟩
        · exact .inl ⟨⟨x, y⟩, stitchedOfHalves_eq_ok_iff.2 ⟨hx, hy⟩⟩
        · refine .inr ⟨reason, ?_⟩
          change stitchedOfHalves backfill live b l = _
          unfold stitchedOfHalves
          rw [hx, hy]
          rfl
      · refine .inr ⟨reason, ?_⟩
        change stitchedOfHalves backfill live b l = _
        unfold stitchedOfHalves
        rw [hx]
        rfl
  · rw [h]
    exact .inr ⟨reason, rfl⟩

end Stitched

end PositionCodec

namespace Scheme

/-- How many stitches a scheme has. -/
def stitches : Scheme → Nat
  | log => 0
  | empty => 0
  | stitched backfill live => backfill.stitches + live.stitches + 1

/-- The positions of logs in a position fit a word. -/
def Fits : (s : Scheme) → s.Position → Prop
  | log, n => n < Numeral.wordLimit
  | empty, _ => True
  | stitched backfill live, p => backfill.Fits p.backfill ∧ live.Fits p.live

/-- Every scheme reads a text or refuses it. -/
theorem decides (s : Scheme) : s.codec.Decides := by
  induction s with
  | log => exact PositionCodec.decides_log
  | empty => exact PositionCodec.decides_empty
  | stitched backfill live hb hl => exact hb.stitched hl

/-- Positions without a stitch are read back. -/
theorem exact_of_stitches_eq_zero {s : Scheme} (h : s.stitches = 0) {p : s.Position} (hp : s.Fits p) :
    s.codec.Exact p := by
  cases s with
  | log => exact PositionCodec.exact_log hp
  | empty => exact PositionCodec.exact_empty p
  | stitched backfill live => nomatch h

/-- The text of a position ends otherwise than the beginning of a separator. -/
theorem getLast?_serialize (s : Scheme) (p : s.Position) :
    ∃ last, (s.codec.serialize p).toList.getLast? = some last ∧ last ≠ '~' := by
  induction s with
  | log =>
    have htext : (log.codec.serialize p).toList = Nat.toDigits 10 p := Nat.toList_repr
    rw [htext, List.getLast?_eq_some_getLast Nat.toDigits_ne_nil]
    have hdigit := Nat.isDigit_of_mem_toDigits (b := 10) (n := p) (by decide) (by decide)
      (List.getLast_mem Nat.toDigits_ne_nil)
    refine ⟨_, rfl, fun he => ?_⟩
    rw [he] at hdigit
    exact absurd hdigit (by decide)
  | empty =>
    have hlast : "Empty".toList.getLast? = some 'y' := by decide
    exact ⟨'y', hlast, by decide⟩
  | stitched backfill live _ hl =>
    obtain ⟨last, hlast, hne⟩ := hl p.live
    refine ⟨last, ?_, hne⟩
    change (PositionCodec.stitchedText backfill.codec live.codec p).toList.getLast? = some last
    unfold PositionCodec.stitchedText
    rw [String.toList_append]
    exact getLast?_append_of_some hlast

/-- The text of a position has a piece for every leaf. -/
theorem length_pieces_serialize (s : Scheme) {p : s.Position} (hp : s.Fits p) :
    (Stitch.pieces (s.codec.serialize p).toList).length = s.stitches + 1 := by
  induction s with
  | log => rw [Stitch.pieces_of_not_mem (exact_of_stitches_eq_zero (s := log) rfl hp).unstitched]; rfl
  | empty => rw [Stitch.pieces_of_not_mem (exact_of_stitches_eq_zero (s := empty) rfl hp).unstitched]; rfl
  | stitched backfill live hb hl =>
    obtain ⟨last, hlast, hne⟩ := backfill.getLast?_serialize p.backfill
    have hends : (backfill.codec.serialize p.backfill).toList.getLast? ≠ some '~' := by
      rw [hlast]
      exact fun he => hne (Option.some.inj he)
    change (Stitch.pieces (PositionCodec.stitchedText backfill.codec live.codec p).toList).length = _
    unfold PositionCodec.stitchedText
    rw [String.toList_append, String.toList_append, String.toList_ofList, Stitch.pieces_joined hends,
      List.length_append, hb hp.1, hl hp.2]
    simp only [stitches]
    omega

/-- A position with one stitch is read back, or one with none. -/
theorem deserialize_serialize {s : Scheme} (h : s.stitches ≤ 1) {p : s.Position} (hp : s.Fits p) :
    s.codec.deserialize (s.codec.serialize p) = .ok p := by
  cases s with
  | log => exact (PositionCodec.exact_log hp).denotes
  | empty => rfl
  | stitched backfill live =>
    have hsum : backfill.stitches + live.stitches + 1 ≤ 1 := h
    exact PositionCodec.stitched_deserialize_joined (exact_of_stitches_eq_zero (by omega) hp.1)
      (exact_of_stitches_eq_zero (by omega) hp.2)

/-- A position with several stitches is refused. -/
theorem deserialize_serialize_nested {s : Scheme} (h : 2 ≤ s.stitches) {p : s.Position} (hp : s.Fits p) :
    s.codec.deserialize (s.codec.serialize p) = .error (.invalidPosition
      ("Cannot handle nested stitch separators for position " ++ s.codec.serialize p)) := by
  have hpieces := s.length_pieces_serialize hp
  cases s with
  | log => nomatch h
  | empty => nomatch h
  | stitched backfill live =>
    have hmany : 2 < (Stitch.pieces ((stitched backfill live).codec.serialize p).toList).length := by omega
    have hsplit := Stitch.split_of_lt_length hmany
    change (Stitch.split ((stitched backfill live).codec.serialize p) >>= _) = _
    rw [hsplit]
    rfl

end Scheme

/-- A stitched log reads two numerals around one separator. -/
theorem PositionCodec.stitched_log_deserialize_eq_ok_iff {text : String}
    {p : StitchedPosition Nat Nat} : (stitched log log).deserialize text = .ok p ↔
      ∃ b l, text = b ++ "~~~" ++ l ∧ Numeral.Denotes Numeral.wordLimit b.toList p.backfill ∧
        Numeral.Denotes Numeral.wordLimit l.toList p.live := by
  rw [stitched_deserialize_eq_ok_iff]
  refine exists_congr fun b => exists_congr fun l => ?_
  rw [log_deserialize_eq_ok_iff, log_deserialize_eq_ok_iff]
  refine and_congr_left fun ⟨hb, hl⟩ => ?_
  constructor
  · intro h
    have hpieces := Stitch.intercalate_pieces text.toList
    rw [Stitch.split_eq_ok_some_iff.1 h, List.intercalate_cons_cons, List.intercalate_singleton] at hpieces
    refine String.toList_injective ?_
    rw [← hpieces, String.toList_append, String.toList_append]
    rfl
  · rintro rfl
    exact Stitch.split_joined hb.unstitched hl.unstitched

/-- A position of any nesting of stitched sources over logs and sources without events is read back from
its text if there is at most one stitch, and otherwise its text is refused. A stitched log reads exactly
two numerals around one separator, as the numbers that they denote, and refuses every other text. -/
theorem texts_denote_or_are_refused :
    (∀ (s : Scheme) (p : s.Position), s.Fits p →
      (s.stitches ≤ 1 → s.codec.deserialize (s.codec.serialize p) = .ok p) ∧
      (2 ≤ s.stitches → s.codec.deserialize (s.codec.serialize p) = .error (.invalidPosition
        ("Cannot handle nested stitch separators for position " ++ s.codec.serialize p)))) ∧
    ∀ text, (∀ p, (Scheme.stitched .log .log).codec.deserialize text = .ok p ↔
        ∃ b l, text = b ++ "~~~" ++ l ∧ Numeral.Denotes Numeral.wordLimit b.toList p.backfill ∧
          Numeral.Denotes Numeral.wordLimit l.toList p.live) ∧
      ((∃ p, (Scheme.stitched .log .log).codec.deserialize text = .ok p) ∨
        ∃ reason, (Scheme.stitched .log .log).codec.deserialize text = .error (.invalidPosition reason)) := by
  refine ⟨fun s p hp => ⟨fun h => Scheme.deserialize_serialize h hp,
    fun h => Scheme.deserialize_serialize_nested h hp⟩, fun text => ⟨fun p => ?_, ?_⟩⟩
  · exact PositionCodec.stitched_log_deserialize_eq_ok_iff
  · exact (Scheme.stitched .log .log).decides text

/-- A position with one stitch and one with two, and a text with a sign, leading zeros and the greatest
number. -/
theorem texts_denote_or_are_refused_twice :
    let once : Scheme := .stitched .log .empty
    let twice : Scheme := .stitched once .log
    (once.Fits ⟨5, ()⟩ ∧ once.codec.serialize ⟨5, ()⟩ = "5~~~Empty" ∧
      once.codec.deserialize "5~~~Empty" = .ok ⟨5, ()⟩) ∧
    (twice.Fits ⟨⟨5, ()⟩, 7⟩ ∧ twice.codec.serialize ⟨⟨5, ()⟩, 7⟩ = "5~~~Empty~~~7" ∧
      twice.codec.deserialize "5~~~Empty~~~7" = .error (.invalidPosition
        "Cannot handle nested stitch separators for position 5~~~Empty~~~7")) ∧
    (Scheme.stitched .log .log).codec.deserialize "+007~~~18446744073709551615" =
      .ok ⟨7, 18446744073709551615⟩ := by
  intro once twice
  have hfive : 5 < Numeral.wordLimit := by decide
  have hseven : 7 < Numeral.wordLimit := by decide
  have honce : once.Fits ⟨5, ()⟩ := ⟨hfive, trivial⟩
  have htwice : twice.Fits ⟨⟨5, ()⟩, 7⟩ := ⟨honce, hseven⟩
  have htext : once.codec.serialize ⟨5, ()⟩ = "5~~~Empty" := by decide +kernel
  have hnested : twice.codec.serialize ⟨⟨5, ()⟩, 7⟩ = "5~~~Empty~~~7" := by decide +kernel
  have hread := (texts_denote_or_are_refused.1 once ⟨5, ()⟩ honce).1 (by decide)
  have hrefused := (texts_denote_or_are_refused.1 twice ⟨⟨5, ()⟩, 7⟩ htwice).2 (by decide)
  rw [htext] at hread
  rw [hnested] at hrefused
  refine ⟨⟨honce, htext, hread⟩, ⟨htwice, hnested, hrefused⟩, ?_⟩
  refine ((texts_denote_or_are_refused.2 _).1 ⟨7, 18446744073709551615⟩).2
    ⟨"+007", "18446744073709551615", rfl, ⟨['0', '0', '7'], ?_⟩, ⟨"18446744073709551615".toList, ?_⟩⟩
  · exact ⟨nofun, List.all_eq_true.1 (by decide), .inr rfl, by decide, by decide⟩
  · exact ⟨by decide, List.all_eq_true.1 (by decide), .inl rfl, by decide, by decide⟩

end Chronicle
