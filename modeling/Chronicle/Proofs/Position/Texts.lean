import Chronicle.Position.Transition

/-!
# Texts of positions read back

A consumer keeps a position as a text, and a later deployment reads it, perhaps with another codec. A
codec is exact at a position when the text denotes that position again and holds no part of a separator,
so that the text can be joined to another and found again as a half. The codecs of logs and of sources
without events are exact, and from that follows what the codecs of stitched sources and of both phases
of leaving one make of every text that any of them wrote.
-/

namespace Chronicle

namespace Numeral

/-- Further digits do not make a numeral smaller. -/
theorem le_ofDigitChars (value : Nat) (digits : List Char) :
    value ≤ Nat.ofDigitChars 10 digits value := by
  induction digits generalizing value with
  | nil => exact Nat.le_refl _
  | cons c rest ih =>
    rw [Nat.ofDigitChars_cons]
    have hr := ih (10 * value + (c.toNat - '0'.toNat))
    omega

/-- Digits are read as the number they stand for, if it is below the limit. -/
theorem readDigits_ofDigitChars {limit value : Nat} {digits : List Char}
    (hd : ∀ c ∈ digits, c.isDigit = true) (hl : Nat.ofDigitChars 10 digits value < limit) :
    readDigits limit value digits = .ok (Nat.ofDigitChars 10 digits value) := by
  induction digits generalizing value with
  | nil => rfl
  | cons c rest ih =>
    have hc : digit? c = some (c.toNat - '0'.toNat) := if_pos (hd c List.mem_cons_self)
    rw [Nat.ofDigitChars_cons, Nat.mul_comm 10 value] at hl ⊢
    have hle := le_ofDigitChars (value * 10 + (c.toNat - '0'.toNat)) rest
    unfold readDigits
    rw [hc]
    dsimp only
    rw [if_pos (Nat.lt_of_le_of_lt hle hl)]
    exact ih (fun d hm => hd d (List.mem_cons_of_mem c hm)) hl

/-- A text of digits has no sign to be read. -/
theorem parse_eq_readDigits {limit : Nat} {c : Char} {rest : List Char} (hc : c.isDigit = true) :
    parse limit (c :: rest) = readDigits limit 0 (c :: rest) := by
  have hne : c ≠ '+' := by
    rintro rfl
    exact absurd hc (by decide)
  unfold parse
  split
  · rename_i h
    cases h
  · rename_i h
    exact absurd (List.cons.inj h).1 hne
  · rename_i h
    exact absurd (List.cons.inj h).1 hne
  · rfl

/-- The decimal text of a number below the limit is read as that number. -/
theorem parse_toDigits {limit n : Nat} (h : n < limit) : parse limit (Nat.toDigits 10 n) = .ok n := by
  have hd : ∀ c ∈ Nat.toDigits 10 n, c.isDigit = true := fun c hc =>
    Nat.isDigit_of_mem_toDigits (by decide) (by decide) hc
  have hv : Nat.ofDigitChars 10 (Nat.toDigits 10 n) 0 = n := Nat.ofDigitChars_ten_toDigits
  have hr := readDigits_ofDigitChars hd (hv.symm ▸ h)
  cases hn : Nat.toDigits 10 n with
  | nil => exact absurd hn Nat.toDigits_ne_nil
  | cons c rest =>
    rw [parse_eq_readDigits (hd c (hn ▸ List.mem_cons_self)), ← hn, hr, hv]

end Numeral

namespace Stitch

/-- A character that is no part of a separator extends the first piece. -/
theorem pieces_cons {c : Char} {rest piece : List Char} {more : List (List Char)} (hc : '~' ≠ c)
    (h : pieces rest = piece :: more) : pieces (c :: rest) = (c :: piece) :: more := by
  unfold pieces
  split
  · rename_i he
    cases he
  · rename_i he
    exact absurd (List.cons.inj he).1.symm hc
  · rename_i he
    obtain ⟨rfl, rfl⟩ := List.cons.inj he
    rw [h]

/-- A text without any part of a separator is one piece. -/
theorem pieces_of_not_mem {text : List Char} (h : '~' ∉ text) : pieces text = [text] := by
  induction text with
  | nil => rfl
  | cons c rest ih =>
    rw [List.mem_cons, not_or] at h
    exact pieces_cons h.1 (ih h.2)

/-- The first piece of a joined text is what stands before the separator. -/
theorem pieces_append_separator {text : List Char} (h : '~' ∉ text) (rest : List Char) :
    pieces (text ++ separator ++ rest) = text :: pieces rest := by
  induction text with
  | nil => rfl
  | cons c text ih =>
    rw [List.mem_cons, not_or] at h
    exact pieces_cons h.1 (ih h.2)

/-- A text without any part of a separator is not split. -/
theorem split_of_not_mem {text : String} (h : '~' ∉ text.toList) : split text = .ok none := by
  unfold split
  rw [pieces_of_not_mem h]

/-- A joined text is split into the two that were joined. -/
theorem split_joined {b l : String} (hb : '~' ∉ b.toList) (hl : '~' ∉ l.toList) :
    split (b ++ String.ofList separator ++ l) = .ok (some (b, l)) := by
  have hp : pieces (b ++ String.ofList separator ++ l).toList = [b.toList, l.toList] := by
    rw [String.toList_append, String.toList_append, String.toList_ofList, pieces_append_separator hb,
      pieces_of_not_mem hl]
  unfold split
  rw [hp]
  dsimp only
  rw [String.ofList_toList, String.ofList_toList]

end Stitch

namespace PositionCodec

/-- The text of a position denotes it and holds no part of a separator. -/
structure Exact {P : Type} (codec : PositionCodec P) (position : P) : Prop where
  /-- The text can be a half of a joined text. -/
  unstitched : '~' ∉ (codec.serialize position).toList
  /-- The text denotes the position that it was made from. -/
  denotes : codec.deserialize (codec.serialize position) = .ok position

/-- Positions of a log that fit a word are read back. -/
theorem exact_log {n : Nat} (h : n < Numeral.wordLimit) : PositionCodec.log.Exact n where
  unstitched hm := by
    simp only [log, Nat.toString_eq_repr, Nat.toList_repr] at hm
    exact absurd (Nat.isDigit_of_mem_toDigits (by decide) (by decide) hm) (by decide)
  denotes := by
    simp only [log, Nat.toString_eq_repr, Nat.toList_repr, Numeral.parse_toDigits h]

/-- The position of a source without events is read back. -/
theorem exact_empty (position : Unit) : PositionCodec.empty.Exact position where
  unstitched := by
    change '~' ∉ "Empty".toList
    decide
  denotes := rfl

section Joined

variable {B L : Type} {backfill : PositionCodec B} {live : PositionCodec L}

/-- Both halves of a text are read when both components are exact. -/
theorem stitchedOfHalves_serialize {p : StitchedPosition B L} (hb : backfill.Exact p.backfill)
    (hl : live.Exact p.live) :
    stitchedOfHalves backfill live (backfill.serialize p.backfill) (live.serialize p.live) = .ok p := by
  unfold stitchedOfHalves
  rw [hb.denotes, hl.denotes]
  rfl

/-- The text of a stitched position is split into the texts of its components. -/
theorem split_stitchedText {p : StitchedPosition B L} (hb : backfill.Exact p.backfill)
    (hl : live.Exact p.live) :
    Stitch.split (stitchedText backfill live p) =
      .ok (some (backfill.serialize p.backfill, live.serialize p.live)) :=
  Stitch.split_joined hb.unstitched hl.unstitched

/-- A stitched position is read back. -/
theorem stitched_deserialize_joined {p : StitchedPosition B L} (hb : backfill.Exact p.backfill)
    (hl : live.Exact p.live) :
    (stitched backfill live).deserialize (stitchedText backfill live p) = .ok p := by
  unfold stitched
  dsimp only
  rw [split_stitchedText hb hl]
  exact stitchedOfHalves_serialize hb hl

/-- The text of a live position is refused by the codec of the stitched source. -/
theorem stitched_deserialize_plain {l : L} (hl : live.Exact l) :
    (stitched backfill live).deserialize (live.serialize l) =
      .error (.invalidPosition ("missing stitch separator in position " ++ live.serialize l)) := by
  unfold stitched
  dsimp only
  rw [Stitch.split_of_not_mem hl.unstitched]
  rfl

variable [DecidableEq L] {backfillEnd : B} {cutoff : L}

/-- The expanding phase reads stitched positions back. -/
theorem expanding_deserialize_joined {p : StitchedPosition B L} (hb : backfill.Exact p.backfill)
    (hl : live.Exact p.live) :
    (expanding backfill live backfillEnd cutoff).deserialize (stitchedText backfill live p) = .ok p := by
  unfold expanding
  dsimp only
  rw [split_stitchedText hb hl]
  exact stitchedOfHalves_serialize hb hl

/-- The expanding phase puts a live position behind the whole backfill. -/
theorem expanding_deserialize_plain {l : L} (hl : live.Exact l) :
    (expanding backfill live backfillEnd cutoff).deserialize (live.serialize l) =
      .ok ⟨backfillEnd, l⟩ := by
  unfold expanding
  dsimp only
  rw [Stitch.split_of_not_mem hl.unstitched]
  change (live.deserialize (live.serialize l) >>= fun l => .ok (StitchedPosition.mk backfillEnd l)) = _
  rw [hl.denotes]
  rfl

/-- The migrating phase reads the live component, and refuses it at the cutoff. -/
theorem migrating_deserialize_joined {p : StitchedPosition B L} (hb : backfill.Exact p.backfill)
    (hl : live.Exact p.live) :
    (migrating live cutoff).deserialize (stitchedText backfill live p) =
      if p.live = cutoff then .error (.illegalState "Cannot handle positions in the backfill")
      else .ok p.live := by
  unfold migrating
  dsimp only
  rw [split_stitchedText hb hl]
  change (live.deserialize (live.serialize p.live) >>= _) = _
  rw [hl.denotes]
  by_cases h : p.live = cutoff
  · rw [if_pos h]
    exact if_pos h
  · rw [if_neg h]
    exact if_neg h

/-- The migrating phase reads a live position as it is. -/
theorem migrating_deserialize_plain {l : L} (hl : live.Exact l) :
    (migrating live cutoff).deserialize (live.serialize l) = .ok l := by
  unfold migrating
  dsimp only
  rw [Stitch.split_of_not_mem hl.unstitched]
  exact hl.denotes

end Joined

end PositionCodec

end Chronicle
