import Chronicle.Proofs.Cache.Records

/-!
# Bytes in pieces

Bytes arrive in pieces of any sizes, with interruptions anywhere between them. A reader that answers a read with
as many of the bytes as it likes arrives in the pieces that it answered with, so these are all readers over some
bytes. As long as nothing of a piece is lost, a number of bytes that is taken is the same as if all bytes were
there at once, and so is what is left.
-/

namespace Chronicle

/-- Nothing is lost of what arrives. -/
def Arrival.Lossless (arrivals : List Arrival) : Prop := ∀ b rest, .fleeting b rest ∉ arrivals

namespace ByteSource

section Collecting

variable {arrival : Arrival} {arrivals : List Arrival} {b : UInt8} {rest : List UInt8}

/-- All bytes that some arrivals bring. -/
def arriving (arrivals : List Arrival) : List UInt8 := (ByteSource.mk arrivals none).bytes

@[simp] theorem arriving_nil : arriving [] = [] := rfl

@[simp] theorem arriving_piece (b : UInt8) (rest : List UInt8) (arrivals : List Arrival) :
    arriving (.piece b rest :: arrivals) = b :: (rest ++ arriving arrivals) := rfl

@[simp] theorem arriving_interrupted (arrivals : List Arrival) :
    arriving (.interrupted :: arrivals) = arriving arrivals := rfl

/-- What comes later is not lost either. -/
theorem lossless_of_cons (h : Arrival.Lossless (arrival :: arrivals)) : Arrival.Lossless arrivals :=
  fun b rest hm => h b rest (List.mem_cons_of_mem _ hm)

/-- A piece is not lost. -/
theorem lossless_piece (b : UInt8) (rest : List UInt8) (h : Arrival.Lossless arrivals) :
    Arrival.Lossless (.piece b rest :: arrivals) := by
  intro b' rest' hm
  rcases List.mem_cons.1 hm with he | hm
  · nomatch he
  · exact h b' rest' hm

/-- From arrivals of which nothing is lost, the first bytes are collected, and the others are left. -/
theorem collect_of_lossless (asking : Asking) (count : Nat) (h : Arrival.Lossless arrivals) :
    (collect asking count arrivals).1 = (arriving arrivals).take count ∧
      arriving (collect asking count arrivals).2 = (arriving arrivals).drop count ∧
        Arrival.Lossless (collect asking count arrivals).2 := by
  induction arrivals generalizing asking count with
  | nil => cases count <;> exact ⟨rfl, rfl, h⟩
  | cons arrival later ih =>
    have hlater := lossless_of_cons h
    cases count with
    | zero =>
      unfold collect
      exact ⟨rfl, rfl, h⟩
    | succ count =>
      cases arrival with
      | interrupted =>
        unfold collect
        exact ih asking (count + 1) hlater
      | fleeting b rest => exact absurd List.mem_cons_self (h b rest)
      | piece b rest =>
        unfold collect
        split
        · -- the whole piece is taken, and perhaps more
          rename_i hdrop
          have hle : rest.length ≤ count := List.drop_eq_nil_iff.1 hdrop
          obtain ⟨htaken, hleft, hlossless⟩ := ih (asking.after (rest.length + 1)) (count - rest.length) hlater
          refine ⟨?_, ?_, hlossless⟩
          · rw [arriving_piece, List.take_succ_cons, List.take_append, List.take_of_length_le hle, ← htaken]
            rfl
          · rw [arriving_piece, List.drop_succ_cons, List.drop_append, List.drop_of_length_le hle, ← hleft]
            rfl
        · -- the piece has more bytes than are wanted
          rename_i c left hdrop
          have hlt : count < rest.length := by
            have hlength := congrArg List.length hdrop
            rw [List.length_drop, List.length_cons] at hlength
            omega
          refine ⟨?_, ?_, lossless_piece c left hlater⟩
          · rw [arriving_piece, List.take_succ_cons, List.take_append_of_le_length (Nat.le_of_lt hlt)]
          · rw [arriving_piece, arriving_piece, List.drop_succ_cons,
              List.drop_append_of_le_length (Nat.le_of_lt hlt), hdrop, List.cons_append]

end Collecting

/-- A source presents some bytes, in whatever pieces, and what is met after them, a failure that does not pass
for the end or the end itself. -/
structure Presents (source : ByteSource) (bytes : List UInt8) (failure : Option IoError) : Prop where
  /-- Nothing is lost. -/
  lossless : Arrival.Lossless source.arrivals
  /-- These bytes arrive. -/
  bytes_eq : source.bytes = bytes
  /-- This is met after them. -/
  failure_eq : source.failure = failure
  /-- A failure does not say that the bytes end early. -/
  plain : ∀ e, failure = some e → e.endsEarly = false

/-- Bytes that are all there at once are presented. -/
theorem presents_ofBytes (bytes : List UInt8) {failure : Option IoError}
    (h : ∀ e, failure = some e → e.endsEarly = false) : (ofBytes bytes failure).Presents bytes failure where
  lossless b rest hm := by
    cases bytes with
    | nil => nomatch hm
    | cons first more => nomatch List.mem_singleton.1 hm
  bytes_eq := bytes_ofBytes failure bytes
  failure_eq := rfl
  plain := h

/-- Bytes that are all there at once, and end. -/
theorem presents_ended (bytes : List UInt8) : (ofBytes bytes).Presents bytes none :=
  presents_ofBytes bytes fun _ h => nomatch h

/-- Bytes that are all there at once, and a failure after them. -/
theorem presents_failing (bytes : List UInt8) {e : IoError} (h : e.endsEarly = false) :
    (ofBytes bytes (some e)).Presents bytes (some e) :=
  presents_ofBytes bytes fun _ he => Option.some.inj he ▸ h

namespace Presents

variable {source : ByteSource} {bytes xs ys : List UInt8} {failure : Option IoError} {count : Nat}

/-- There may be no more than the first bytes. -/
theorem append_nil (h : source.Presents bytes failure) : source.Presents (bytes ++ []) failure := by
  rwa [List.append_nil]

/-- What is collected from a source, and what is left of it. -/
theorem collect (h : source.Presents bytes failure) (asking : Asking) (count : Nat) :
    ∃ later, ByteSource.collect asking count source.arrivals = (bytes.take count, later) ∧
      (ByteSource.mk later source.failure).Presents (bytes.drop count) failure := by
  have harriving : arriving source.arrivals = bytes := h.bytes_eq
  obtain ⟨htaken, hleft, hlossless⟩ := collect_of_lossless asking count h.lossless
  rw [harriving] at htaken hleft
  exact ⟨_, Prod.ext htaken rfl, hlossless, hleft, h.failure_eq, h.plain⟩

/-- As many bytes as there are are taken, and what follows them is left. -/
theorem take_whole (h : source.Presents (xs ++ ys) failure) (asking : Asking) (hcount : xs.length = count) :
    ∃ later, source.take count asking = .whole xs later ∧ later.Presents ys failure := by
  obtain ⟨later, hcollect, hlater⟩ := h.collect asking count
  subst hcount
  rw [List.take_left] at hcollect
  rw [List.drop_left] at hlater
  refine ⟨_, ?_, hlater⟩
  unfold take
  rw [hcollect]
  exact if_pos rfl

/-- Fewer bytes than are wanted are all that is taken. -/
theorem take_fewer (h : source.Presents bytes failure) (asking : Asking) (hlt : bytes.length < count) :
    source.take count asking =
      match source.failure with
      | none => .short bytes
      | some e => .failed e := by
  obtain ⟨later, hcollect, -⟩ := h.collect asking count
  rw [List.take_of_length_le (Nat.le_of_lt hlt)] at hcollect
  unfold take
  rw [hcollect]
  exact if_neg (Nat.ne_of_lt hlt)

/-- If the bytes end there, they are too few. -/
theorem take_short (h : source.Presents bytes none) (asking : Asking) (hlt : bytes.length < count) :
    source.take count asking = .short bytes := by
  rw [h.take_fewer asking hlt, h.failure_eq]

/-- If reading fails there, taking them fails. -/
theorem take_failed {e : IoError} (h : source.Presents bytes (some e)) (asking : Asking)
    (hlt : bytes.length < count) : source.take count asking = .failed e := by
  rw [h.take_fewer asking hlt, h.failure_eq]

end Presents

end ByteSource

end Chronicle
