import Chronicle.Proofs.Cache.Shelf

/-!
# Records are taken from what is to come

Every record that is read takes at least two bytes from its source. So the steps that are allowed for reading
a whole file are never too few, and all records of a file are the next one and those after it.
-/

namespace Chronicle

namespace ByteSource

/-- Bytes that were collected are not to come again. -/
theorem length_collect (asking : Asking) (count : Nat) (arrivals : List Arrival) (failure : Option IoError) :
    (collect asking count arrivals).1.length +
      (ByteSource.mk (collect asking count arrivals).2 failure).bytes.length ≤
        (ByteSource.mk arrivals failure).bytes.length := by
  induction arrivals generalizing asking count with
  | nil => cases count <;> exact Nat.le_refl 0
  | cons arrival later ih =>
    have hbytes : (ByteSource.mk (arrival :: later) failure).bytes.length =
        (ByteSource.mk [arrival] failure).bytes.length + (ByteSource.mk later failure).bytes.length := by
      simp only [bytes, List.flatMap_cons, List.flatMap_nil, List.append_nil, List.length_append]
    cases count with
    | zero =>
      unfold collect
      exact Nat.le_of_eq (Nat.zero_add _)
    | succ count =>
      rw [hbytes]
      cases arrival with
      | interrupted =>
        unfold collect
        exact Nat.le_add_left_of_le (ih asking (count + 1))
      | fleeting b rest =>
        have hmore := ih (asking.after ((b :: rest).take (asking.count (count + 1))).length)
          (count + 1 - ((b :: rest).take (asking.count (count + 1))).length)
        have hgot : ((b :: rest).take (asking.count (count + 1))).length ≤
            (ByteSource.mk [.fleeting b rest] failure).bytes.length := by
          simp only [bytes, List.flatMap_cons, List.flatMap_nil, List.append_nil]
          exact List.length_take_le' _ _
        unfold collect
        dsimp only
        rw [List.length_append]
        omega
      | piece b rest =>
        have hpiece : (ByteSource.mk [.piece b rest] failure).bytes.length = rest.length + 1 := by
          simp only [bytes, List.flatMap_cons, List.flatMap_nil, List.append_nil, List.length_cons]
        unfold collect
        split
        · have hmore := ih (asking.after (rest.length + 1)) (count - rest.length)
          dsimp only
          rw [List.length_append, List.length_cons, hpiece]
          omega
        · rename_i c left hdrop
          have hsplit := congrArg List.length (List.take_append_drop count rest)
          have hleft : (ByteSource.mk (.piece c left :: later) failure).bytes.length =
              left.length + 1 + (ByteSource.mk later failure).bytes.length := by
            simp only [bytes, List.flatMap_cons, List.length_append, List.length_cons]
          rw [hdrop, List.length_append, List.length_cons] at hsplit
          dsimp only
          rw [hleft, hpiece, List.length_cons]
          omega

/-- A source has at most the bytes that another had. -/
theorem length_of_take {source later : ByteSource} {count : Nat} {asking : Asking} {bytes : List UInt8}
    (h : source.take count asking = .whole bytes later) :
    later.bytes.length + count ≤ source.bytes.length := by
  have hcollect := length_collect asking count source.arrivals source.failure
  rw [show ByteSource.mk source.arrivals source.failure = source from rfl] at hcollect
  unfold take at h
  dsimp only at h
  split at h
  · rename_i hlength
    cases h
    omega
  · cases hf : source.failure with
    | none =>
      rw [hf] at h
      nomatch h
    | some e =>
      rw [hf] at h
      nomatch h

end ByteSource

namespace Cache

section Consuming

variable {field : Field} {source later : ByteSource}

/-- The bytes of a field are taken from what is to come. -/
theorem length_of_readBytes {count : Nat} {bytes : List UInt8}
    (h : readBytes field count source = .ok (bytes, later)) :
    later.bytes.length + count ≤ source.bytes.length := by
  unfold readBytes at h
  cases ht : source.take count with
  | whole taken rest =>
    rw [ht] at h
    cases h
    exact ByteSource.length_of_take ht
  | short taken =>
    rw [ht] at h
    nomatch h
  | failed e =>
    rw [ht] at h
    nomatch h

/-- The bytes of a payload are taken from what is to come. -/
theorem length_of_readBody {count : Nat} {bytes : List UInt8}
    (h : readBody field count source = .ok (bytes, later)) :
    later.bytes.length ≤ source.bytes.length := by
  unfold readBody at h
  cases ht : source.take count (.into {}) with
  | whole taken rest =>
    rw [ht] at h
    cases h
    exact Nat.le_of_add_right_le (ByteSource.length_of_take ht)
  | short taken =>
    rw [ht] at h
    nomatch h
  | failed e =>
    rw [ht] at h
    nomatch h

/-- A number is taken from what is to come. -/
theorem length_of_readNumber {n : Int} (h : readNumber field source = .ok (n, later)) :
    later.bytes.length ≤ source.bytes.length := by
  obtain ⟨⟨bytes, rest⟩, hread, h⟩ := Except.bind_eq_ok_iff.1 h
  cases h
  exact Nat.le_of_add_right_le (length_of_readBytes hread)

/-- A text of a known length is taken from what is to come. -/
theorem length_of_readTextBody {length : Nat} {text : String}
    (h : readTextBody field length source = .ok (text, later)) :
    later.bytes.length ≤ source.bytes.length := by
  obtain ⟨⟨bytes, rest⟩, hread, h⟩ := Except.bind_eq_ok_iff.1 h
  dsimp only at h
  split at h
  · cases h
    exact Nat.le_of_add_right_le (length_of_readBytes hread)
  · nomatch h

/-- A text is taken from what is to come. -/
theorem length_of_readText {text : String} (h : readText field source = .ok (text, later)) :
    later.bytes.length ≤ source.bytes.length := by
  obtain ⟨⟨bytes, rest⟩, hread, h⟩ := Except.bind_eq_ok_iff.1 h
  exact Nat.le_trans (length_of_readTextBody h) (Nat.le_of_add_right_le (length_of_readBytes hread))

/-- A payload is taken from what is to come. -/
theorem length_of_readPayload {payload : List UInt8} (h : readPayload field source = .ok (payload, later)) :
    later.bytes.length ≤ source.bytes.length := by
  obtain ⟨⟨bytes, rest⟩, hread, h⟩ := Except.bind_eq_ok_iff.1 h
  dsimp only at h
  split at h
  · nomatch h
  · exact Nat.le_trans (length_of_readBody h) (Nat.le_of_add_right_le (length_of_readBytes hread))

/-- The rest of a record is taken from what is to come. -/
theorem length_of_readRest {length : Nat} {r : CachedRecord}
    (h : readRest length source = .ok (r, later)) : later.bytes.length ≤ source.bytes.length := by
  unfold readRest at h
  obtain ⟨⟨position, source₁⟩, h₁, h⟩ := Except.bind_eq_ok_iff.1 h
  obtain ⟨⟨ms, source₂⟩, h₂, h⟩ := Except.bind_eq_ok_iff.1 h
  dsimp only at h
  cases htime : Timestamp.ofMillis? ms with
  | none =>
    rw [htime] at h
    nomatch h
  | some timestamp =>
    rw [htime] at h
    dsimp only at h
    rw [pure_bind] at h
    obtain ⟨⟨category, source₃⟩, h₃, h⟩ := Except.bind_eq_ok_iff.1 h
    obtain ⟨⟨id, source₄⟩, h₄, h⟩ := Except.bind_eq_ok_iff.1 h
    dsimp only at h
    cases hstream : StreamId.ofParts category id with
    | error e =>
      rw [hstream] at h
      nomatch h
    | ok stream =>
      rw [hstream] at h
      dsimp only at h
      rw [pure_bind] at h
      obtain ⟨⟨number, source₅⟩, h₅, h⟩ := Except.bind_eq_ok_iff.1 h
      obtain ⟨⟨eventType, source₆⟩, h₆, h⟩ := Except.bind_eq_ok_iff.1 h
      obtain ⟨⟨data, source₇⟩, h₇, h⟩ := Except.bind_eq_ok_iff.1 h
      obtain ⟨⟨metadata, source₈⟩, h₈, h⟩ := Except.bind_eq_ok_iff.1 h
      cases h
      calc
        source₈.bytes.length ≤ source₇.bytes.length := length_of_readPayload h₈
        _ ≤ source₆.bytes.length := length_of_readPayload h₇
        _ ≤ source₅.bytes.length := length_of_readText h₆
        _ ≤ source₄.bytes.length := length_of_readNumber h₅
        _ ≤ source₃.bytes.length := length_of_readText h₄
        _ ≤ source₂.bytes.length := length_of_readText h₃
        _ ≤ source₁.bytes.length := length_of_readNumber h₂
        _ ≤ source.bytes.length := length_of_readTextBody h₁

/-- A record that was read leaves fewer bytes. -/
theorem length_of_readRecord {r : CachedRecord} (h : readRecord source = .ok (some (r, later))) :
    later.bytes.length < source.bytes.length := by
  obtain ⟨start, hs, h⟩ := Except.bind_eq_ok_iff.1 h
  cases start with
  | none => nomatch h
  | some begun =>
    obtain ⟨length, rest⟩ := begun
    obtain ⟨read, hread, h⟩ := Except.bind_eq_ok_iff.1 h
    cases h
    have hstart : rest.bytes.length + 2 ≤ source.bytes.length := by
      unfold readStart at hs
      cases ht : source.take 2 with
      | whole taken later =>
        rw [ht] at hs
        cases hs
        exact ByteSource.length_of_take ht
      | short taken =>
        rw [ht] at hs
        cases taken <;> nomatch hs
      | failed e =>
        rw [ht] at hs
        nomatch hs
    have hrest := length_of_readRest hread
    omega

/-- Reading with more steps than there are bytes does not depend on how many they are. -/
theorem readAllWithin_eq {steps others : Nat} (h : source.bytes.length < steps)
    (ho : source.bytes.length < others) : readAllWithin steps source = readAllWithin others source := by
  induction steps generalizing others source with
  | zero => omega
  | succ steps ih =>
    cases others with
    | zero => omega
    | succ others =>
      unfold readAllWithin
      cases hread : readRecord source with
      | error e => rfl
      | ok read =>
        cases read with
        | none => rfl
        | some read =>
          obtain ⟨record, rest⟩ := read
          have hlt := length_of_readRecord hread
          dsimp only
          rw [ih (by omega) (by omega : rest.bytes.length < others)]

/-- All records are the next one and those after it, up to the end or a failure. -/
theorem readAll_eq (source : ByteSource) : readAll source =
    match readRecord source with
    | .error e => ([], some e)
    | .ok none => ([], none)
    | .ok (some (record, rest)) => (record :: (readAll rest).1, (readAll rest).2) := by
  unfold readAll
  rw [readAllWithin]
  cases hread : readRecord source with
  | error e => rfl
  | ok read =>
    cases read with
    | none => rfl
    | some read =>
      obtain ⟨record, rest⟩ := read
      have hlt := length_of_readRecord hread
      dsimp only
      rw [readAllWithin_eq hlt (Nat.lt_succ_self rest.bytes.length)]

end Consuming

end Cache

end Chronicle
