import Chronicle.Proofs.Bytes.Pieces
import Chronicle.Proofs.Cache.Cutting

/-!
# However bytes arrive

Reading does not depend on the pieces in which bytes arrive, or on interruptions. More is true of each read, and
of one read after another: what it does on the first bytes is settled by them, whatever follows. Either it reads
a value, or they are none and it refuses them, or it wants more bytes. Only in the last case does it matter what
is met behind them, the end or a failure. So if reading fails behind the first bytes, everything is as if they
were all, but for the failure in the place of the end.
-/

namespace Chronicle.Cache

/-- The failure is about the bytes that were read: they are none of a record. -/
def CacheError.Malformed : CacheError → Prop
  | negativeLength _ _ => True
  | invalidUtf8 _ => True
  | invalidTimestamp _ => True
  | invalidStreamId _ => True
  | _ => False

/-- What a read does on bytes that begin with some. -/
inductive Outlook {α : Type} (read : ByteSource → Except CacheError (α × ByteSource)) (front : List UInt8) :
    Prop where
  /-- It reads a value and leaves some of them. -/
  | reads (value : α) (rest : List UInt8)
    (h : ∀ {source more failure}, source.Presents (front ++ more) failure →
      ∃ later, read source = .ok (value, later) ∧ later.Presents (rest ++ more) failure)
  /-- It refuses them. -/
  | refuses (e : CacheError) (he : e.Malformed)
    (h : ∀ {source more failure}, source.Presents (front ++ more) failure → read source = .error e)
  /-- It wants more bytes. -/
  | starves (field : Field)
    (hend : ∀ {source}, source.Presents front none → read source = .error (.truncated field))
    (hfailure : ∀ {source e}, source.Presents front (some e) → read source = .error (.io e.text))

/-- What a read does on the first bytes is settled by them. -/
def Steady {α : Type} (read : ByteSource → Except CacheError (α × ByteSource)) : Prop :=
  ∀ front, Outlook read front

namespace Steady

variable {α β : Type} {read : ByteSource → Except CacheError (α × ByteSource)}

/-- A value that is there already is read of no bytes. -/
theorem pure (value : α) : Steady fun source => Pure.pure (value, source) :=
  fun front => .reads value front fun h => ⟨_, rfl, h⟩

/-- All bytes are refused. -/
theorem refuse {e : CacheError} (he : e.Malformed) :
    Steady fun _ : ByteSource => (.error e : Except CacheError (α × ByteSource)) :=
  fun _ => .refuses e he fun _ => rfl

/-- What one read after another does is settled if it is for both. -/
theorem bind {next : α × ByteSource → Except CacheError (β × ByteSource)} (h : Steady read)
    (hnext : ∀ value, Steady fun source => next (value, source)) : Steady fun source => read source >>= next := by
  intro front
  cases h front with
  | refuses e he hrefused =>
    refine .refuses e he fun hp => ?_
    rw [hrefused hp]
    rfl
  | starves field hend hfailure =>
    refine .starves field (fun hp => ?_) fun hp => ?_
    · rw [hend hp]
      rfl
    · rw [hfailure hp]
      rfl
  | reads value rest hread =>
    have hread' {source failure} (hp : source.Presents front failure) :
        ∃ later, read source = .ok (value, later) ∧ later.Presents rest failure := by
      rw [← List.append_nil rest]
      exact hread hp.append_nil
    cases hnext value rest with
    | reads result left hthen =>
      refine .reads result left fun hp => ?_
      obtain ⟨later, hok, hlater⟩ := hread hp
      rw [hok]
      exact hthen hlater
    | refuses e he hrefused =>
      refine .refuses e he fun hp => ?_
      obtain ⟨later, hok, hlater⟩ := hread hp
      rw [hok]
      exact hrefused hlater
    | starves field hend hfailure =>
      refine .starves field (fun hp => ?_) fun hp => ?_
      · obtain ⟨later, hok, hlater⟩ := hread' hp
        rw [hok]
        exact hend hlater
      · obtain ⟨later, hok, hlater⟩ := hread' hp
        rw [hok]
        exact hfailure hlater

end Steady

section Fields

variable (field : Field)

/-- Taking a number of bytes is settled by the first bytes, however they are asked for. -/
theorem steady_take (count : Nat) (asking : Asking)
    {failing : IoError → Except CacheError (List UInt8 × ByteSource)}
    (h : ∀ e, e.endsEarly = false → failing e = .error (.io e.text)) :
    Steady fun source =>
      match source.take count asking with
      | .whole bytes later => .ok (bytes, later)
      | .short _ => .error (.truncated field)
      | .failed e => failing e := by
  intro front
  by_cases hcount : count ≤ front.length
  · refine .reads (front.take count) (front.drop count) fun hp => ?_
    rw [← List.take_append_drop count front, List.append_assoc] at hp
    obtain ⟨later, htake, hlater⟩ := hp.take_whole asking (List.length_take_of_le hcount)
    rw [htake]
    exact ⟨later, rfl, hlater⟩
  · have hlt := Nat.lt_of_not_le hcount
    refine .starves field (fun hp => ?_) fun hp => ?_
    · rw [hp.take_short asking hlt]
    · rw [hp.take_failed asking hlt]
      exact h _ (hp.plain _ rfl)

/-- Reading a number of bytes is settled by the first bytes. -/
theorem steady_readBytes (count : Nat) : Steady (readBytes field count) :=
  steady_take field count .whole fun e he => by rw [he]; rfl

/-- Reading the bytes of a payload is settled by the first bytes. -/
theorem steady_readBody (count : Nat) : Steady (readBody field count) :=
  steady_take field count (.into {}) fun _ _ => rfl

/-- Reading a number is settled by the first bytes. -/
theorem steady_readNumber : Steady (readNumber field) :=
  (steady_readBytes field 8).bind fun bytes =>
    .pure (Bytes.ofWord Bytes.modulus64 (Bytes.ofBigEndian bytes))

/-- Reading a text of a known length is settled by the first bytes. -/
theorem steady_readTextBody (length : Nat) : Steady (readTextBody field length) := by
  refine (steady_readBytes field length).bind fun bytes => ?_
  dsimp only
  cases Utf8.decode? bytes with
  | some text => exact .pure text
  | none => exact .refuse trivial

/-- Reading a text is settled by the first bytes. -/
theorem steady_readText : Steady (readText field) :=
  (steady_readBytes field 2).bind fun bytes => steady_readTextBody field (Bytes.ofBigEndian bytes)

/-- Reading a payload is settled by the first bytes. -/
theorem steady_readPayload : Steady (readPayload field) := by
  refine (steady_readBytes field 4).bind fun bytes => ?_
  dsimp only
  by_cases hnegative : Bytes.ofWord Bytes.modulus32 (Bytes.ofBigEndian bytes) < 0
  · simp only [if_pos hnegative]
    exact .refuse trivial
  · simp only [if_neg hnegative]
    exact steady_readBody field _

/-- Reading what follows the length of a position is settled by the first bytes. -/
theorem steady_readRest (length : Nat) : Steady (readRest length) := by
  unfold readRest
  refine (steady_readTextBody .position length).bind fun position => ?_
  refine (steady_readNumber .timestamp).bind fun ms => ?_
  dsimp only
  cases Timestamp.ofMillis? ms with
  | none => exact .refuse trivial
  | some timestamp =>
    refine (steady_readText .category).bind fun category => ?_
    dsimp only
    refine (steady_readText .streamId).bind fun id => ?_
    dsimp only
    cases StreamId.ofParts category id with
    | error e => exact .refuse trivial
    | ok stream =>
      refine (steady_readNumber .eventNumber).bind fun number => ?_
      dsimp only
      refine (steady_readText .eventType).bind fun eventType => ?_
      dsimp only
      refine (steady_readPayload .data).bind fun data => ?_
      dsimp only
      exact (steady_readPayload .metadata).bind fun metadata =>
        .pure (CachedRecord.mk position ⟨timestamp, stream, number, eventType, data, metadata⟩)

end Fields

section Records

variable {source : ByteSource} {bytes front : List UInt8} {failure : Option IoError}

/-- Reads a record of bytes that have not ended. -/
def readBegun (source : ByteSource) : Except CacheError (CachedRecord × ByteSource) := do
  let (length, source) ← readBytes .position 2 source
  readRest (Bytes.ofBigEndian length) source

/-- Reading a record of bytes that have not ended is settled by the first bytes. -/
theorem steady_readBegun : Steady readBegun :=
  (steady_readBytes .position 2).bind fun length => steady_readRest (Bytes.ofBigEndian length)

/-- Where there are bytes, a record is read, or it cannot be. -/
theorem readRecord_of_ne_nil (h : source.Presents bytes failure) (hne : bytes ≠ []) :
    readRecord source = (readBegun source).map some := by
  unfold readRecord readBegun readStart readBytes
  by_cases hcount : 2 ≤ bytes.length
  · rw [← List.take_append_drop 2 bytes] at h
    obtain ⟨later, htake, -⟩ := h.take_whole .whole (List.length_take_of_le hcount)
    rw [htake]
    dsimp only [Bind.bind, Except.bind]
    cases readRest (Bytes.ofBigEndian (bytes.take 2)) later <;> rfl
  · have hlt := Nat.lt_of_not_le hcount
    cases failure with
    | none =>
      rw [h.take_short .whole hlt]
      cases bytes with
      | nil => exact absurd rfl hne
      | cons b rest => rfl
    | some e =>
      rw [h.take_failed .whole hlt]
      dsimp only
      rw [h.plain e rfl]
      rfl

/-- Where there are no bytes, the end is clean. -/
theorem readRecord_ended (h : source.Presents [] none) : readRecord source = .ok none := by
  unfold readRecord readStart
  rw [h.take_short .whole (by decide)]
  rfl

/-- Where there are no bytes, a failure is met. -/
theorem readRecord_failed {e : IoError} (h : source.Presents [] (some e)) :
    readRecord source = .error (.io e.text) := by
  unfold readRecord readStart
  rw [h.take_failed .whole (by decide)]
  rfl

/-- All records are read of the bytes that a source presents as if they were there at once. -/
theorem readAll_presents (h : source.Presents bytes failure) :
    readAll source = readAll (.ofBytes bytes failure) := by
  induction hlength : bytes.length using Nat.strong_induction_on generalizing source bytes with
  | _ length ih =>
    have hthere := ByteSource.presents_ofBytes bytes h.plain
    rw [readAll_eq, readAll_eq (.ofBytes bytes failure)]
    by_cases hne : bytes = []
    · subst hne
      cases failure with
      | none => rw [readRecord_ended h, readRecord_ended hthere]
      | some e => rw [readRecord_failed h, readRecord_failed hthere]
    · rw [readRecord_of_ne_nil h hne, readRecord_of_ne_nil hthere hne]
      cases steady_readBegun bytes with
      | refuses e he hrefused => rw [hrefused h.append_nil, hrefused hthere.append_nil]
      | starves field hend hfailure =>
        cases failure with
        | none => rw [hend h, hend hthere]
        | some e => rw [hfailure h, hfailure hthere]
      | reads r rest hread =>
        obtain ⟨later, hok, hlater⟩ := hread h.append_nil
        obtain ⟨later', hok', hlater'⟩ := hread hthere.append_nil
        rw [List.append_nil] at hlater hlater'
        have hlt : rest.length < length := by
          have hrecord : readRecord source = .ok (some (r, later)) := by
            rw [readRecord_of_ne_nil h hne, hok]
            rfl
          have hfewer := length_of_readRecord hrecord
          rwa [hlater.bytes_eq, h.bytes_eq, hlength] at hfewer
        rw [hok, hok']
        dsimp only [Except.map]
        rw [ih _ hlt hlater rfl, ih _ hlt hlater' rfl]

/-- Bytes of which no record can be read, whatever follows them. -/
inductive Halted (rest : List UInt8) : Prop where
  /-- They are refused. -/
  | refused (e : CacheError) (he : e.Malformed)
    (h : ∀ more failure, (∀ e, failure = some e → e.endsEarly = false) →
      readAll (.ofBytes (rest ++ more) failure) = ([], some e))
  /-- More bytes are wanted, or none of a record is there. -/
  | starved (hnone : (readAll (.ofBytes rest)).1 = [])
    (hend : ∀ e, (readAll (.ofBytes rest)).2 = some e → ¬ e.Malformed)
    (hfailure : ∀ e : IoError, e.endsEarly = false →
      readAll (.ofBytes rest (some e)) = ([], some (.io e.text)))

/-- Where there are no bytes, no record can be read. -/
theorem halted_nil : Halted [] := by
  refine .starved rfl (fun _ he => nomatch he) fun e he => ?_
  rw [readAll_eq, readRecord_failed (ByteSource.presents_failing [] he)]

/-- Where a record is refused, none can be read. -/
theorem halted_of_refused (hne : front ≠ []) {e : CacheError} (he : e.Malformed)
    (h : ∀ {source more failure}, source.Presents (front ++ more) failure → readBegun source = .error e) :
    Halted front := by
  refine .refused e he fun more failure hplain => ?_
  have hpresents := ByteSource.presents_ofBytes (front ++ more) hplain
  have hbegun : front ++ more ≠ [] := fun hnil => hne (List.append_eq_nil_iff.1 hnil).1
  rw [readAll_eq, readRecord_of_ne_nil hpresents hbegun, h hpresents]
  rfl

/-- Where a record wants more bytes, none can be read. -/
theorem halted_of_starved (hne : front ≠ []) (field : Field)
    (hend : ∀ {source}, source.Presents front none → readBegun source = .error (.truncated field))
    (hfailure : ∀ {source e}, source.Presents front (some e) → readBegun source = .error (.io e.text)) :
    Halted front := by
  have hread : readAll (.ofBytes front) = ([], some (.truncated field)) := by
    have hended := ByteSource.presents_ended front
    rw [readAll_eq, readRecord_of_ne_nil hended hne, hend hended]
    rfl
  refine .starved ?_ (fun e he => ?_) fun e he => ?_
  · rw [hread]
  · rw [hread] at he
    cases he
    exact id
  · have hfailed := ByteSource.presents_failing front he
    rw [readAll_eq, readRecord_of_ne_nil hfailed hne, hfailure hfailed]
    rfl

/-- Any bytes are those of some records, and of others of which no record can be read. -/
theorem exists_halted (front : List UInt8) : ∃ records rest, front = encodeAll records ++ rest ∧
    (∀ r ∈ records, r.Storable ∧ r.floored = r) ∧ Halted rest := by
  have hnone {rest : List UInt8} (h : Halted rest) : ∃ records left, rest = encodeAll records ++ left ∧
      (∀ r ∈ records, r.Storable ∧ r.floored = r) ∧ Halted left :=
    ⟨[], rest, rfl, fun r hr => absurd hr List.not_mem_nil, h⟩
  induction hlength : front.length using Nat.strong_induction_on generalizing front with
  | _ length ih =>
    by_cases hne : front = []
    · subst hne
      exact hnone halted_nil
    · cases steady_readBegun front with
      | refuses e he hrefused => exact hnone (halted_of_refused hne he hrefused)
      | starves field hend hfailure => exact hnone (halted_of_starved hne field hend hfailure)
      | reads r rest hread =>
        have hended := ByteSource.presents_ended front
        obtain ⟨later, hok, -⟩ := hread hended.append_nil
        have hrecord : readRecord (.ofBytes front) = .ok (some (r, later)) := by
          rw [readRecord_of_ne_nil hended hne, hok]
          rfl
        obtain ⟨hstorable, hfloored, left, rfl, -⟩ := of_readRecord hrecord
        have hfewer : left.length < length := by
          have hpos := r.encode_length_pos
          rw [List.length_append] at hlength
          omega
        obtain ⟨records, rest, rfl, hrecords, hhalted⟩ := ih _ hfewer left rfl
        refine ⟨r :: records, rest, ?_, ?_, hhalted⟩
        · rw [encodeAll_cons, List.append_assoc]
        · exact List.forall_mem_cons.2 ⟨⟨hstorable, hfloored⟩, hrecords⟩

/-- Where no record can be read, none is that ends by there. -/
theorem Halted.length_lt {rest back : List UInt8} (h : Halted rest) {r : CachedRecord}
    (hr : r ∈ (readAll (.ofBytes (rest ++ back))).1.head?) : rest.length < r.encode.length := by
  cases h with
  | refused e he h =>
    rw [h back none fun _ hf => nomatch hf] at hr
    cases hr
  | starved hnone hend hfailure =>
    obtain ⟨later, hread⟩ : ∃ later, readRecord (.ofBytes (rest ++ back)) = .ok (some (r, later)) := by
      rw [readAll_eq] at hr
      split at hr
      · nomatch hr
      · nomatch hr
      · rename_i first later hread
        cases Option.some.inj hr
        exact ⟨later, hread⟩
    obtain ⟨hstorable, -, tail, hbytes, -⟩ := of_readRecord hread
    refine Nat.lt_of_not_le fun hle => ?_
    -- a record that is there would have been read
    obtain ⟨left, hrest⟩ : r.encode <+: rest :=
      List.prefix_of_prefix_length_le ⟨tail, hbytes.symm⟩ (List.prefix_append rest back) hle
    rw [← hrest, readAll_eq, CachedRecord.readRecord_encode hstorable.fits] at hnone
    nomatch hnone

end Records

/-- The first bytes settle a failure by themselves: they are refused with it, whatever follows them. -/
def Settles (front : List UInt8) (e : CacheError) : Prop :=
  e.Malformed ∧ ∀ more, (readAll (.ofBytes (front ++ more))).2 = some e

/-- Reading does not depend on how bytes arrive, in pieces of any sizes and with any interruptions, as long as
none is lost. If all bytes arrive, the same records are read and the same end or failure is met as if they were
there at once. If reading fails behind some of them instead, with a failure that does not pass for the end, then
those of these records are read whose bytes lie wholly before it. A failure that the bytes before it settle by
themselves is met after them, and if there is none the failure of the reading is. -/
theorem decoding_ignores_arrival (bytes : List UInt8) {source : ByteSource}
    (hlossless : Arrival.Lossless source.arrivals) :
    (source.bytes = bytes → source.failure = none → readAll source = readAll (.ofBytes bytes)) ∧
      ∀ count e, count ≤ bytes.length → source.bytes = bytes.take count → source.failure = some e →
        e.endsEarly = false →
          (readAll source).1 =
              (readAll (.ofBytes bytes)).1.take (wholeBefore (readAll (.ofBytes bytes)).1 count) ∧
          (∀ settled, Settles (bytes.take count) settled → (readAll source).2 = some settled) ∧
          ((¬ ∃ settled, Settles (bytes.take count) settled) → (readAll source).2 = some (.io e.text)) := by
  constructor
  · intro hbytes hfailure
    exact readAll_presents ⟨hlossless, hbytes, hfailure, fun _ h => nomatch h⟩
  · intro count e hcount hbytes hfailure hplain
    have hsome : ∀ other, some e = some other → other.endsEarly = false :=
      fun _ h => Option.some.inj h ▸ hplain
    obtain ⟨records, rest, hfront, hrecords, hhalted⟩ := exists_halted (bytes.take count)
    -- the records are read, and what comes then depends on the bytes behind them
    have hread (more : List UInt8) (failure : Option IoError) :
        readAll (.ofBytes (bytes.take count ++ more) failure) =
          (records ++ (readAll (.ofBytes (rest ++ more) failure)).1,
            (readAll (.ofBytes (rest ++ more) failure)).2) := by
      have hfloored : records.map (·.floored) = records :=
        (List.map_congr_left fun r hr => (hrecords r hr).2).trans (List.map_id records)
      rw [hfront, List.append_assoc, readAll_encodeAll_append fun r hr => (hrecords r hr).1.fits, hfloored]
    have hall := hread (bytes.drop count) none
    have hsource := readAll_presents ⟨hlossless, hbytes, hfailure, hsome⟩
    rw [← List.append_nil (bytes.take count), hread] at hsource
    have hbefore : wholeBefore (readAll (.ofBytes bytes)).1 count = records.length := by
      have hlength := congrArg List.length hfront
      rw [List.length_take_of_le hcount, List.length_append] at hlength
      rw [List.take_append_drop] at hall
      rw [hall]
      refine wholeBefore_append (by omega) fun r hr => ?_
      have hlt := hhalted.length_lt hr
      omega
    have htaken : (readAll (.ofBytes bytes)).1.take records.length = records := by
      rw [List.take_append_drop] at hall
      rw [hall]
      exact List.take_left
    rw [hbefore, htaken, hsource]
    cases hhalted with
    | refused d hd hrefused =>
      rw [hrefused [] (some e) hsome]
      refine ⟨List.append_nil records, fun settled hsettled => ?_, fun hno => ?_⟩
      · have hnow := hsettled.2 []
        rw [hread, hrefused [] none fun _ h => nomatch h] at hnow
        exact hnow
      · refine absurd ⟨d, hd, fun more => ?_⟩ hno
        rw [hread, hrefused more none fun _ h => nomatch h]
    | starved hnone hend hfailed =>
      rw [List.append_nil, hfailed e hplain]
      refine ⟨List.append_nil records, fun settled hsettled => ?_, fun _ => rfl⟩
      have hnow := hsettled.2 []
      rw [hread, List.append_nil] at hnow
      exact absurd hsettled.1 (hend settled hnow)

/-- One byte at a time, each after an interruption, until reading fails in the middle of a character. -/
theorem decoding_ignores_arrival_within_character :
    let bytes := encodeAll [beforeEpoch, beforeEpoch]
    let count := beforeEpoch.encode.length + 16
    let source : ByteSource :=
      ⟨(bytes.take count).flatMap fun b => [.interrupted, .piece b []], some ⟨"gone", false⟩⟩
    Arrival.Lossless source.arrivals ∧ readAll source = ([beforeEpoch.floored], some (.io "gone")) := by
  intro bytes count source
  have hlossless : Arrival.Lossless source.arrivals := by
    intro b rest hm
    simp [source] at hm
  have hfits : ∀ r ∈ [beforeEpoch, beforeEpoch], r.Fits := by simp [storable_beforeEpoch.fits]
  have hall := readAll_encodeAll hfits
  obtain ⟨-, hfailing⟩ := decoding_ignores_arrival bytes hlossless
  obtain ⟨hrecords, -, hend⟩ := hfailing count ⟨"gone", false⟩ (by decide +kernel) (by decide +kernel) rfl rfl
  have hone : wholeBefore [beforeEpoch.floored, beforeEpoch.floored] count = 1 := by decide +kernel
  rw [hall] at hrecords
  have hread : (readAll source).1 = [beforeEpoch.floored] := by
    rw [hrecords]
    exact congrArg [beforeEpoch.floored, beforeEpoch.floored].take hone
  have hfailure : (readAll source).2 = some (.io "gone") := by
    refine hend fun hsettled => ?_
    -- with all bytes there, nothing fails
    obtain ⟨settled, -, hmore⟩ := hsettled
    have hnow := hmore (bytes.drop count)
    rw [List.take_append_drop, hall] at hnow
    nomatch hnow
  exact ⟨hlossless, Prod.ext hread hfailure⟩

end Chronicle.Cache
