import Chronicle.Gzip.Member

/-!
# Files of stored blocks are read back

Files are written as stored blocks. A decompressor that comes upon such blocks copies their bytes and is
left at what follows the last one, whatever it did before and however long it may go on. What it notes
about its stretches does not matter for that, so a decompressor is described here only by the bits that
it holds, its input and its output.
-/

namespace Chronicle.Gzip

/-- Digits of a number that need not fit are those of its remainder. -/
theorem ofLittleEndian_littleEndian_mod (width n : Nat) :
    Bytes.ofLittleEndian (Bytes.littleEndian width n) = n % Bytes.span width := by
  induction width generalizing n with
  | zero =>
    simp only [Bytes.littleEndian, Bytes.ofLittleEndian, Bytes.span]
    omega
  | succ width ih =>
    have hm : n % (256 * Bytes.span width) = n % 256 + 256 * (n / 256 % Bytes.span width) :=
      Nat.mod_mul
    simp only [Bytes.littleEndian, Bytes.ofLittleEndian, ih, UInt8.toNat_ofNat', Bytes.span, hm]

/-- What a decompressor holds, has before it and has written. -/
structure Decoder.At (d : Decoder) (held : List Bool) (input output : List UInt8) : Prop where
  /-- The bits left of a byte that was begun. -/
  held_eq : d.held = held
  /-- The bytes after it. -/
  input_eq : d.input = input
  /-- What was written. -/
  output_eq : d.output.toList = output

/-- A step gives a result and leaves the decompressor so. -/
def Yields {α : Type} (m : Decode α) (d : Decoder) (a : α) (held : List Bool)
    (input output : List UInt8) : Prop :=
  ∃ d', m d = .ok a d' ∧ d'.At held input output

section Steps

variable {d : Decoder} {held : List Bool} {input output : List UInt8}

/-- Steps are taken one after the other. -/
theorem Yields.bind {α β : Type} {m : Decode α} {f : α → Decode β} {a : α} {b : β}
    {held' : List Bool} {input' output' : List UInt8} (h : Yields m d a held input output)
    (hf : ∀ d' : Decoder, d'.At held input output → Yields (f a) d' b held' input' output') :
    Yields (m >>= f) d b held' input' output' := by
  obtain ⟨d', hm, hd⟩ := h
  obtain ⟨d'', hf', hd'⟩ := hf d' hd
  refine ⟨d'', ?_, hd'⟩
  change EStateM.bind m f d = _
  unfold EStateM.bind
  rw [hm]
  exact hf'

/-- A step that only gives a result. -/
theorem Yields.pure {α : Type} {a : α} (h : d.At held input output) :
    Yields (Pure.pure a : Decode α) d a held input output :=
  ⟨d, rfl, h⟩

/-- A byte is taken from the input. -/
theorem yields_byte {b : UInt8} (h : d.At held (b :: input) output) :
    Yields byte d b held input output := by
  unfold Yields byte
  rw [h.input_eq]
  refine ⟨_, rfl, ?_, rfl, ?_⟩
  · unfold Decoder.beforeByte
    split
    · exact h.held_eq
    · exact h.held_eq
  · unfold Decoder.beforeByte
    split
    · exact h.output_eq
    · exact h.output_eq

/-- A bit is taken from those held. -/
theorem yields_bit_held {b : Bool} (h : d.At (b :: held) input output) :
    Yields bit d b held input output := by
  unfold Yields bit
  rw [h.held_eq]
  exact ⟨_, rfl, rfl, h.input_eq, h.output_eq⟩

/-- Without bits held, a byte is begun. -/
theorem yields_bit_byte {b : UInt8} (h : d.At [] (b :: input) output) :
    Yields bit d (b.toNat.testBit 0) (bitsOf b).tail input output := by
  obtain ⟨d', hb, hd⟩ := yields_byte h
  unfold Yields bit
  rw [h.held_eq]
  dsimp only
  rw [hb]
  exact ⟨_, rfl, rfl, hd.input_eq, hd.output_eq⟩

/-- A number of no width is nothing. -/
theorem yields_number_zero (h : d.At held input output) : Yields (number 0) d 0 held input output :=
  .pure h

/-- A number is its least bit and the rest. -/
theorem yields_number_succ {width n : Nat} {b : Bool} {held' : List Bool} {input' : List UInt8}
    (hb : Yields bit d b held input output)
    (hn : ∀ d' : Decoder, d'.At held input output → Yields (number width) d' n held' input' output) :
    Yields (number (width + 1)) d (b.toNat + 2 * n) held' input' output :=
  hb.bind fun _ h => (hn _ h).bind fun _ h => .pure h

/-- The bits of a byte that was begun are given up. -/
theorem yields_align (h : d.At held input output) : Yields align d () [] input output :=
  ⟨_, rfl, rfl, h.input_eq, h.output_eq⟩

/-- Making room moves nothing. -/
theorem yields_makeRoom (h : d.At held input output) : Yields makeRoom d () held input output := by
  refine ⟨d.beforeWrite, rfl, ?_⟩
  unfold Decoder.beforeWrite
  split
  · exact ⟨h.held_eq, h.input_eq, h.output_eq⟩
  · exact h

/-- A byte is added to the output. -/
theorem yields_write {b : UInt8} (h : d.At held input output) :
    Yields (write b) d () held input (output ++ [b]) := by
  refine (yields_makeRoom h).bind fun d' h' => ⟨_, rfl, h'.held_eq, h'.input_eq, ?_⟩
  rw [Array.toList_push, h'.output_eq]

/-- Bytes are copied from the input to the output. -/
theorem yields_copyBytes {bytes : List UInt8} (h : d.At held (bytes ++ input) output) :
    Yields (copyBytes bytes.length) d () held input (output ++ bytes) := by
  induction bytes generalizing d output with
  | nil =>
    rw [List.append_nil]
    exact .pure h
  | cons b rest ih =>
    have hs : output ++ b :: rest = output ++ [b] ++ rest := by
      rw [List.append_assoc, List.singleton_append]
    rw [hs]
    refine (yields_makeRoom h).bind fun d₁ h₁ => ?_
    refine (yields_byte h₁).bind fun d₂ h₂ => ?_
    exact (yields_write h₂).bind fun d₃ h₃ => ih h₃

end Steps

section Blocks

variable {d : Decoder} {held : List Bool} {input output bytes : List UInt8}

/-- The two digits of a number below 65536. -/
theorem littleEndian_two (n : Nat) :
    Bytes.littleEndian 2 n = [UInt8.ofNat n, UInt8.ofNat (n / 256)] := rfl

/-- A stored block after its header is copied. -/
theorem yields_stored (hlen : bytes.length ≤ maxStored)
    (h : d.At held (Bytes.littleEndian 2 bytes.length ++ Bytes.littleEndian 2 (65535 - bytes.length) ++
      bytes ++ input) output) :
    Yields Inflate.stored d () [] input (output ++ bytes) := by
  have hl : Bytes.ofLittleEndian [UInt8.ofNat bytes.length, UInt8.ofNat (bytes.length / 256)] =
      bytes.length := by
    have hm := ofLittleEndian_littleEndian_mod 2 bytes.length
    rw [littleEndian_two] at hm
    rw [hm]
    exact Nat.mod_eq_of_lt (by simp only [Bytes.span, maxStored] at hlen ⊢; omega)
  have hc : Bytes.ofLittleEndian [UInt8.ofNat (65535 - bytes.length),
      UInt8.ofNat ((65535 - bytes.length) / 256)] = 65535 - bytes.length := by
    have hm := ofLittleEndian_littleEndian_mod 2 (65535 - bytes.length)
    rw [littleEndian_two] at hm
    rw [hm]
    exact Nat.mod_eq_of_lt (by simp only [Bytes.span]; omega)
  refine (yields_align h).bind fun d₁ h₁ => ?_
  rw [littleEndian_two, littleEndian_two] at h₁
  refine (yields_byte h₁).bind fun d₂ h₂ => ?_
  refine (yields_byte h₂).bind fun d₃ h₃ => ?_
  refine (yields_byte h₃).bind fun d₄ h₄ => ?_
  refine (yields_byte h₄).bind fun d₅ h₅ => ?_
  dsimp only
  rw [hl, hc, if_neg (by simp only [maxStored] at hlen; omega)]
  exact yields_copyBytes h₅

/-- The header of a stored block: whether it is the last, and its kind. -/
theorem yields_header {isLast : Bool} (h : d.At [] ((if isLast then 1 else 0) :: input) output) :
    Yields bit d isLast (List.replicate 7 false) input output := by
  have hb := yields_bit_byte h
  cases isLast
  · exact hb
  · exact hb

/-- The kind of a stored block. -/
theorem yields_kind (h : d.At (List.replicate 7 false) input output) :
    Yields (number 2) d 0 (List.replicate 5 false) input output :=
  yields_number_succ (yields_bit_held h) fun _ h₁ =>
    yields_number_succ (yields_bit_held h₁) fun _ h₂ => yields_number_zero h₂

/-- The last block of a file is copied. -/
theorem yields_blocks_last (fuel more : Nat) (hlen : bytes.length ≤ maxStored)
    (h : d.At [] (storedBlock true bytes ++ input) output) :
    Yields (Inflate.blocks fuel (more + 1)) d () [] input (output ++ bytes) := by
  refine (yields_header h).bind fun d₁ h₁ => ?_
  refine (yields_kind h₁).bind fun d₂ h₂ => ?_
  exact (yields_stored hlen h₂).bind fun d₃ h₃ => .pure h₃

/-- A block that is not the last is copied before the others. -/
theorem yields_blocks_next (fuel : Nat) {more : Nat} (hlen : bytes.length ≤ maxStored)
    {input' output' : List UInt8} (h : d.At [] (storedBlock false bytes ++ input) output)
    (hrest : ∀ d' : Decoder, d'.At [] input (output ++ bytes) →
      Yields (Inflate.blocks fuel more) d' () [] input' output') :
    Yields (Inflate.blocks fuel (more + 1)) d () [] input' output' := by
  refine (yields_header h).bind fun d₁ h₁ => ?_
  refine (yields_kind h₁).bind fun d₂ h₂ => ?_
  exact (yields_stored hlen h₂).bind fun d₃ h₃ => hrest d₃ h₃

/-- Stored blocks are copied, with fuel for more blocks than there are. -/
theorem yields_storedBlocks (fuel : Nat) {full more : Nat} (hmore : full < more)
    (hlen : bytes.length ≤ maxStored * (full + 1))
    (h : d.At [] (storedBlocks full bytes ++ input) output) :
    Yields (Inflate.blocks fuel more) d () [] input (output ++ bytes) := by
  induction full generalizing d output bytes more with
  | zero =>
    obtain ⟨more, rfl⟩ := Nat.exists_eq_add_of_lt hmore
    exact yields_blocks_last fuel _ (by omega) h
  | succ full ih =>
    obtain ⟨later, rfl⟩ : ∃ later, more = later + 1 := ⟨more - 1, by omega⟩
    unfold storedBlocks at h
    by_cases hshort : bytes.length ≤ maxStored
    · rw [if_pos hshort] at h
      exact yields_blocks_last fuel later hshort h
    · rw [if_neg hshort, List.append_assoc] at h
      have htake : (bytes.take maxStored).length ≤ maxStored := by
        rw [List.length_take]
        omega
      refine yields_blocks_next fuel htake h fun d' h' => ?_
      have hdrop : (bytes.drop maxStored).length ≤ maxStored * (full + 1) := by
        rw [List.length_drop]
        rw [Nat.mul_succ] at hlen
        omega
      have hless : full < later := by omega
      have hr := ih hless hdrop h'
      rwa [List.append_assoc, List.take_append_drop] at hr

end Blocks

/-- A file is at least as long as its blocks are many. -/
theorem le_length_storedBlocks (full : Nat) (bytes : List UInt8)
    (hlen : maxStored * full ≤ bytes.length) : full ≤ (storedBlocks full bytes).length := by
  induction full generalizing bytes with
  | zero => exact Nat.zero_le _
  | succ full ih =>
    rw [Nat.mul_succ] at hlen
    unfold storedBlocks
    by_cases hshort : bytes.length ≤ maxStored
    · rw [if_pos hshort]
      have hz : full = 0 := by
        simp only [maxStored] at hlen hshort
        omega
      simp only [storedBlock, List.cons_append, List.length_cons]
      omega
    · rw [if_neg hshort, List.length_append]
      have hr := ih (bytes.drop maxStored) (by rw [List.length_drop]; omega)
      simp only [storedBlock, List.cons_append, List.length_cons]
      omega

/-- Decompressing stored blocks gives their bytes and what follows them. -/
theorem inflate_storedBlocks (taken : Nat) (bytes rest : List UInt8) :
    inflate taken (storedBlocks (bytes.length / maxStored) bytes ++ rest) = .complete bytes rest := by
  have hfull := Nat.div_mul_le_self bytes.length maxStored
  have hlt := Nat.lt_div_mul_add (a := bytes.length) (show 0 < maxStored by decide)
  have hblocks := le_length_storedBlocks (bytes.length / maxStored) bytes (by rw [Nat.mul_comm]; exact hfull)
  unfold inflate
  generalize hs : Decoder.mk [] (storedBlocks (bytes.length / maxStored) bytes ++ rest) taken #[] [] false =
    start
  have hstart : start.At [] (storedBlocks (bytes.length / maxStored) bytes ++ rest) [] := by
    subst hs
    exact ⟨rfl, rfl, rfl⟩
  have hfuel : bytes.length / maxStored < start.extent + 1 := by
    subst hs
    simp only [Decoder.extent, List.length_append, List.length_nil]
    omega
  have hlen : bytes.length ≤ maxStored * (bytes.length / maxStored + 1) := by
    rw [Nat.mul_succ, Nat.mul_comm]
    omega
  obtain ⟨d, hd, hat⟩ := yields_storedBlocks (start.extent + 1) hfuel hlen hstart
  dsimp only
  rw [hd]
  dsimp only
  rw [hat.output_eq, hat.input_eq, List.nil_append]

/-- The header that files are written with is passed over. -/
theorem afterHeader_plainHeader (rest : List UInt8) : afterHeader (plainHeader ++ rest) = .ok rest := by
  have hs : splitBytes 10 (plainHeader ++ rest) = .ok (plainHeader, rest) := by
    unfold splitBytes
    rw [if_neg (by simp [plainHeader])]
    rfl
  unfold afterHeader
  rw [hs]
  rfl

/-- The trailer that files are written with fits. -/
theorem trailerFailure_trailer (bytes : List UInt8) :
    trailerFailure bytes (Bytes.littleEndian 4 (crc32 bytes).toNat ++
      Bytes.littleEndian 4 bytes.length) = none := by
  have hcrc : Bytes.ofLittleEndian (Bytes.littleEndian 4 (crc32 bytes).toNat) = (crc32 bytes).toNat := by
    rw [Bytes.ofLittleEndian_littleEndian]
    exact (crc32 bytes).toNat_lt
  have hlen := ofLittleEndian_littleEndian_mod 4 bytes.length
  unfold trailerFailure
  rw [if_neg (by simp [List.length_append]), List.take_left' (Bytes.length_littleEndian 4 _),
    List.drop_left' (Bytes.length_littleEndian 4 _), List.take_of_length_le (by simp), hcrc, hlen]
  simp [Bytes.span_four]

/-- What was packed is unpacked again. -/
theorem unpack_pack (bytes : List UInt8) : unpack (pack bytes) = .ofBytes bytes none := by
  have hp : pack bytes = plainHeader ++ (storedBlocks (bytes.length / maxStored) bytes ++
      (Bytes.littleEndian 4 (crc32 bytes).toNat ++ Bytes.littleEndian 4 bytes.length)) := by
    simp only [pack, List.append_assoc]
  unfold unpack
  rw [hp, afterHeader_plainHeader]
  dsimp only
  rw [inflate_storedBlocks]
  dsimp only
  rw [trailerFailure_trailer]

/-- The bytes of a file unpack to some contents, up to a clean end. -/
def Unpacks (file contents : List UInt8) : Prop := unpack file = .ofBytes contents none

/-- What was packed unpacks to itself. -/
theorem unpacks_pack (bytes : List UInt8) : Unpacks (pack bytes) bytes := unpack_pack bytes

end Chronicle.Gzip
