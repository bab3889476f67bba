/-!
# Cyclic redundancy check

The 32-bit check of the gzip format, over the reflected polynomial with the mask EDB88320.
-/

namespace Chronicle.Gzip

/-- Moves one bit out of the register. -/
def crcBit (register : UInt32) : UInt32 :=
  if register &&& 1 == 1 then (register >>> 1) ^^^ 0xEDB88320 else register >>> 1

/-- Takes one byte into the register. -/
def crcByte (register : UInt32) (b : UInt8) : UInt32 :=
  Nat.repeat crcBit 8 (register ^^^ b.toUInt32)

/-- The check of some bytes. -/
def crc32 (bytes : List UInt8) : UInt32 := bytes.foldl crcByte 0xFFFFFFFF ^^^ 0xFFFFFFFF

end Chronicle.Gzip
