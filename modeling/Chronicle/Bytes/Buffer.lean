/-!
# Buffers that grow

Bytes whose number may not be trusted are collected in a buffer that grows as they come. A read then
asks for as much as the buffer has room for, and for no more than a limit that rises with every read
that could fill it. An empty buffer has no room yet, so its first read is a small one on the side.
-/

namespace Chronicle

/-- A buffer that bytes are collected in. -/
structure Buffer where
  /-- How many bytes are in it. -/
  size : Nat := 0
  /-- How many bytes have room in it. -/
  capacity : Nat := 0
  /-- The limit of a read. -/
  most : Nat := 8192
  deriving DecidableEq, Repr

namespace Buffer

/-- What the first read asks for, and the least that a full buffer grows by. -/
def probe : Nat := 32

/-- The least capacity of a buffer that is not empty. -/
def leastCapacity : Nat := 8

/-- How many bytes have room for the next read: a full buffer grows to at least twice its capacity. -/
def grown (b : Buffer) : Nat :=
  if b.size = b.capacity then max (2 * b.capacity) (b.capacity + probe) else b.capacity

/-- How many bytes the next read asks for. -/
def asks (b : Buffer) : Nat :=
  if b.capacity = 0 then probe else min (b.grown - b.size) b.most

/-- The buffer after a read that got `count` bytes. -/
def receive (b : Buffer) (count : Nat) : Buffer :=
  if b.capacity = 0 then { b with size := count, capacity := max leastCapacity count }
  else
    { size := b.size + count
      capacity := b.grown
      most := if b.most ≤ b.asks && count = b.asks then 2 * b.most else b.most }

/-- The buffer after as many reads as it takes to get `count` bytes that are there. Each gets at least
one byte, so `fuel` need not be greater. -/
def receiveAll (b : Buffer) (count : Nat) : Nat → Buffer
  | 0 => b
  | fuel + 1 =>
    if count = 0 then b
    else (b.receive (min b.asks count)).receiveAll (count - min b.asks count) fuel

end Buffer

end Chronicle
