import Cassette.Gzip.Checksum
import Cassette.Gzip.Inflate

/-!
# Compressed files

A compressed file is one member after another to its very end; its contents are the
contents of the members in a row.  A member is a header with optional fields, a
deflated stream, and the check and the size of the contents.

What is proved about tapes does not depend on any of this.  It holds for any function that
takes a compressed image to its contents, or to none; `gunzip` is the one that runs.

## Main definitions

* `header?` — a header, and the bytes after it.
* `member?` — a member, and the bytes after it.
* `gunzip` — a whole file.
-/

namespace Cassette.Gzip

/-- The bytes that every member begins with. -/
def magic : List UInt8 := [0x1F, 0x8B]

/-- The longest optional field of a header. -/
def maxField : Nat := 65535

/-- A field that a zero byte ends, without it, and the bytes after it. -/
def zeroTerminated? (bytes : List UInt8) : Option (List UInt8) :=
  let field := bytes.takeWhile (· ≠ 0)
  match bytes.drop field.length with
  | [] => none
  | _ :: rest => if field.length ≤ maxField then some rest else none

/-- A field that begins with its length, and the bytes after it. -/
def counted? (bytes : List UInt8) : Option (List UInt8) := do
  let (length, rest) ← word? bytes
  if (rest.take length).length = length then some (rest.drop length) else none

/-- The check of a header, which is the low half of the check of the bytes before it. -/
def headerCheck? (header bytes : List UInt8) : Option (List UInt8) := do
  let (check, rest) ← word? bytes
  if (crc32 header).toNat % 0x10000 = check then some rest else none

/-- A field that is there when its bit of `flags` is set. -/
def flagged? (flags : UInt8) (bit : Nat) (field? : List UInt8 → Option (List UInt8))
    (bytes : List UInt8) : Option (List UInt8) :=
  if flags.toNat.testBit bit then field? bytes else some bytes

/-- A header, and the bytes after it.  The flags say which optional fields there are:
a check of the header, extra data, a name and a comment. -/
def header? (bytes : List UInt8) : Option (List UInt8) := do
  let fixed := bytes.take 10
  let flags ← fixed[3]?
  if fixed.length ≠ 10 || fixed.take 3 ≠ magic ++ [8] || flags.toNat ≥ 0x20 then none
  let rest ← flagged? flags 2 counted? (bytes.drop 10)
  let rest ← flagged? flags 3 zeroTerminated? rest
  let rest ← flagged? flags 4 zeroTerminated? rest
  flagged? flags 1 (headerCheck? (bytes.take (bytes.length - rest.length))) rest

/-- The check and the size that a member ends with, and the bytes after them. -/
def trailer? (bytes : List UInt8) : Option (Nat × Nat × List UInt8) := do
  let (low, rest) ← word? bytes
  let (high, rest) ← word? rest
  let (sizeLow, rest) ← word? rest
  let (sizeHigh, rest) ← word? rest
  return (low + 0x10000 * high, sizeLow + 0x10000 * sizeHigh, rest)

/-- The contents of a member, and the bytes after it. -/
def member? (bytes : List UInt8) : Option (List UInt8 × List UInt8) := do
  let (out, rest) ← inflate (← header? bytes)
  let (check, size, rest) ← trailer? rest
  let contents := out.toList
  if (crc32 contents).toNat = check && out.size % 0x100000000 = size then return (contents, rest)
  else none

/-- Members up to the end.  Every member takes bytes, so `limit` members are enough for
`limit` bytes. -/
def members? : Nat → List UInt8 → Option (List UInt8)
  | 0, _ => none
  | limit + 1, bytes => do
    let (contents, rest) ← member? bytes
    if rest.isEmpty then return contents
    return contents ++ (← members? limit rest)

/-- The contents of a file. -/
def gunzip (bytes : List UInt8) : Option (List UInt8) := members? bytes.length bytes

end Cassette.Gzip
