import EloqStore.Foundation.ByteCodec

/-!
# Building pages of entries with restart points

A page holds entries one behind the other, each written relative to the one before it; only at its
**restart points** an entry is written in full. Behind the entries come the offsets of the restart
points, in two bytes each, and their number. Nothing here knows what the entries are: a `Format`
says how an entry is written after what is known of the one before.
-/

namespace RestartPage

open ByteCodec

variable {ε μ : Type*}

/-- How entries are written. -/
structure Format (ε μ : Type*) where
  start : μ
  after : ε → μ
  write : μ → ε → List UInt8

/-- A page under construction. -/
structure Builder (μ : Type*) where
  buffer : List UInt8
  restarts : List ℕ
  counter : ℕ
  last : μ

/-- An entry is put behind the others. -/
def Builder.append (F : Format ε μ) (restart : Bool) (b : Builder μ) (e : ε) : Builder μ where
  buffer := b.buffer ++ F.write (if restart then F.start else b.last) e
  restarts := if restart then b.restarts ++ [b.buffer.length] else b.restarts
  counter := if restart then 1 else b.counter + 1
  last := F.after e

def resize (size : ℕ) (bytes : List UInt8) : List UInt8 := (bytes ++ .replicate size 0).take size

/-- The restart points are put behind the entries. -/
def content (buffer : List UInt8) (restarts : List ℕ) : List UInt8 :=
  buffer ++ (restarts.flatMap (fixed 2) ++ fixed 2 restarts.length)

/-- The length of the content is put into the header, behind a checksum of eight bytes and a type.
-/
def finish (size : ℕ) (buffer : List UInt8) (restarts : List ℕ) : List UInt8 :=
  let bytes := content buffer restarts
  resize size (bytes.take 9 ++ (fixed 2 bytes.length ++ bytes.drop 11))

theorem length_content (buffer : List UInt8) (restarts : List ℕ) :
    (content buffer restarts).length = buffer.length + restarts.length * 2 + 2 := by
  simp [content, Nat.add_assoc]

end RestartPage
