/-!
# Mixing hash

A 32-bit hash over a sequence of 32-bit blocks: each block is mixed into an accumulator, and the
number of blocks (or bytes) goes into a final avalanche. Keys are hashed block by block, one block
a field; strings are hashed over their little-endian words.
-/
namespace IndexedStore.Mixing

def seed : UInt32 := 0xcafebabe

def rotateLeft (word amount : UInt32) : UInt32 :=
  (word <<< amount) ||| (word >>> (32 - amount))

def scatter (block : UInt32) : UInt32 :=
  rotateLeft (block * 0xcc9e2d51) 15 * 0x1b873593

def mix (acc block : UInt32) : UInt32 :=
  rotateLeft (acc ^^^ scatter block) 13 * 5 + 0xe6546b64

def finish (acc count : UInt32) : UInt32 :=
  let h := acc ^^^ count
  let h := (h ^^^ (h >>> 16)) * 0x85ebca6b
  let h := (h ^^^ (h >>> 13)) * 0xc2b2ae35
  h ^^^ (h >>> 16)

def digest (blocks : List UInt32) (count : Nat) : UInt32 :=
  finish (blocks.foldl mix seed) (UInt32.ofNat count)

def word (b₀ b₁ b₂ b₃ : UInt8) : UInt32 :=
  b₀.toUInt32 ||| (b₁.toUInt32 <<< 8) ||| (b₂.toUInt32 <<< 16) ||| (b₃.toUInt32 <<< 24)

/-- Little-endian words of a byte string; a short last word is padded with zeros. -/
def words : List UInt8 → List UInt32
  | [] => []
  | [a] => [word a 0 0 0]
  | [a, b] => [word a b 0 0]
  | [a, b, c] => [word a b c 0]
  | a :: b :: c :: d :: rest => word a b c d :: words rest

def bytes (bs : List UInt8) : UInt32 := digest (words bs) bs.length

def text (s : String) : UInt32 := bytes s.toUTF8.toList

def fold (v : UInt64) : UInt32 := (v ^^^ (v >>> 32)).toUInt32

end IndexedStore.Mixing
