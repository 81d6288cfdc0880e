import TreeDelta.Bytes
set_option autoImplicit false

/-!
# Content digests

A file's content is named by its BLAKE3 digest of 32 bytes. The input is cut
into chunks of 1024 bytes and these into blocks of 64. A chunk's blocks are
absorbed in order into a chaining value, and the chaining values of the chunks
are combined pairwise up to one root. A value without a partner goes up a level
as it is, so every left subtree is as large as it can be.
-/
namespace TreeDelta

namespace Digest

structure Quad where
  w0 : UInt32
  w1 : UInt32
  w2 : UInt32
  w3 : UInt32
deriving DecidableEq

namespace Quad

def map (f : UInt32 → UInt32) (a : Quad) : Quad := ⟨f a.w0, f a.w1, f a.w2, f a.w3⟩

def zip (f : UInt32 → UInt32 → UInt32) (a b : Quad) : Quad :=
  ⟨f a.w0 b.w0, f a.w1 b.w1, f a.w2 b.w2, f a.w3 b.w3⟩

def turn (a : Quad) : Quad := ⟨a.w1, a.w2, a.w3, a.w0⟩

def toList (a : Quad) : List UInt32 := [a.w0, a.w1, a.w2, a.w3]

end Quad

structure Chain where
  lower : Quad
  upper : Quad
deriving DecidableEq

def start : Chain :=
  ⟨⟨0x6A09E667, 0xBB67AE85, 0x3C6EF372, 0xA54FF53A⟩,
   ⟨0x510E527F, 0x9B05688C, 0x1F83D9AB, 0x5BE0CD19⟩⟩

structure Grid where
  a : Quad
  b : Quad
  c : Quad
  d : Quad

def rotateRight (n : UInt32) (x : UInt32) : UInt32 := (x >>> n) ||| (x <<< (32 - n))

def Grid.mixHalf (g : Grid) (m : Quad) (n n' : UInt32) : Grid :=
  let a := (g.a.zip (· + ·) g.b).zip (· + ·) m
  let d := (g.d.zip (· ^^^ ·) a).map (rotateRight n)
  let c := g.c.zip (· + ·) d
  let b := (g.b.zip (· ^^^ ·) c).map (rotateRight n')
  ⟨a, b, c, d⟩

def Grid.mix (g : Grid) (m m' : Quad) : Grid := (g.mixHalf m 16 12).mixHalf m' 8 7

def Grid.slant (g : Grid) : Grid := ⟨g.a, g.b.turn, g.c.turn.turn, g.d.turn.turn.turn⟩

def Grid.unslant (g : Grid) : Grid := ⟨g.a, g.b.turn.turn.turn, g.c.turn.turn, g.d.turn⟩

def pick (m : List UInt32) (i j k l : Nat) : Quad :=
  ⟨m.getD i 0, m.getD j 0, m.getD k 0, m.getD l 0⟩

def Grid.round (g : Grid) (m : List UInt32) : Grid :=
  let columns := g.mix (pick m 0 2 4 6) (pick m 1 3 5 7)
  (columns.slant.mix (pick m 8 10 12 14) (pick m 9 11 13 15)).unslant

def reorder (m : List UInt32) : List UInt32 :=
  [2, 6, 3, 10, 7, 0, 4, 13, 1, 11, 12, 5, 9, 14, 15, 8].map fun i => m.getD i 0

def rounds : Nat → Grid → List UInt32 → Grid
  | 0, g, _ => g
  | n + 1, g, m => rounds n (g.round m) (reorder m)

def chunkStart : UInt32 := 1
def chunkEnd : UInt32 := 2
def parentNode : UInt32 := 4
def rootNode : UInt32 := 8

def compress (chain : Chain) (message : List UInt32) (counter length : Nat) (flags : UInt32) :
    Chain :=
  let g := rounds 7
    ⟨chain.lower, chain.upper, start.lower,
      ⟨UInt32.ofNat counter, UInt32.ofNat (counter / UInt32.size), UInt32.ofNat length, flags⟩⟩ message
  ⟨g.a.zip (· ^^^ ·) g.c, g.b.zip (· ^^^ ·) g.d⟩

/-- Words of four bytes, the least significant first; what is missing counts as zero. -/
def wordsOf : Bytes → List UInt32
  | a :: b :: c :: d :: rest =>
    (a.toUInt32 ||| (b.toUInt32 <<< 8) ||| (c.toUInt32 <<< 16) ||| (d.toUInt32 <<< 24)) ::
      wordsOf rest
  | [a, b, c] => [a.toUInt32 ||| (b.toUInt32 <<< 8) ||| (c.toUInt32 <<< 16)]
  | [a, b] => [a.toUInt32 ||| (b.toUInt32 <<< 8)]
  | [a] => [a.toUInt32]
  | [] => []

def bytesOf (w : UInt32) : Bytes :=
  [w.toUInt8, (w >>> 8).toUInt8, (w >>> 16).toUInt8, (w >>> 24).toUInt8]

def piecesWithin {α : Type} (n : Nat) : Nat → List α → List (List α)
  | 0, l => [l]
  | fuel + 1, l =>
    match l.drop n with
    | [] => [l]
    | rest => l.take n :: piecesWithin n fuel rest

def pieces {α : Type} (n : Nat) (l : List α) : List (List α) := piecesWithin n l.length l

/-- Absorbs the blocks of one chunk. `first` marks the first block, `last` is for the last. -/
def absorb (counter : Nat) (last : UInt32) : UInt32 → Chain → List Bytes → Chain
  | _, chain, [] => chain
  | first, chain, [block] =>
    compress chain (wordsOf block) counter block.length (first ||| chunkEnd ||| last)
  | first, chain, block :: blocks =>
    absorb counter last 0 (compress chain (wordsOf block) counter block.length first) blocks

def chunkChain (counter : Nat) (last : UInt32) (chunk : Bytes) : Chain :=
  absorb counter last chunkStart start (pieces 64 chunk)

def parentChain (flags : UInt32) (l r : Chain) : Chain :=
  compress start (l.lower.toList ++ l.upper.toList ++ r.lower.toList ++ r.upper.toList) 0 64
    (parentNode ||| flags)

def pairUp : List Chain → List Chain
  | l :: r :: rest => parentChain 0 l r :: pairUp rest
  | rest => rest

def combine : Nat → List Chain → Chain
  | _, [l, r] => parentChain rootNode l r
  | 0, l => l.headD start
  | fuel + 1, l => combine fuel (pairUp l)

def chain (data : Bytes) : Chain :=
  match pieces 1024 data with
  | [chunk] => chunkChain 0 rootNode chunk
  | chunks =>
    combine chunks.length ((List.range chunks.length).zipWith (fun i c => chunkChain i 0 c) chunks)

def Chain.bytes (c : Chain) : Bytes := (c.lower.toList ++ c.upper.toList).flatMap bytesOf

theorem Chain.length_bytes (c : Chain) : c.bytes.length = 32 := rfl

end Digest

/-- The handle of a file's content. Equal contents have equal handles. -/
structure ContentId where
  bytes : Bytes
  length_bytes : bytes.length = 32
deriving DecidableEq

namespace ContentId

instance : Ord ContentId := ⟨fun a b => compare a.bytes b.bytes⟩

theorem compare_def (a b : ContentId) : compare a b = compare a.bytes b.bytes := rfl

instance : Std.TransOrd ContentId where
  eq_swap {a b} := (Std.OrientedCmp.eq_swap : compare a.bytes b.bytes = _)
  isLE_trans {a b c} h h' := by
    rw [compare_def] at *
    exact Std.TransCmp.isLE_trans h h'

instance : Std.LawfulEqOrd ContentId where
  compare_self {a} := (Std.ReflCmp.compare_self : compare a.bytes a.bytes = _)
  eq_of_compare {a b} h := by
    rw [compare_def] at h
    have h := Std.LawfulEqCmp.eq_of_compare h
    cases a
    cases b
    simp_all

def ofBytes (data : Bytes) : ContentId := ⟨(Digest.chain data).bytes, Digest.Chain.length_bytes _⟩

def hex (id : ContentId) : String := Bytes.hex id.bytes

def shortHex (id : ContentId) : String := Bytes.hex (id.bytes.take 4)

end ContentId

end TreeDelta
