/-!
# Random words

A reproducible stream of 32-bit words: the ChaCha stream cipher with twelve rounds, keyed by a
64-bit seed that a congruential generator spreads over the key.
-/

namespace QuantumCompiler.Random

/-- Rotates a word to the left. -/
@[inline] def rotateLeft (x : UInt32) (k : UInt32) : UInt32 := (x <<< k) ||| (x >>> (32 - k))

abbrev Block := Vector UInt32 16

def quarterRound (s : Block) (a b c d : Fin 16) : Block :=
  let step (s : Block) (x y z : Fin 16) (k : UInt32) : Block :=
    let s := s.set x (s[x] + s[y])
    s.set z (rotateLeft (s[z] ^^^ s[x]) k)
  let s := step s a b d 16
  let s := step s c d b 12
  let s := step s a b d 8
  step s c d b 7

def doubleRound (s : Block) : Block :=
  let s := quarterRound s 0 4 8 12
  let s := quarterRound s 1 5 9 13
  let s := quarterRound s 2 6 10 14
  let s := quarterRound s 3 7 11 15
  let s := quarterRound s 0 5 10 15
  let s := quarterRound s 1 6 11 12
  let s := quarterRound s 2 7 8 13
  quarterRound s 3 4 9 14

/-- The block of a key and a counter before mixing. -/
def initial (key : Vector UInt32 8) (counter : UInt64) : Block :=
  #v[0x61707865, 0x3320646e, 0x79622d32, 0x6b206574,
    key[0], key[1], key[2], key[3], key[4], key[5], key[6], key[7],
    counter.toUInt32, (counter >>> 32).toUInt32, 0, 0]

/-- The block of a key and a counter: six double rounds, added to the start. -/
def block (key : Vector UInt32 8) (counter : UInt64) : Block :=
  let start := initial key counter
  let mixed := (List.range 6).foldl (fun s _ => doubleRound s) start
  Vector.zipWith (· + ·) mixed start

/-- A position in the stream of words of a key. -/
structure Stream where
  key : Vector UInt32 8
  counter : UInt64
  /-- The words of the current block that are left. -/
  left : List UInt32
  deriving Repr

/-- Spreads a seed over the words of a key. -/
def keyWords : Nat → UInt64 → List UInt32
  | 0, _ => []
  | n + 1, state =>
    let state := state * 6364136223846793005 + 11634580027462260723
    let word := (((state >>> 18) ^^^ state) >>> 27).toUInt32
    let turn := (state >>> 59).toUInt32
    let word := if turn = 0 then word else (word >>> turn) ||| (word <<< (32 - turn))
    word :: keyWords n state

def Stream.ofSeed (seed : Nat) : Stream :=
  let words := (keyWords 8 (UInt64.ofNat seed)).toArray
  ⟨Vector.ofFn fun i => words.getD i 0, 0, []⟩

/-- The next word and the position after it. -/
def Stream.next (s : Stream) : UInt32 × Stream :=
  match s.left with
  | word :: left => (word, { s with left })
  | [] =>
    match (block s.key s.counter).toList with
    | word :: left => (word, { s with counter := s.counter + 1, left })
    | [] => (0, s)

/-- How many words one index may take. Fewer than half of all words are refused. -/
def maxDraws : Nat := 64

/-- Draws words until one of them selects evenly among `n` indices. -/
def Stream.indexWithin (n zone : Nat) : Nat → Stream → Nat × Stream
  | 0, s => (0, s)
  | draws + 1, s =>
    let (word, s) := s.next
    let product := word.toNat * n
    if product % 0x100000000 ≤ zone then (product / 0x100000000, s) else indexWithin n zone draws s

/-- A random index below `n`: the high half of the product with a random word, refusing the words at
the end that would favour some indices. -/
def Stream.index (s : Stream) (n : Nat) : Nat × Stream :=
  let zone := (n <<< (31 - Nat.log2 n)) - 1
  s.indexWithin n zone maxDraws

/-- A random order of a list: from the back, each place exchanges with a random one up to it. -/
def Stream.shuffle {α : Type} (s : Stream) (xs : List α) : List α × Stream :=
  let (array, s) := (List.range (xs.length - 1)).foldr
    (fun k (acc : Array α × Stream) =>
      let (j, s) := acc.2.index (k + 2)
      (acc.1.swapIfInBounds (k + 1) j, s)) (xs.toArray, s)
  (array.toList, s)

/-- A random element; an empty list takes no word. -/
def Stream.choose? {α : Type} (s : Stream) (xs : List α) : Option α × Stream :=
  if xs.isEmpty then (none, s)
  else
    let (i, s) := s.index xs.length
    (xs[i]?, s)

end QuantumCompiler.Random
