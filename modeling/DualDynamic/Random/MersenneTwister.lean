/-!
# A stream of random words

The Mersenne twister with a period of `2 ^ 19937 - 1`: 624 words of 32 bits are recombined all at
once, and each of them is tempered before it is handed out.
-/

namespace DualDynamic

/-- The state of a stream: its words, and how many of them were handed out. -/
structure MersenneTwister where
  words : Array UInt32
  position : Nat
  deriving Repr

namespace MersenneTwister

/-- The number of words. -/
def size : Nat := 624

/-- The distance of the words that are combined. -/
def offset : Nat := 397

/-- The word that follows the one at a position when the state is filled from a number. -/
def fillNext (word : UInt32) (position : Nat) : UInt32 :=
  (1812433253 : UInt32) * (word ^^^ (word >>> 30)) + UInt32.ofNat (position + 1)

/-- The state filled from one number. -/
def ofWord (seed : UInt32) : MersenneTwister :=
  let step := fun (acc : Array UInt32 × UInt32) (i : Nat) =>
    (acc.1.push acc.2, fillNext acc.2 i)
  ⟨((List.range size).foldl step (Array.emptyWithCapacity size, seed)).1, size⟩

/-- The words while a key is mixed in, the position to change next and the position in the key. -/
structure Mixing where
  words : Array UInt32
  position : Nat
  key : Nat

/-- Goes on to the next word; behind the last one comes the second, and the first takes its
value. -/
def Mixing.advance (m : Mixing) : Mixing :=
  if m.position + 1 < size then { m with position := m.position + 1 }
  else { m with words := m.words.set! 0 (m.words.getD (size - 1) 0), position := 1 }

/-- The word at the position mixed with the one before it. -/
def Mixing.blend (m : Mixing) (factor : UInt32) : UInt32 :=
  let before := m.words.getD (m.position - 1) 0
  m.words.getD m.position 0 ^^^ ((before ^^^ (before >>> 30)) * factor)

/-- Mixes in a word of the key. -/
def Mixing.addKey (key : Array UInt32) (m : Mixing) : Mixing :=
  let word := m.blend 1664525 + key.getD m.key 0 + UInt32.ofNat m.key
  let m := { m with words := m.words.set! m.position word }
  { m.advance with key := if m.key + 1 < key.size then m.key + 1 else 0 }

/-- Mixes in the position. -/
def Mixing.spread (m : Mixing) : Mixing :=
  let word := m.blend 1566083941 - UInt32.ofNat m.position
  { m with words := m.words.set! m.position word }.advance

/-- The state filled from a key of at least one word. -/
def ofKey (key : Array UInt32) : MersenneTwister :=
  let start : Mixing := ⟨(ofWord 19650218).words, 1, 0⟩
  let mixed := (List.range (max size key.size)).foldl (fun m _ => m.addKey key) start
  let spread := (List.range (size - 1)).foldl (fun m _ => m.spread) mixed
  ⟨spread.words.set! 0 0x80000000, size⟩

/-- The word at a position, from its upper bit, the lower bits of the next one and a distant
one. -/
def recombine (current next distant : UInt32) : UInt32 :=
  let y := (current &&& 0x80000000) ||| (next &&& 0x7fffffff)
  distant ^^^ (y >>> 1) ^^^ (if y &&& 1 == 0 then 0 else 0x9908b0df)

/-- All words recombined. -/
def twist (words : Array UInt32) : Array UInt32 :=
  (List.range size).foldl (fun ws i =>
    ws.set! i (recombine (ws.getD i 0) (ws.getD ((i + 1) % size) 0)
      (ws.getD ((i + offset) % size) 0))) words

/-- A word as it is handed out. -/
def temper (y : UInt32) : UInt32 :=
  let y := y ^^^ (y >>> 11)
  let y := y ^^^ ((y <<< 7) &&& 0x9d2c5680)
  let y := y ^^^ ((y <<< 15) &&& 0xefc60000)
  y ^^^ (y >>> 18)

/-- The next word. -/
def next (s : MersenneTwister) : UInt32 × MersenneTwister :=
  if s.position < size then
    (temper (s.words.getD s.position 0), { s with position := s.position + 1 })
  else
    let words := twist s.words
    (temper (words.getD 0 0), ⟨words, 1⟩)

end MersenneTwister

end DualDynamic
